/-!
A finite double as a signed product of a mantissa and a power of two, and back.
-/
namespace LoxScript.Number

def twoPow (n : Nat) : Nat := Nat.pow 2 n

def tenPow (n : Nat) : Nat := Nat.pow 10 n

/-- The number `± mantissa * 2 ^ exponent`. -/
structure Binary where
  negative : Bool
  mantissa : Nat
  exponent : Int
deriving DecidableEq, Repr

/-- The exponent of the least positive double. -/
def leastExponent : Int := -1074

/-- The parts of a finite double. The exponent field zero stands for the numbers below `2 ^ -1022`,
whose leading bit is not implied. -/
def split (x : Float) : Binary :=
  let bits : Nat := x.toBits.toNat
  let fraction : Nat := bits % twoPow 52
  let field : Nat := bits / twoPow 52 % twoPow 11
  let negative := bits / twoPow 63 % 2 = 1
  if field = 0 then ⟨negative, fraction, leastExponent⟩
  else ⟨negative, twoPow 52 + fraction, (field : Int) - 1075⟩

/-- The double with the given parts, for a number that a double can hold exactly. -/
def join (b : Binary) : Float :=
  let sign := if b.negative then twoPow 63 else 0
  if b.mantissa = 0 then .ofBits (UInt64.ofNat sign)
  else
    let lead := (Nat.log2 b.mantissa : Int) + b.exponent
    if lead < -1022 then
      .ofBits (UInt64.ofNat (sign + b.mantissa * twoPow (b.exponent - leastExponent).toNat))
    else
      let fraction := b.mantissa * twoPow (52 - Nat.log2 b.mantissa) % twoPow 52
      .ofBits (UInt64.ofNat (sign + (lead + 1023).toNat * twoPow 52 + fraction))

/-- The magnitude as a quotient of two naturals. -/
def Binary.quotient (b : Binary) : Nat × Nat :=
  if 0 ≤ b.exponent then (b.mantissa * twoPow b.exponent.toNat, 1)
  else (b.mantissa, twoPow (-b.exponent).toNat)

/-- The magnitude if it is a whole number. -/
def Binary.whole? (b : Binary) : Option Nat :=
  let (numerator, denominator) := b.quotient
  if numerator % denominator = 0 then some (numerator / denominator) else none

/-- The sign and magnitude of a double that is a whole number. -/
def whole? (x : Float) : Option (Bool × Nat) :=
  if x.isFinite then (split x).whole?.map ((split x).negative, ·) else none

end LoxScript.Number
