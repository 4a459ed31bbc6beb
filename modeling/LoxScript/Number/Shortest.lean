import LoxScript.Number.Binary

/-!
The fewest decimal digits that read back as a given double, and of those the nearest to it.

Every real in an interval around `mantissa * 2 ^ exponent` rounds to that double; its ends, which
are the midpoints to the two neighbours, belong to it when the mantissa is even. For each number
of digits the two decimals next to the double are tried, and the first number of digits with a
decimal in the interval wins.
-/
namespace LoxScript.Number

/-- The decimal `coefficient * 10 ^ exponent`. -/
structure Decimal where
  coefficient : Nat
  exponent : Int
deriving DecidableEq, Repr

/-- `numerator / denominator * 2 ^ e` as a quotient. -/
def timesTwoPow (q : Nat × Nat) (e : Int) : Nat × Nat :=
  if 0 ≤ e then (q.1 * twoPow e.toNat, q.2) else (q.1, q.2 * twoPow (-e).toNat)

/-- `numerator / denominator * 10 ^ e` as a quotient. -/
def timesTenPow (q : Nat × Nat) (e : Int) : Nat × Nat :=
  if 0 ≤ e then (q.1 * tenPow e.toNat, q.2) else (q.1, q.2 * tenPow (-e).toNat)

/-- Whether `p ≤ q` for two quotients with positive denominators. -/
def quotientLe (p q : Nat × Nat) : Bool := p.1 * q.2 ≤ q.1 * p.2

/-- Whether `p < q` for two quotients with positive denominators. -/
def quotientLt (p q : Nat × Nat) : Bool := p.1 * q.2 < q.1 * p.2

/-- The midpoint to the next smaller double. Below a power of two doubles lie twice as dense. -/
def Binary.lower (b : Binary) : Nat × Nat :=
  if b.mantissa = twoPow 52 ∧ leastExponent < b.exponent then
    timesTwoPow (4 * b.mantissa - 1, 1) (b.exponent - 2)
  else timesTwoPow (2 * b.mantissa - 1, 1) (b.exponent - 1)

/-- The midpoint to the next larger double. -/
def Binary.upper (b : Binary) : Nat × Nat :=
  timesTwoPow (2 * b.mantissa + 1, 1) (b.exponent - 1)

/-- Whether a decimal rounds to the double with parts `b`. -/
def Binary.readsBack (b : Binary) (d : Decimal) : Bool :=
  let value := timesTenPow (d.coefficient, 1) d.exponent
  if b.mantissa % 2 = 0 then quotientLe b.lower value && quotientLe value b.upper
  else quotientLt b.lower value && quotientLt value b.upper

/-- Decimal places that bring every positive double above one. -/
def widestShift : Nat := 350

/-- The place of the first significant digit: `p` with `10 ^ (p - 1) ≤ value < 10 ^ p`. -/
def Binary.place (b : Binary) : Int :=
  let whole := b.quotient.1 / b.quotient.2
  if 0 < whole then (Nat.toDigits 10 whole).length
  else
    let scaled := timesTenPow b.quotient widestShift
    ((Nat.toDigits 10 (scaled.1 / scaled.2)).length : Int) - widestShift

/-- The decimal next to the double, with its last digit at `10 ^ exponent`, that reads back as it:
the nearer one if both neighbours do, and the even one if they are equally near. -/
def Binary.nearest? (b : Binary) (exponent : Int) : Option Decimal :=
  let scaled := timesTenPow b.quotient (-exponent)
  let below : Decimal := ⟨scaled.1 / scaled.2, exponent⟩
  let above : Decimal := ⟨scaled.1 / scaled.2 + 1, exponent⟩
  let twice := 2 * (scaled.1 % scaled.2)
  let belowFirst := twice < scaled.2 ∨ (twice = scaled.2 ∧ below.coefficient % 2 = 0)
  match b.readsBack below, b.readsBack above with
  | true, true => some (if belowFirst then below else above)
  | true, false => some below
  | false, true => some above
  | false, false => none

/-- Seventeen digits tell all doubles apart. -/
def mostDigits : Nat := 17

/-- The decimal with the fewest digits that reads back as a positive double. -/
def Binary.shortest (b : Binary) : Decimal :=
  let place := b.place
  ((List.range mostDigits).findSome? fun n : Nat => b.nearest? (place - n - 1)).getD
    ⟨b.mantissa, b.exponent⟩

end LoxScript.Number
