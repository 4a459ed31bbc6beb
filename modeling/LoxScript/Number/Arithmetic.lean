import LoxScript.Number.Binary

/-!
Remainder and power of doubles, with the operands for which they have no value.
-/
namespace LoxScript.Number

/-- The remainder of the division that rounds toward zero, exact and with the sign of the
dividend, for finite operands and a divisor that is not zero. -/
def remainderParts (a b : Binary) : Binary :=
  let exponent := min a.exponent b.exponent
  let dividend := a.mantissa * twoPow (a.exponent - exponent).toNat
  let divisor := b.mantissa * twoPow (b.exponent - exponent).toNat
  ⟨a.negative, dividend % divisor, exponent⟩

/-- The remainder of `x` by a divisor `y` that is not zero. An infinite dividend has none, unless
the divisor is not a number; an infinite divisor leaves the dividend as it is. -/
def remainder? (x y : Float) : Option Float :=
  if x.isNaN then some x
  else if y.isNaN then some y
  else if x.isInf then none
  else if y.isInf then some x
  else some (join (remainderParts (split x) (split y)))

/-- `x` to the power `y`. Of finite operands it has no value where the result is not finite: an
even root of a negative number, a negative power of zero, or a result that is too large. -/
def power? (x y : Float) : Option Float :=
  let result := Float.pow x y
  if x.isFinite && y.isFinite && !result.isFinite then none else some result

/-- The double nearest to a decimal with the given whole and fractional digits. -/
def ofDigits (whole fraction : List Char) : Float :=
  let coefficient := (whole ++ fraction).foldl (fun n c => 10 * n + (c.toNat - '0'.toNat)) 0
  .ofScientific coefficient true fraction.length

end LoxScript.Number
