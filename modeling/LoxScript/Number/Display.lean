import LoxScript.Number.Shortest

/-!
Numbers as text: the digits that identify a double, a display form that writes moderate whole
numbers without a point, and the exact digits of a whole number.
-/
namespace LoxScript.Number

/-- The significant digits of a decimal, without trailing zeros, and the place of the point counted
from before the first of them. -/
def Decimal.digits (d : Decimal) : List Char × Int :=
  let all := Nat.toDigits 10 d.coefficient
  let kept := (all.reverse.dropWhile (· = '0')).reverse
  (kept, (all.length : Int) + d.exponent)

/-- Which places of the point are written without an exponent: above `low` and at most `high`. -/
structure Layout where
  low : Int
  high : Int
  exponentWidth : Nat

/-- Numbers from `10 ^ -4` up to `10 ^ 16` are positional; an exponent has a sign and two digits. -/
def standardLayout : Layout := ⟨-4, 16, 2⟩

/-- An exponent with its sign, padded with zeros. -/
def exponentText (width : Nat) (e : Int) : List Char :=
  let digits := Nat.toDigits 10 e.natAbs
  (if e < 0 then '-' else '+') :: List.replicate (width - digits.length) '0' ++ digits

/-- Digits with the point at a place in front of, inside or behind them. At least one digit stands
on each side of the point. -/
def positional (digits : List Char) (place : Int) : List Char :=
  if place ≤ 0 then '0' :: '.' :: List.replicate (-place).toNat '0' ++ digits
  else
    let before := digits.take place.toNat
    let after := digits.drop place.toNat
    before ++ List.replicate (place.toNat - before.length) '0' ++
      '.' :: (if after.isEmpty then ['0'] else after)

/-- One digit, the others after a point, and an exponent. -/
def scientific (width : Nat) (digits : List Char) (place : Int) : List Char :=
  digits.take 1 ++ (if digits.length ≤ 1 then [] else '.' :: digits.drop 1) ++
    'e' :: exponentText width (place - 1)

/-- Digits in the notation that suits the place of the point. -/
def Layout.write (layout : Layout) (digits : List Char) (place : Int) : List Char :=
  if layout.low < place ∧ place ≤ layout.high then positional digits place
  else scientific layout.exponentWidth digits place

/-- A minus sign in front of a negative number. -/
def signed (negative : Bool) (digits : List Char) : List Char :=
  if negative then '-' :: digits else digits

/-- The text that identifies a double: the fewest digits that read back as it. -/
def identify (x : Float) : String :=
  if x.isNaN then "nan"
  else
    let b := split x
    if x.isInf then (if b.negative then "-inf" else "inf")
    else if b.mantissa = 0 then .ofList (signed b.negative ['0', '.', '0'])
    else
      let (digits, place) := b.shortest.digits
      .ofList (signed b.negative (standardLayout.write digits place))

/-- A whole number in full digits. Zero has no sign. -/
def wholeText (negative : Bool) (magnitude : Nat) : String :=
  .ofList (signed (negative && magnitude != 0) (Nat.toDigits 10 magnitude))

/-- A whole number in full digits, any other number by the digits that identify it. -/
def exact (x : Float) : String :=
  match whole? x with
  | some (negative, magnitude) => wholeText negative magnitude
  | none => identify x

/-- Whole numbers from here on are displayed with an exponent. -/
def displayLimit : Nat := tenPow 16

/-- The display form: a whole number below the limit has no point. -/
def display (x : Float) : String :=
  match whole? x with
  | some (negative, magnitude) =>
    if magnitude < displayLimit then wholeText negative magnitude else identify x
  | none => identify x

end LoxScript.Number
