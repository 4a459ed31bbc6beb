import LoxScript.Failure
import LoxScript.Number.Arithmetic
import LoxScript.Value

/-!
The binary operators on values. The operator that is applied and the token at which a fault is
placed differ for compound assignments.
-/
namespace LoxScript.Value

/-- A sum of numbers, or a text joined to the display form of the other operand. -/
def plus (token : Token) (left right : Value) : Except Failure Value :=
  if left.isText || right.isText then .ok (.text (left.display ++ right.display))
  else
    match left, right with
    | .number x, .number y => .ok (.number (x + y))
    | _, _ => .error (.fault token .numberOrTextOperands)

def arithmetic (token : Token) (operator : Kind) (x y : Float) : Except Failure Value :=
  match operator with
  | .minus => .ok (.number (x - y))
  | .star => .ok (.number (x * y))
  | .slash =>
    if y == 0 then .error (.fault token .divisionByZero) else .ok (.number (x / y))
  | .percent =>
    if y == 0 then .error (.fault token .divisionByZero)
    else
      match Number.remainder? x y with
      | some z => .ok (.number z)
      | none => .error .infiniteRemainder
  | .hat =>
    match Number.power? x y with
    | some z => .ok (.number z)
    | none => .error (.fault token .notReal)
  | .greater => .ok (.bool (y < x))
  | .greaterEqual => .ok (.bool (y ≤ x))
  | .less => .ok (.bool (x < y))
  | .lessEqual => .ok (.bool (x ≤ y))
  | _ => .error (.fault token (.unknownOperator token.lexeme))

def apply (token : Token) (operator : Kind) (left right : Value) : Except Failure Value :=
  match operator with
  | .equalEqual => .ok (.bool (left.equal right))
  | .bangEqual => .ok (.bool (!left.equal right))
  | .plus => plus token left right
  | operator =>
    match left, right with
    | .number x, .number y => arithmetic token operator x y
    | _, _ => .error (.fault token .numberOperands)

def negate (token : Token) : Value → Except Failure Value
  | .number x => .ok (.number (-x))
  | _ => .error (.fault token .numberOperand)

end LoxScript.Value
