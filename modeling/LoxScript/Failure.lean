import LoxScript.Text.Quoted
import LoxScript.Token

/-!
How a run can fail. A fault of the program is reported at a token; the other failures are not part
of the language and end the run from outside.
-/
namespace LoxScript

inductive Fault where
  | undefinedVariable (name : String)
  | undefinedProperty (name : String)
  | notCallable
  | wrongCount (expected given : Nat)
  | noProperties
  | noFields
  | numberOrTextOperands
  | numberOperand
  | numberOperands
  | divisionByZero
  | notReal
  | unknownOperator (lexeme : String)
deriving DecidableEq, Repr

def Fault.message : Fault → String
  | .undefinedVariable name => "Undefined variable '" ++ name ++ "'."
  | .undefinedProperty name => "Undefined property '" ++ name ++ "'."
  | .notCallable => "Can only call functions and classes."
  | .wrongCount expected given =>
    "Expected " ++ toString expected ++ " arguments but got " ++ toString given ++ "."
  | .noProperties => "Only instances have properties."
  | .noFields => "Only instances have fields."
  | .numberOrTextOperands => "Operands must be two numbers or at least one string."
  | .numberOperand => "Operand must be a number."
  | .numberOperands => "Operands must be numbers."
  | .divisionByZero => "Division by zero."
  | .notReal => "Exponentiation result is not a real number."
  | .unknownOperator lexeme => "Unknown operator '" ++ lexeme ++ "'."

/-- The ways in which a run ends early. -/
inductive Failure where
  /-- A fault of the program, at a token. -/
  | fault (token : Token) (cause : Fault)
  /-- A name was looked up where it has no binding: a local one before it was bound, or a sign
  that stands for no operator. -/
  | unbound (name : String)
  /-- A distance leads out of the environment. -/
  | noFrame
  /-- The remainder of an infinite number was taken. -/
  | infiniteRemainder
  /-- Calls are nested too deeply. -/
  | tooDeep
  /-- A loop took more turns than the run allows. -/
  | endless
deriving DecidableEq

end LoxScript
