import LoxScript.Token
import LoxScript.Number.Display
import LoxScript.Text.Quoted

/-!
Token listings: one token as a line of text that shows its kind, lexeme, literal and line.
-/
namespace LoxScript

def Literal.describe : Literal → String
  | .nil => "None"
  | .bool true => "True"
  | .bool false => "False"
  | .number x => Number.identify x
  | .text s => Text.quoted s

def Token.describe (t : Token) : String :=
  "Token(" ++ t.kind.name ++ ", '" ++ t.lexeme ++ "', " ++ t.literal.describe ++
    ", line=" ++ toString t.line ++ ")"

end LoxScript
