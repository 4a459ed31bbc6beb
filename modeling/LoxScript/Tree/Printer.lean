import LoxScript.Tree
import LoxScript.Number.Display

/-!
The parenthesised form of a tree: an operator or a form's name, then its parts, in parentheses.
Whole numbers are written in full digits.
-/
namespace LoxScript

def Literal.printed : Literal → String
  | .nil => "nil"
  | .bool true => "true"
  | .bool false => "false"
  | .number x => Number.exact x
  | .text s => "\"" ++ s ++ "\""

/-- A head and the parts behind it, in parentheses. -/
def parenthesized (head : String) (parts : List String) : String :=
  "(" ++ head ++ String.join (parts.map (" " ++ ·)) ++ ")"

/-- The head of a function: its name, if any, and its parameters. -/
def functionHead (name : Option Token) (params : List Token) : String :=
  let first := match name with
    | some name => "fun " ++ name.lexeme
    | none => "fun"
  first ++ " (" ++ " ".intercalate (params.map (·.lexeme)) ++ ")"

/-- The sign of an assignment: its operator, or a plain equals sign. -/
def assignmentSign (operator : Option Token) : String :=
  match operator with
  | some operator => operator.lexeme
  | none => "="

mutual

def Expr.printed {ρ : Type} : Expr ρ → String
  | .literal value => value.printed
  | .grouping inner => parenthesized "group" [inner.printed]
  | .unary operator right => parenthesized operator.lexeme [right.printed]
  | .binary left operator right => parenthesized operator.lexeme [left.printed, right.printed]
  | .logical left operator right => parenthesized operator.lexeme [left.printed, right.printed]
  | .variable name _ => name.lexeme
  | .assign name operator value _ =>
    parenthesized (assignmentSign operator ++ " " ++ name.lexeme) [value.printed]
  | .call callee _ arguments => parenthesized "call" (callee.printed :: Expr.allPrinted arguments)
  | .get object name => parenthesized (". " ++ name.lexeme) [object.printed]
  | .set object name operator value =>
    parenthesized (assignmentSign operator ++ " ." ++ name.lexeme) [object.printed, value.printed]
  | .this _ _ => "this"
  | .function name params body => parenthesized (functionHead name params) (Stmt.allPrinted body)

def Expr.allPrinted {ρ : Type} : List (Expr ρ) → List String
  | [] => []
  | e :: es => e.printed :: Expr.allPrinted es

def Stmt.printed {ρ : Type} : Stmt ρ → String
  | .expression value => parenthesized ";" [value.printed]
  | .print value => parenthesized "print" [value.printed]
  | .varDecl name none => parenthesized ("var " ++ name.lexeme) []
  | .varDecl name (some value) => parenthesized ("var " ++ name.lexeme) [value.printed]
  | .block body => parenthesized "block" (Stmt.allPrinted body)
  | .ifElse condition yes none => parenthesized "if" [condition.printed, yes.printed]
  | .ifElse condition yes (some no) =>
    parenthesized "if-else" [condition.printed, yes.printed, no.printed]
  | .loop condition body none => parenthesized "while" [condition.printed, body.printed]
  | .loop condition body (some increment) =>
    parenthesized "for" [condition.printed, increment.printed, body.printed]
  | .breakLoop _ => parenthesized "break" []
  | .continueLoop _ => parenthesized "continue" []
  | .returnFrom _ none => parenthesized "return" []
  | .returnFrom _ (some value) => parenthesized "return" [value.printed]
  | .functionDecl name params body =>
    parenthesized (functionHead (some name) params) (Stmt.allPrinted body)
  | .classDecl name methods =>
    parenthesized ("class " ++ name.lexeme) (Method.allPrinted methods)

def Stmt.allPrinted {ρ : Type} : List (Stmt ρ) → List String
  | [] => []
  | s :: ss => s.printed :: Stmt.allPrinted ss

def Method.printed {ρ : Type} : Method ρ → String
  | .mk name params body =>
    parenthesized (functionHead (some name) params) (Stmt.allPrinted body)

def Method.allPrinted {ρ : Type} : List (Method ρ) → List String
  | [] => []
  | m :: ms => m.printed :: Method.allPrinted ms

end

/-- A program in printed form, one statement a line. -/
def printProgram {ρ : Type} (program : List (Stmt ρ)) : String :=
  "\n".intercalate (Stmt.allPrinted program)

end LoxScript
