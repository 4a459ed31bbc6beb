import LoxScript.Token

/-!
Syntax trees. A tree is written over a type of reference marks, which every expression that refers
to a binding carries: a parsed tree has none, and scope resolution replaces them with lexical
distances.
-/
namespace LoxScript

mutual

inductive Expr (ρ : Type) where
  | literal (value : Literal)
  | grouping (inner : Expr ρ)
  | unary (operator : Token) (right : Expr ρ)
  /-- Arithmetic, comparison, equality, and the comma. -/
  | binary (left : Expr ρ) (operator : Token) (right : Expr ρ)
  /-- The operators that may leave out their right operand. -/
  | logical (left : Expr ρ) (operator : Token) (right : Expr ρ)
  | variable (name : Token) (mark : ρ)
  /-- Assignment to a name, with an operator if it is a compound one. -/
  | assign (name : Token) (operator : Option Token) (value : Expr ρ) (mark : ρ)
  /-- A call; errors are placed at the closing parenthesis. -/
  | call (callee : Expr ρ) (paren : Token) (arguments : List (Expr ρ))
  | get (object : Expr ρ) (name : Token)
  /-- Assignment to a field, with an operator if it is a compound one. -/
  | set (object : Expr ρ) (name : Token) (operator : Option Token) (value : Expr ρ)
  | this (keyword : Token) (mark : ρ)
  /-- A function literal, which may have a name of its own. -/
  | function (name : Option Token) (params : List Token) (body : List (Stmt ρ))

inductive Stmt (ρ : Type) where
  | expression (value : Expr ρ)
  | print (value : Expr ρ)
  | varDecl (name : Token) (initializer : Option (Expr ρ))
  | block (body : List (Stmt ρ))
  | ifElse (condition : Expr ρ) (yes : Stmt ρ) (no : Option (Stmt ρ))
  /-- A loop; the increment runs after every round, also after one that was cut short. -/
  | loop (condition : Expr ρ) (body : Stmt ρ) (increment : Option (Expr ρ))
  | breakLoop (keyword : Token)
  | continueLoop (keyword : Token)
  | returnFrom (keyword : Token) (value : Option (Expr ρ))
  | functionDecl (name : Token) (params : List Token) (body : List (Stmt ρ))
  | classDecl (name : Token) (methods : List (Method ρ))

inductive Method (ρ : Type) where
  | mk (name : Token) (params : List Token) (body : List (Stmt ρ))

end

namespace Method

def name {ρ : Type} : Method ρ → Token
  | mk name _ _ => name

def params {ρ : Type} : Method ρ → List Token
  | mk _ params _ => params

def body {ρ : Type} : Method ρ → List (Stmt ρ)
  | mk _ _ body => body

end Method

/-- A statement that binds a name in the scope in which it stands. -/
def Stmt.declared? {ρ : Type} : Stmt ρ → Option Token
  | .varDecl name _ => some name
  | .functionDecl name _ _ => some name
  | .classDecl name _ => some name
  | _ => none

end LoxScript
