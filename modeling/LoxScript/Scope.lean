import LoxScript.Bindings
import LoxScript.Diagnostic
import LoxScript.Tree.Parser

/-!
Static scope resolution.

A walk over a program keeps a stack of scopes and marks every reference to a local binding with its
lexical distance, the number of scopes between the reference and the scope that binds the name. What
no scope of the stack binds is global and gets no distance. The walk also finds declarations that
repeat a name of their scope, reads of a variable in its own initializer, and `return`, `break`,
`continue` and `this` where they have no meaning; none of these stops it.
-/
namespace LoxScript

abbrev ResolvedExpr := Expr (Option Nat)

abbrev ResolvedStmt := Stmt (Option Nat)

abbrev ResolvedMethod := Method (Option Nat)

/-- The name of the method that runs when an instance is made. -/
def initializerName : String := "init"

/-- The name under which a method finds its receiver. -/
def receiverName : String := "this"

namespace Scope

/-- What is wrong with a statement or a reference. -/
inductive Cause where
  | alreadyDeclared
  | readInInitializer
  | breakOutsideLoop
  | continueOutsideLoop
  | returnOutsideFunction
  | valueFromInitializer
  | thisOutsideClass
deriving DecidableEq, Repr

def Cause.message : Cause → String
  | .alreadyDeclared => "Already a variable with this name in this scope."
  | .readInInitializer => "Can't read local variable in its own initializer."
  | .breakOutsideLoop => "Can't use 'break' outside of a loop."
  | .continueOutsideLoop => "Can't use 'continue' outside of a loop."
  | .returnOutsideFunction => "Can't return from top-level code."
  | .valueFromInitializer => "Can't return a value from an initializer."
  | .thisOutsideClass => "Can't use 'this' outside of a class."

/-- A fault and the token at which it stands. -/
structure Fault where
  token : Token
  cause : Cause
deriving DecidableEq

def Fault.diagnostic (f : Fault) : Diagnostic := ⟨.token f.token, f.cause.message⟩

/-- The kinds of functions that can enclose a statement. -/
inductive Role where
  | topLevel
  | function
  | method
  | initializer
deriving DecidableEq, Repr

inductive Form where
  | variable
  | assign
  | this
deriving DecidableEq, Repr

/-- A reference to a local binding: its form, its token and its distance. -/
structure Reference where
  form : Form
  token : Token
  distance : Nat
deriving DecidableEq

/-- The state of a walk. Scopes stand innermost first, and say of each name whether its
initializer has been passed; faults and references stand latest first. -/
structure Walk where
  scopes : List (Bindings Bool)
  role : Role
  inClass : Bool
  loops : Nat
  faults : List Fault
  references : List Reference

/-- The state before the first statement. -/
def Walk.start : Walk := ⟨[], .topLevel, false, 0, [], []⟩

end Scope

abbrev Resolve := StateM Scope.Walk

namespace Resolve
open Scope

def report (token : Token) (cause : Cause) : Resolve Unit :=
  modify fun w => { w with faults := ⟨token, cause⟩ :: w.faults }

/-- Runs a step inside a new scope with some names, all of them defined. -/
def inScope {α : Type} (names : Bindings Bool) (step : Resolve α) : Resolve α := do
  modify fun w => { w with scopes := names :: w.scopes }
  let a ← step
  modify fun w => { w with scopes := w.scopes.tail }
  return a

/-- Adds a name to the innermost scope, its initializer still ahead. Global names
are not tracked. -/
def declare (name : Token) : Resolve Unit := do
  match (← get).scopes with
  | [] => return
  | scope :: outer =>
    if scope.has name.lexeme then report name .alreadyDeclared
    modify fun w => { w with scopes := scope.set name.lexeme false :: outer }

/-- Marks a name of the innermost scope as defined. -/
def define (name : Token) : Resolve Unit :=
  modify fun w =>
    match w.scopes with
    | [] => w
    | scope :: outer => { w with scopes := scope.set name.lexeme true :: outer }

/-- The distance to the innermost scope that has a name. -/
def distance? (scopes : List (Bindings Bool)) (name : String) : Option Nat :=
  scopes.findIdx? (·.has name)

/-- Records a reference to a name, if some scope has it, and gives its distance. -/
def refer (form : Form) (token : Token) (name : String) : Resolve (Option Nat) := do
  match distance? (← get).scopes name with
  | none => return none
  | some distance => do
    modify fun w => { w with references := ⟨form, token, distance⟩ :: w.references }
    return some distance

def inLoop {α : Type} (step : Resolve α) : Resolve α := do
  modify fun w => { w with loops := w.loops + 1 }
  let a ← step
  modify fun w => { w with loops := w.loops - 1 }
  return a

/-- Runs a step inside a class, where its receiver is in scope. -/
def inClass {α : Type} (name : Token) (step : Resolve α) : Resolve α := do
  let enclosing := (← get).inClass
  modify fun w => { w with inClass := true }
  declare name
  define name
  let a ← inScope [(receiverName, true)] step
  modify fun w => { w with inClass := enclosing }
  return a

def declareAll : List Token → Resolve Unit
  | [] => return
  | name :: names => do
    declare name
    define name
    declareAll names

/-- Runs a step inside a function with parameters. Loops around the function do not
enclose its body. -/
def inFunction {α : Type} (role : Role) (params : List Token) (step : Resolve α) : Resolve α := do
  let enclosing ← get
  modify fun w => { w with role := role, loops := 0 }
  let a ← inScope [] do
    declareAll params
    step
  modify fun w => { w with role := enclosing.role, loops := enclosing.loops }
  return a

/-- Whether a name stands in the innermost scope with its initializer still ahead. -/
def isPending (scopes : List (Bindings Bool)) (name : String) : Bool :=
  match scopes with
  | [] => false
  | scope :: _ => scope.get? name == some false

/-- The role of a method with a given name. -/
def methodRole (name : String) : Role :=
  if name = initializerName then .initializer else .method

end Resolve

open Resolve Scope

mutual

/-- Marks the references of an expression. The value of an assignment comes before its target. -/
def Expr.resolve : RawExpr → Resolve ResolvedExpr
  | .literal value => return .literal value
  | .grouping inner => return .grouping (← inner.resolve)
  | .unary operator right => return .unary operator (← right.resolve)
  | .binary left operator right => return .binary (← left.resolve) operator (← right.resolve)
  | .logical left operator right => return .logical (← left.resolve) operator (← right.resolve)
  | .variable name _ => do
    if isPending (← get).scopes name.lexeme then report name .readInInitializer
    return .variable name (← refer .variable name name.lexeme)
  | .assign name operator value _ => do
    let value ← value.resolve
    return .assign name operator value (← refer .assign name name.lexeme)
  | .call callee paren arguments =>
    return .call (← callee.resolve) paren (← Expr.resolveAll arguments)
  | .get object name => return .get (← object.resolve) name
  | .set object name operator value => do
    let value ← value.resolve
    return .set (← object.resolve) name operator value
  | .this keyword _ => do
    if (← get).inClass then return .this keyword (← refer .this keyword receiverName)
    else
      report keyword .thisOutsideClass
      return .this keyword none
  | .function none params body => do
    let body ← inFunction .function params (Stmt.resolveAll body)
    return .function none params body
  | .function (some name) params body => do
    let body ← inScope [] do
      declare name
      define name
      inFunction .function params (Stmt.resolveAll body)
    return .function (some name) params body

/-- Marks the references of some expressions in order. -/
def Expr.resolveAll : List RawExpr → Resolve (List ResolvedExpr)
  | [] => return []
  | e :: es => return (← e.resolve) :: (← Expr.resolveAll es)

/-- Marks the references of a statement. A function and a class are defined before their bodies are
walked, so that these can refer to them. -/
def Stmt.resolve : RawStmt → Resolve ResolvedStmt
  | .expression value => return .expression (← value.resolve)
  | .print value => return .print (← value.resolve)
  | .varDecl name none => do
    declare name
    define name
    return .varDecl name none
  | .varDecl name (some value) => do
    declare name
    let value ← value.resolve
    define name
    return .varDecl name (some value)
  | .block body => return .block (← inScope [] (Stmt.resolveAll body))
  | .ifElse condition yes none => return .ifElse (← condition.resolve) (← yes.resolve) none
  | .ifElse condition yes (some no) =>
    return .ifElse (← condition.resolve) (← yes.resolve) (some (← no.resolve))
  | .loop condition body none =>
    return .loop (← condition.resolve) (← inLoop body.resolve) none
  | .loop condition body (some increment) =>
    return .loop (← condition.resolve) (← inLoop body.resolve) (some (← increment.resolve))
  | .breakLoop keyword => do
    if (← get).loops = 0 then report keyword .breakOutsideLoop
    return .breakLoop keyword
  | .continueLoop keyword => do
    if (← get).loops = 0 then report keyword .continueOutsideLoop
    return .continueLoop keyword
  | .returnFrom keyword none => do
    if (← get).role = .topLevel then report keyword .returnOutsideFunction
    return .returnFrom keyword none
  | .returnFrom keyword (some value) => do
    if (← get).role = .topLevel then report keyword .returnOutsideFunction
    if (← get).role = .initializer then report keyword .valueFromInitializer
    return .returnFrom keyword (some (← value.resolve))
  | .functionDecl name params body => do
    declare name
    define name
    let body ← inFunction .function params (Stmt.resolveAll body)
    return .functionDecl name params body
  | .classDecl name methods => do
    let methods ← inClass name (Method.resolveAll methods)
    return .classDecl name methods

/-- Marks the references of some statements in order. -/
def Stmt.resolveAll : List RawStmt → Resolve (List ResolvedStmt)
  | [] => return []
  | s :: ss => return (← s.resolve) :: (← Stmt.resolveAll ss)

def Method.resolve : RawMethod → Resolve ResolvedMethod
  | .mk name params body => do
    let body ← inFunction (methodRole name.lexeme) params (Stmt.resolveAll body)
    return .mk name params body

/-- Marks the references of some methods in order. -/
def Method.resolveAll : List RawMethod → Resolve (List ResolvedMethod)
  | [] => return []
  | m :: ms => return (← m.resolve) :: (← Method.resolveAll ms)

end

/-- A program with its references marked, the references to local bindings in the order of the
walk, and its static errors. -/
structure Resolution where
  program : List ResolvedStmt
  references : List Reference
  diagnostics : List Diagnostic

def resolve (program : List RawStmt) : Resolution :=
  let (program, walk) := (Stmt.resolveAll program).run .start
  ⟨program, walk.references.reverse, walk.faults.reverse.map (·.diagnostic)⟩

end LoxScript
