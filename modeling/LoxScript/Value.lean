import LoxScript.Scope
import LoxScript.Number.Display

/-!
The values of a running program.

Numbers, texts, booleans and nil are equal by content; functions, classes and instances are equal
only to themselves and carry an identity for that. Variables live in frames: an environment is the
chain of the addresses of its frames, the innermost first.
-/
namespace LoxScript

/-- The place of a frame in the store. -/
abbrev Address := Nat

/-- A chain of frames, from the innermost outward. It is never empty. -/
structure Environment where
  frame : Address
  enclosing : List Address
deriving DecidableEq, Repr, Inhabited

namespace Environment

/-- The addresses of a chain, from the innermost outward. -/
def chain (e : Environment) : List Address := e.frame :: e.enclosing

/-- The frame a number of links up the chain. -/
def ancestor? (e : Environment) (distance : Nat) : Option Address := e.chain[distance]?

/-- How many frames enclose the innermost one. -/
def depth (e : Environment) : Nat := e.enclosing.length

/-- The chain with a further innermost frame. -/
def inner (e : Environment) (frame : Address) : Environment := ⟨frame, e.chain⟩

end Environment

/-- A function with the environment in which it was made. -/
structure Closure where
  identity : Nat
  name : Option String
  params : List String
  body : List ResolvedStmt
  environment : Environment
  isInitializer : Bool

/-- A class: its methods are not bound to a receiver. -/
structure Class where
  identity : Nat
  name : String
  methods : Bindings Closure

/-- An instance of a class. Its fields are in the store. -/
structure Object where
  identity : Nat
  owner : Class

/-- A function that the host provides. -/
structure Native where
  name : String
  arity : Nat
deriving DecidableEq, Repr

inductive Value where
  | nil
  | bool (b : Bool)
  | number (x : Float)
  | text (s : String)
  | native (n : Native)
  | function (f : Closure)
  | klass (c : Class)
  | object (o : Object)
deriving Inhabited

def Literal.value : Literal → Value
  | .nil => .nil
  | .bool b => .bool b
  | .number x => .number x
  | .text s => .text s

namespace Value

/-- The form in which a value is printed and joined to a text. -/
def display : Value → String
  | nil => "nil"
  | bool true => "true"
  | bool false => "false"
  | number x => Number.display x
  | text s => s
  | native _ => "<native fn>"
  | function f =>
    match f.name with
    | some name => "<fn " ++ name ++ ">"
    | none => "<fn>"
  | klass c => "<class " ++ c.name ++ ">"
  | object o => "<instance of " ++ o.owner.name ++ ">"

/-- Nil, false and zero count as false, everything else as true. -/
def truthy : Value → Bool
  | nil => false
  | bool b => b
  | number x => x != 0
  | _ => true

def isText : Value → Bool
  | text _ => true
  | _ => false

/-- Values of different kinds are never equal. -/
def equal : Value → Value → Bool
  | nil, nil => true
  | bool a, bool b => a == b
  | number x, number y => x == y
  | text s, text t => s == t
  | native m, native n => m == n
  | function f, function g => f.identity == g.identity
  | klass c, klass d => c.identity == d.identity
  | object o, object p => o.identity == p.identity
  | _, _ => false

/-- The number of arguments that a value takes, if it can be called. A class takes those
of its initializer. -/
def arity? : Value → Option Nat
  | native n => some n.arity
  | function f => some f.params.length
  | klass c => some (((c.methods.get? initializerName).map (·.params.length)).getD 0)
  | _ => none

end Value
end LoxScript
