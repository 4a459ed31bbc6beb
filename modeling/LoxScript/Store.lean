import LoxScript.Failure
import LoxScript.Value

/-!
Where the variables of environments and the fields of instances are kept. Frames and instances are
never removed, so an address stays good for as long as something holds it.
-/
namespace LoxScript

/-- The contents of all frames, the fields of all instances, and the number of identities given to
functions and classes. -/
structure Store where
  frames : Array (Bindings Value)
  objects : Array (Bindings Value)
  identities : Nat
deriving Inhabited

/-- The frame a number of links up the chain, which has to be that long. -/
def Environment.frameAt (e : Environment) (distance : Nat) : Except Failure Address :=
  match e.ancestor? distance with
  | some a => .ok a
  | none => .error .noFrame

namespace Store

def empty : Store := ⟨#[], #[], 0⟩

def frame (s : Store) (a : Address) : Bindings Value := s.frames[a]?.getD []

def fields (s : Store) (o : Object) : Bindings Value := s.objects[o.identity]?.getD []

def addFrame (s : Store) (b : Bindings Value) : Address × Store :=
  (s.frames.size, { s with frames := s.frames.push b })

/-- Adds an environment with some bindings, inside another one if one is given. -/
def addEnvironment (s : Store) (enclosing : Option Environment) (b : Bindings Value) :
    Environment × Store :=
  let (a, s) := s.addFrame b
  (match enclosing with
    | some e => e.inner a
    | none => ⟨a, []⟩, s)

/-- Binds a name in a frame, over an earlier binding if there is one. -/
def define (s : Store) (a : Address) (name : String) (v : Value) : Store :=
  { s with frames := s.frames.modify a (·.set name v) }

/-- Reads a name in the innermost frame only, as is done for globals. -/
def get (s : Store) (e : Environment) (name : Token) : Except Failure Value :=
  match (s.frame e.frame).get? name.lexeme with
  | some v => .ok v
  | none => .error (.fault name (.undefinedVariable name.lexeme))

/-- The frame in which a global name is written, which has to bind it already. -/
def target (s : Store) (e : Environment) (name : Token) : Except Failure Address :=
  if (s.frame e.frame).has name.lexeme then .ok e.frame
  else .error (.fault name (.undefinedVariable name.lexeme))

/-- Writes a name that the innermost frame binds, as is done for globals. -/
def assign (s : Store) (e : Environment) (name : Token) (v : Value) : Except Failure Store :=
  (s.target e name).map (s.define · name.lexeme v)

/-- Reads a name in the frame at a distance. -/
def getAt (s : Store) (e : Environment) (distance : Nat) (name : String) : Except Failure Value :=
  match e.frameAt distance with
  | .error failure => .error failure
  | .ok a =>
    match (s.frame a).get? name with
    | some v => .ok v
    | none => .error (.unbound name)

/-- Writes a name in the frame at a distance, whether the frame binds it or not. -/
def assignAt (s : Store) (e : Environment) (distance : Nat) (name : String) (v : Value) :
    Except Failure Store :=
  (e.frameAt distance).map (s.define · name v)

def addObject (s : Store) (owner : Class) : Object × Store :=
  (⟨s.objects.size, owner⟩, { s with objects := s.objects.push [] })

/-- Writes a field, which may be new. -/
def setField (s : Store) (o : Object) (name : String) (v : Value) : Store :=
  { s with objects := s.objects.modify o.identity (·.set name v) }

/-- An environment as listings show it: its depth and the names of its innermost frame. -/
def describe (s : Store) (e : Environment) : String :=
  let names := (s.frame e.frame).sorted.map fun (name, _) => Text.quoted name
  "Environment(depth=" ++ toString e.depth ++ ", names=[" ++ ", ".intercalate names ++ "])"

def fresh (s : Store) : Nat × Store := (s.identities, { s with identities := s.identities + 1 })

end Store
end LoxScript
