import LoxScript.Store

/-!
A running program: its store, its current environment, what it has printed, and how it can fail. A
failing step keeps what it did before it failed.
-/
namespace LoxScript

/-- The state of a run. What was printed stands latest first, and `asked` is the number of calls of
native functions so far. -/
structure Machine where
  store : Store
  environment : Environment
  output : List String
  asked : Nat
deriving Inhabited

/-- The environment of the globals, which is the root of all environments of a run. -/
def Environment.global : Environment := ⟨0, []⟩

namespace Machine

/-- The machine before the first statement, with some globals. -/
def start (globals : Bindings Value) : Machine :=
  let (e, s) := Store.empty.addEnvironment none globals
  ⟨s, e, [], 0⟩

def globals (m : Machine) : Bindings Value := m.store.frame Environment.global.frame

def printed (m : Machine) : String := String.join m.output.reverse

end Machine

abbrev Run := EStateM Failure Machine

/-- How a statement ends: control goes on, or leaves a loop or a function. -/
inductive Signal where
  | proceed
  | breakLoop
  | continueLoop
  | returnValue (v : Value)
deriving Inhabited

namespace Run

def ofExcept {α : Type} : Except Failure α → Run α
  | .ok a => pure a
  | .error e => throw e

def withStore {α : Type} (f : Store → α × Store) : Run α :=
  modifyGet fun m =>
    let (a, s) := f m.store
    (a, { m with store := s })

/-- Runs a step in an environment and goes back to the current one, however the step ends. -/
def inEnvironment {α : Type} (e : Environment) (step : Run α) : Run α := fun m =>
  match step { m with environment := e } with
  | .ok a m' => .ok a { m' with environment := m.environment }
  | .error failure m' => .error failure { m' with environment := m.environment }

def current : Run Environment := return (← get).environment

def newEnvironment (enclosing : Environment) (b : Bindings Value) : Run Environment :=
  withStore (·.addEnvironment (some enclosing) b)

def defineIn (a : Address) (name : String) (v : Value) : Run Unit :=
  modify fun m => { m with store := m.store.define a name v }

def define (name : String) (v : Value) : Run Unit := do
  defineIn (← current).frame name v

def print (line : String) : Run Unit :=
  modify fun m => { m with output := (line ++ "\n") :: m.output }

/-- Reads a name: at its distance if it is local, among the globals otherwise. -/
def lookUp (name : Token) (distance : Option Nat) : Run Value := do
  let m ← get
  match distance with
  | some d => ofExcept (m.store.getAt m.environment d name.lexeme)
  | none => ofExcept (m.store.get .global name)

/-- Writes a name: at its distance if it is local, among the globals otherwise. The frame is found
first and then written in, so that the store is not held twice while it changes. -/
def assign (name : Token) (distance : Option Nat) (v : Value) : Run Unit := do
  let m ← get
  let a ← ofExcept (match distance with
    | some d => m.environment.frameAt d
    | none => m.store.target .global name)
  defineIn a name.lexeme v

/-- A name is written in the store as the store writes names. -/
theorem assign_eq (name : Token) (distance : Option Nat) (v : Value) (m : Machine) :
    assign name distance v m =
      match (match distance with
        | some d => m.store.assignAt m.environment d name.lexeme v
        | none => m.store.assign .global name v) with
      | .ok s => .ok () { m with store := s }
      | .error failure => .error failure m := by
  have hget : (get : Run Machine) m = .ok m m := rfl
  simp only [assign, Store.assignAt, Store.assign, Bind.bind, EStateM.bind, hget]
  cases distance with
  | some d =>
    dsimp only
    cases m.environment.frameAt d <;> rfl
  | none =>
    dsimp only
    cases m.store.target .global name <;> rfl

def newClosure (name : Option String) (params : List Token) (body : List ResolvedStmt)
    (e : Environment) (isInitializer : Bool) : Run Closure := do
  let identity ← withStore Store.fresh
  return ⟨identity, name, params.map (·.lexeme), body, e, isInitializer⟩

/-- A method of a receiver: a copy of the method with an environment that binds the receiver. -/
def bind (method : Closure) (receiver : Value) : Run Closure := do
  let e ← newEnvironment method.environment [(receiverName, receiver)]
  let identity ← withStore Store.fresh
  return { method with identity := identity, environment := e }

/-- Reads a property: a field, or else a method of the class bound to the instance. -/
def getProperty (o : Object) (name : Token) : Run Value := do
  match ((← get).store.fields o).get? name.lexeme with
  | some v => return v
  | none =>
    match o.owner.methods.get? name.lexeme with
    | some method => return .function (← bind method (.object o))
    | none => throw (.fault name (.undefinedProperty name.lexeme))

/-- Writes a field. -/
def setField (o : Object) (name : String) (v : Value) : Run Unit :=
  modify fun m => { m with store := m.store.setField o name v }

/-- Makes the methods of a class in an environment. Of two methods with one name
the later counts. -/
def newMethods (e : Environment) : List ResolvedMethod → Bindings Closure → Run (Bindings Closure)
  | [], methods => return methods
  | method :: rest, methods => do
    let name := method.name.lexeme
    let closure ←
      newClosure (some name) method.params method.body e (name = initializerName)
    newMethods e rest (methods.set name closure)

/-- Repeats a body while a condition holds, for a number of turns at most. A turn that was cut
short by `continue` still makes the increment. -/
def loop (condition : Run Bool) (body : Run Signal) (increment : Run Unit) : Nat → Run Signal
  | 0 => throw .endless
  | turns + 1 => do
    if ← condition then
      match ← body with
      | .breakLoop => return .proceed
      | .returnValue v => return .returnValue v
      | _ => do
        increment
        loop condition body increment turns
    else return .proceed

end Run
end LoxScript
