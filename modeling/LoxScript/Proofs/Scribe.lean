import LoxScript.Proofs.Trace

/-!
Runs that also write down where values go.

A scribe follows a traced run. Besides the visits, it writes down the values of expressions, the
names that come to have a value, calls and their results, and what becomes of methods: that they
are made, that they are bound to receivers, and the activations of the functions that come from
that.
-/
namespace LoxScript

inductive Event where
  /-- An expression had a value, some time after the run came to it. -/
  | evaluated (visit : Visit) (v : Value)
  /-- A declaration or an assignment gave a name a value. -/
  | wrote (name : String) (v : Value)
  | called (callee : Value) (arguments : List Value)
  /-- A function was made as a method of a class. -/
  | method (f : Closure)
  | declared (c : Class)
  | bound (method : Closure) (receiver : Object) (f : Closure)
  /-- A call of a function went into an environment of its own. -/
  | entered (f : Closure) (e : Environment)
  | returned (f : Closure) (v : Value)
  /-- A call of a class gave a value, starting from a store. -/
  | constructed (before : Store) (c : Class) (v : Value)

/-- The state of a traced run with what was written down, latest first. -/
structure Scribe extends Tracer where
  events : List Event

abbrev Scribed := EStateM Failure Scribe

namespace Scribed
variable {α : Type}

def lift (step : Traced α) : Scribed α := fun s =>
  match step s.toTracer with
  | .ok a t => .ok a { s with toTracer := t }
  | .error failure t => .error failure { s with toTracer := t }

def note (event : Event) : Scribed Unit :=
  modify fun s => { s with events := event :: s.events }

/-- Writes down what a step gave. -/
def noting (event : α → Event) (step : Scribed α) : Scribed α := do
  let a ← step
  note (event a)
  return a

def visiting (p : Path) (n : Node (Option Nat)) (step : Scribed α) : Scribed α := do
  lift (Traced.visiting p n (return ()))
  step

/-- Comes to an expression, and writes down its value. -/
def evaluating (p : Path) (e : ResolvedExpr) (step : Scribed Value) : Scribed Value := do
  let m := (← get).toMoment
  noting (.evaluated ⟨m, p, .expr e⟩) (visiting p (.expr e) step)

/-- A step that gives a name a value. -/
def writing (name : String) (v : Value) (step : Run Unit) : Scribed Unit :=
  noting (fun _ => .wrote name v) (lift (Traced.lift step))

def inEnvironment (e : Environment) (step : Scribed α) : Scribed α := fun s =>
  match step { s with machine := { s.machine with environment := e } } with
  | .ok a s' => .ok a { s' with machine := { s'.machine with environment := s.machine.environment } }
  | .error failure s' =>
    .error failure { s' with machine := { s'.machine with environment := s.machine.environment } }

def bind (method : Closure) (o : Object) : Scribed Closure :=
  noting (.bound method o) (lift (Traced.bind method (.object o)))

def getProperty (o : Object) (name : Token) : Scribed Value := do
  match ((← get).machine.store.fields o).get? name.lexeme with
  | some v => return v
  | none =>
    match o.owner.methods.get? name.lexeme with
    | some method => return .function (← bind method o)
    | none => throw (.fault name (.undefinedProperty name.lexeme))

def newMethod (p : Path) (e : Environment) (m : ResolvedMethod) : Scribed Closure :=
  noting .method (lift (Traced.newClosure p (some m.name.lexeme) m.params m.body e
    (m.name.lexeme = initializerName)))

/-- Makes the methods of a class, the first of them being child `i` of the class. -/
def newMethods (p : Path) (e : Environment) :
    Nat → List ResolvedMethod → Bindings Closure → Scribed (Bindings Closure)
  | _, [], methods => return methods
  | i, m :: rest, methods => do
    let f ← newMethod (i :: p) e m
    newMethods p e (i + 1) rest (methods.set m.name.lexeme f)

def newClass (name : String) (methods : Bindings Closure) : Scribed Class :=
  noting .declared do
    let identity ← lift (Traced.lift (Run.withStore Store.fresh))
    return ⟨identity, name, methods⟩

def loop (condition : Scribed Bool) (body : Scribed Signal) (increment : Scribed Unit) :
    Nat → Scribed Signal
  | 0 => throw .endless
  | turns + 1 => do
    if ← condition then
      match ← body with
      | .breakLoop => return .proceed
      | .returnValue v => return .returnValue v
      | _ => do
        increment
        loop condition body increment turns
    else return .proceed

def callAt (invoke : Value → List Value → Scribed Value) (paren : Token) (callee : Value)
    (arguments : List Value) : Scribed Value :=
  match callee.arity? with
  | none => throw (.fault paren .notCallable)
  | some arity =>
    if arguments.length = arity then do
      note (.called callee arguments)
      invoke callee arguments
    else throw (.fault paren (.wrongCount arity arguments.length))

def assigned (operator : Option Token) (current value : Scribed Value) : Scribed Value :=
  match operator with
  | none => value
  | some sign => do
    let left ← current
    let kind ← lift (Traced.lift (Run.ofExcept (underlying sign)))
    let right ← value
    lift (Traced.apply sign kind left right)

/-- The environment of a call of a function. -/
def enter (p : Path) (f : Closure) (arguments : List Value) : Scribed Environment :=
  noting (.entered f) (lift (Traced.newEnvironment (.body p f.params f.body) f.environment
    (bindParams f.params arguments)))

end Scribed

section Meaning

variable (turns : Nat) (invoke : Value → List Value → Scribed Value)

mutual

def Expr.scribe : Path → ResolvedExpr → Scribed Value
  | p, e@(.literal value) => Scribed.evaluating p e do return value.value
  | p, e@(.grouping inner) => Scribed.evaluating p e do inner.scribe (0 :: p)
  | p, e@(.unary operator right) => Scribed.evaluating p e do
    let v ← right.scribe (0 :: p)
    if operator.kind = .minus then
      Scribed.lift (Traced.lift (Run.ofExcept (v.negate operator)))
    else return .bool (!v.truthy)
  | p, e@(.binary left operator right) => Scribed.evaluating p e do
    let a ← left.scribe (0 :: p)
    let b ← right.scribe (1 :: p)
    if operator.kind = .comma then return b
    else Scribed.lift (Traced.apply operator operator.kind a b)
  | p, e@(.logical left operator right) => Scribed.evaluating p e do
    let a ← left.scribe (0 :: p)
    if a.truthy == (operator.kind == .kwOr) then return a else right.scribe (1 :: p)
  | p, e@(.variable name distance) => Scribed.evaluating p e do
    Scribed.lift (Traced.lift (Run.lookUp name distance))
  | p, e@(.assign name operator value distance) => Scribed.evaluating p e do
    let v ← Scribed.assigned operator (Scribed.lift (Traced.lift (Run.lookUp name distance)))
      (value.scribe (0 :: p))
    Scribed.visiting p (.expr e) (Scribed.writing name.lexeme v (Run.assign name distance v))
    return v
  | p, e@(.call callee paren arguments) => Scribed.evaluating p e do
    let f ← callee.scribe (0 :: p)
    let vs ← Expr.scribeAll p 1 arguments
    Scribed.callAt invoke paren f vs
  | p, e@(.get object name) => Scribed.evaluating p e do
    match ← object.scribe (0 :: p) with
    | .object o => Scribed.getProperty o name
    | _ => throw (.fault name .noProperties)
  | p, e@(.set object name operator value) => Scribed.evaluating p e do
    match ← object.scribe (0 :: p) with
    | .object o => do
      let v ← Scribed.assigned operator (Scribed.getProperty o name) (value.scribe (1 :: p))
      Scribed.lift (Traced.lift (Run.setField o name.lexeme v))
      return v
    | _ => throw (.fault name .noFields)
  | p, e@(.this keyword distance) => Scribed.evaluating p e do
    Scribed.lift (Traced.lift (Run.lookUp keyword distance))
  | p, e@(.function none params body) => Scribed.evaluating p e do
    return .function (← Scribed.lift
      (Traced.newClosure p none params body (← Scribed.lift (Traced.lift Run.current)) false))
  | p, e@(.function (some name) params body) => Scribed.evaluating p e do
    let inner ← Scribed.lift (Traced.newEnvironment (.literalName p name.lexeme)
      (← Scribed.lift (Traced.lift Run.current)) [])
    let f ← Scribed.lift (Traced.newClosure p (some name.lexeme) params body inner false)
    Scribed.writing name.lexeme (.function f)
      (Run.defineIn inner.frame name.lexeme (.function f))
    return .function f

/-- Evaluates some expressions from the left, the first of them being child `i`. -/
def Expr.scribeAll : Path → Nat → List ResolvedExpr → Scribed (List Value)
  | _, _, [] => return []
  | p, i, e :: es => do
    let v ← e.scribe (i :: p)
    let vs ← Expr.scribeAll p (i + 1) es
    return v :: vs

def Stmt.scribe : Path → ResolvedStmt → Scribed Signal
  | p, s@(.expression value) => Scribed.visiting p (.stmt s) do
    let _ ← value.scribe (0 :: p)
    return .proceed
  | p, s@(.print value) => Scribed.visiting p (.stmt s) do
    let v ← value.scribe (0 :: p)
    Scribed.lift (Traced.lift (Run.print v.display))
    return .proceed
  | p, s@(.varDecl name none) => Scribed.visiting p (.stmt s) do
    Scribed.writing name.lexeme .nil (Run.define name.lexeme .nil)
    return .proceed
  | p, s@(.varDecl name (some value)) => Scribed.visiting p (.stmt s) do
    let v ← value.scribe (0 :: p)
    Scribed.writing name.lexeme v (Run.define name.lexeme v)
    return .proceed
  | p, s@(.block body) => Scribed.visiting p (.stmt s) do
    let e ← Scribed.lift (Traced.newEnvironment (.block p body)
      (← Scribed.lift (Traced.lift Run.current)) [])
    Scribed.inEnvironment e (Stmt.scribeAll p 0 body)
  | p, s@(.ifElse condition yes none) => Scribed.visiting p (.stmt s) do
    let v ← condition.scribe (0 :: p)
    if v.truthy then yes.scribe (1 :: p) else return .proceed
  | p, s@(.ifElse condition yes (some no)) => Scribed.visiting p (.stmt s) do
    let v ← condition.scribe (0 :: p)
    if v.truthy then yes.scribe (1 :: p) else no.scribe (2 :: p)
  | p, s@(.loop condition body none) => Scribed.visiting p (.stmt s) do
    Scribed.loop (Value.truthy <$> condition.scribe (0 :: p)) (body.scribe (1 :: p)) (pure ())
      turns
  | p, s@(.loop condition body (some increment)) => Scribed.visiting p (.stmt s) do
    Scribed.loop (Value.truthy <$> condition.scribe (0 :: p)) (body.scribe (1 :: p))
      (discard (increment.scribe (2 :: p))) turns
  | p, s@(.breakLoop _) => Scribed.visiting p (.stmt s) do return .breakLoop
  | p, s@(.continueLoop _) => Scribed.visiting p (.stmt s) do return .continueLoop
  | p, s@(.returnFrom _ none) => Scribed.visiting p (.stmt s) do return .returnValue .nil
  | p, s@(.returnFrom _ (some value)) => Scribed.visiting p (.stmt s) do
    let v ← value.scribe (0 :: p)
    return .returnValue v
  | p, s@(.functionDecl name params body) => Scribed.visiting p (.stmt s) do
    let f ← Scribed.lift (Traced.newClosure p (some name.lexeme) params body
      (← Scribed.lift (Traced.lift Run.current)) false)
    Scribed.writing name.lexeme (.function f) (Run.define name.lexeme (.function f))
    return .proceed
  | p, s@(.classDecl name methods) => Scribed.visiting p (.stmt s) do
    Scribed.writing name.lexeme .nil (Run.define name.lexeme .nil)
    let methods ← Scribed.newMethods p (← Scribed.lift (Traced.lift Run.current)) 0 methods []
    let c ← Scribed.newClass name.lexeme methods
    Scribed.writing name.lexeme (.klass c) (Run.define name.lexeme (.klass c))
    return .proceed

/-- Executes statements until one of them does not let control go on, the first of them being
child `i`. -/
def Stmt.scribeAll : Path → Nat → List ResolvedStmt → Scribed Signal
  | _, _, [] => return .proceed
  | p, i, s :: ss => do
    match ← s.scribe (i :: p) with
    | .proceed => Stmt.scribeAll p (i + 1) ss
    | signal => return signal

end

def Closure.scribe (f : Closure) (arguments : List Value) : Scribed Value :=
  Scribed.noting (.returned f) do
    let p := (← get).origin f.identity
    let e ← Scribed.enter p f arguments
    let signal ← Scribed.inEnvironment e (Stmt.scribeAll turns invoke p 0 f.body)
    if f.isInitializer then
      Scribed.lift (Traced.lift (Run.ofExcept
        ((← get).machine.store.getAt f.environment 0 receiverName)))
    else
      match signal with
      | .returnValue v => return v
      | _ => return .nil

def Class.scribe (c : Class) (arguments : List Value) : Scribed Value := do
  let before := (← get).machine.store
  Scribed.noting (.constructed before c) do
    let o ← Scribed.lift (Traced.lift (Run.withStore (·.addObject c)))
    match c.methods.get? initializerName with
    | none => return .object o
    | some method => do
      let f ← Scribed.bind method o
      let _ ← f.scribe turns invoke arguments
      return .object o

end Meaning

def scribeCall (library : Library) (turns : Nat) : Nat → Value → List Value → Scribed Value
  | 0, _, _ => throw .tooDeep
  | depth + 1, callee, arguments =>
    match callee with
    | .function f => f.scribe turns (scribeCall library turns depth) arguments
    | .klass c => c.scribe turns (scribeCall library turns depth) arguments
    | .native n => Scribed.lift (Traced.lift (library.answer n arguments))
    | _ => return .nil

/-- Executes the statements of a program, the first of them being child `i`. -/
def Host.scribeProgram (h : Host) (p : Path) : Nat → List ResolvedStmt → Scribed Unit
  | _, [] => return
  | i, s :: ss => do
    let _ ← s.scribe h.turns (scribeCall h.library h.turns h.depth) (i :: p)
    h.scribeProgram p (i + 1) ss

namespace Scribe

/-- A machine with some globals, before its first program. -/
def start (globals : Bindings Value) : Scribe where
  machine := .start globals
  site := fun _ => none
  origin := fun _ => []
  visits := []
  applied := []
  events := []

/-- The run of a program with a number. A fault leads back to the globals. -/
def interpret (s : Scribe) (h : Host) (number : Nat) (program : List ResolvedStmt) : Scribe :=
  match h.scribeProgram [number] 0 program s with
  | .ok _ u => u
  | .error (.fault _ _) u => { u with machine := { u.machine with environment := .global } }
  | .error _ u => u

def interpretAll (s : Scribe) (h : Host) (number : Nat) : List (List RawStmt) → Scribe
  | [] => s
  | program :: rest =>
    (s.interpret h number (resolve program).program).interpretAll h (number + 1) rest

end Scribe
end LoxScript
