import Mathlib.Logic.Function.Basic
import LoxScript.Eval
import LoxScript.Proofs.Spot

/-!
Runs that keep a record of themselves.

A traced run does what a run does. Besides, it notes for which syntactic scope each frame was made
and from which node each function was made, and it writes down every moment at which it comes to a
node and every application of an operator. An assignment comes to its node twice, when it begins
and when it writes. What a traced run notes has no influence on what it does: without its notes it
is the run.
-/
namespace LoxScript

/-- A machine, and the syntactic scope for which each of its frames was made. -/
structure Moment where
  machine : Machine
  site : Address → Option Site

/-- A moment at which a run came to a node. -/
structure Visit extends Moment where
  path : Path
  node : Node (Option Nat)

structure Application where
  operator : Kind
  left : Value
  right : Value

/-- The state of a traced run: besides the machine and the scopes of its frames, the path of the
node from which each function was made, and the visits and the applications of operators so far,
latest first. -/
structure Tracer extends Moment where
  origin : Nat → Path
  visits : List Visit
  applied : List Application

abbrev Traced := EStateM Failure Tracer

namespace Traced

def lift {α : Type} (step : Run α) : Traced α := fun t =>
  match step t.machine with
  | .ok a m => .ok a { t with machine := m }
  | .error failure m => .error failure { t with machine := m }

/-- Writes down that the run comes to a node, and goes on. -/
def visiting {α : Type} (p : Path) (n : Node (Option Nat)) (step : Traced α) : Traced α := do
  modify fun t => { t with visits := ⟨t.toMoment, p, n⟩ :: t.visits }
  step

def apply (token : Token) (operator : Kind) (left right : Value) : Traced Value := do
  modify fun t => { t with applied := ⟨operator, left, right⟩ :: t.applied }
  lift (Run.ofExcept (Value.apply token operator left right))

def newEnvironment (site : Site) (enclosing : Environment) (b : Bindings Value) :
    Traced Environment := do
  let e ← lift (Run.newEnvironment enclosing b)
  modify fun t => { t with site := Function.update t.site e.frame (some site) }
  return e

def inEnvironment {α : Type} (e : Environment) (step : Traced α) : Traced α := fun t =>
  match step { t with machine := { t.machine with environment := e } } with
  | .ok a t' => .ok a { t' with machine := { t'.machine with environment := t.machine.environment } }
  | .error failure t' =>
    .error failure { t' with machine := { t'.machine with environment := t.machine.environment } }

/-- A new function, made from the node at a path. -/
def newClosure (p : Path) (name : Option String) (params : List Token) (body : List ResolvedStmt)
    (e : Environment) (isInitializer : Bool) : Traced Closure := do
  let f ← lift (Run.newClosure name params body e isInitializer)
  modify fun t => { t with origin := Function.update t.origin f.identity p }
  return f

/-- A method of a receiver. It has the origin of the method, and its new frame is one of the scope
around the methods of its class. -/
def bind (method : Closure) (receiver : Value) : Traced Closure := do
  let p := (← get).origin method.identity
  let f ← lift (Run.bind method receiver)
  modify fun t => { t with
    site := Function.update t.site f.environment.frame (some (.receiver p))
    origin := Function.update t.origin f.identity p }
  return f

def getProperty (o : Object) (name : Token) : Traced Value := do
  match ((← get).machine.store.fields o).get? name.lexeme with
  | some v => return v
  | none =>
    match o.owner.methods.get? name.lexeme with
    | some method => return .function (← bind method (.object o))
    | none => throw (.fault name (.undefinedProperty name.lexeme))

/-- Makes the methods of a class, the first of them being child `i` of the class. -/
def newMethods (p : Path) (e : Environment) :
    Nat → List ResolvedMethod → Bindings Closure → Traced (Bindings Closure)
  | _, [], methods => return methods
  | i, method :: rest, methods => do
    let name := method.name.lexeme
    let closure ←
      newClosure (i :: p) (some name) method.params method.body e (name = initializerName)
    newMethods p e (i + 1) rest (methods.set name closure)

def loop (condition : Traced Bool) (body : Traced Signal) (increment : Traced Unit) :
    Nat → Traced Signal
  | 0 => throw .endless
  | turns + 1 => do
    if ← condition then
      match ← body with
      | .breakLoop => return .proceed
      | .returnValue v => return .returnValue v
      | _ => do
        increment
        loop condition body increment turns
    else return .proceed

def callAt (invoke : Value → List Value → Traced Value) (paren : Token) (callee : Value)
    (arguments : List Value) : Traced Value :=
  match callee.arity? with
  | none => throw (.fault paren .notCallable)
  | some arity =>
    if arguments.length = arity then invoke callee arguments
    else throw (.fault paren (.wrongCount arity arguments.length))

def assigned (operator : Option Token) (current value : Traced Value) : Traced Value :=
  match operator with
  | none => value
  | some sign => do
    let left ← current
    let kind ← lift (Run.ofExcept (underlying sign))
    let right ← value
    apply sign kind left right

end Traced

section Meaning

variable (turns : Nat) (invoke : Value → List Value → Traced Value)

mutual

def Expr.trace : Path → ResolvedExpr → Traced Value
  | p, e@(.literal value) => Traced.visiting p (.expr e) do return value.value
  | p, e@(.grouping inner) => Traced.visiting p (.expr e) do inner.trace (0 :: p)
  | p, e@(.unary operator right) => Traced.visiting p (.expr e) do
    let v ← right.trace (0 :: p)
    if operator.kind = .minus then Traced.lift (Run.ofExcept (v.negate operator))
    else return .bool (!v.truthy)
  | p, e@(.binary left operator right) => Traced.visiting p (.expr e) do
    let a ← left.trace (0 :: p)
    let b ← right.trace (1 :: p)
    if operator.kind = .comma then return b
    else Traced.apply operator operator.kind a b
  | p, e@(.logical left operator right) => Traced.visiting p (.expr e) do
    let a ← left.trace (0 :: p)
    if a.truthy == (operator.kind == .kwOr) then return a else right.trace (1 :: p)
  | p, e@(.variable name distance) => Traced.visiting p (.expr e) do
    Traced.lift (Run.lookUp name distance)
  | p, e@(.assign name operator value distance) => Traced.visiting p (.expr e) do
    let v ← Traced.assigned operator (Traced.lift (Run.lookUp name distance)) (value.trace (0 :: p))
    Traced.visiting p (.expr e) (Traced.lift (Run.assign name distance v))
    return v
  | p, e@(.call callee paren arguments) => Traced.visiting p (.expr e) do
    let f ← callee.trace (0 :: p)
    let vs ← Expr.traceAll p 1 arguments
    Traced.callAt invoke paren f vs
  | p, e@(.get object name) => Traced.visiting p (.expr e) do
    match ← object.trace (0 :: p) with
    | .object o => Traced.getProperty o name
    | _ => throw (.fault name .noProperties)
  | p, e@(.set object name operator value) => Traced.visiting p (.expr e) do
    match ← object.trace (0 :: p) with
    | .object o => do
      let v ← Traced.assigned operator (Traced.getProperty o name) (value.trace (1 :: p))
      Traced.lift (Run.setField o name.lexeme v)
      return v
    | _ => throw (.fault name .noFields)
  | p, e@(.this keyword distance) => Traced.visiting p (.expr e) do
    Traced.lift (Run.lookUp keyword distance)
  | p, e@(.function none params body) => Traced.visiting p (.expr e) do
    return .function (← Traced.newClosure p none params body (← Traced.lift Run.current) false)
  | p, e@(.function (some name) params body) => Traced.visiting p (.expr e) do
    let inner ← Traced.newEnvironment (.literalName p name.lexeme) (← Traced.lift Run.current) []
    let f ← Traced.newClosure p (some name.lexeme) params body inner false
    Traced.lift (Run.defineIn inner.frame name.lexeme (.function f))
    return .function f

/-- Evaluates some expressions from the left, the first of them being child `i`. -/
def Expr.traceAll : Path → Nat → List ResolvedExpr → Traced (List Value)
  | _, _, [] => return []
  | p, i, e :: es => do
    let v ← e.trace (i :: p)
    let vs ← Expr.traceAll p (i + 1) es
    return v :: vs

def Stmt.trace : Path → ResolvedStmt → Traced Signal
  | p, s@(.expression value) => Traced.visiting p (.stmt s) do
    let _ ← value.trace (0 :: p)
    return .proceed
  | p, s@(.print value) => Traced.visiting p (.stmt s) do
    let v ← value.trace (0 :: p)
    Traced.lift (Run.print v.display)
    return .proceed
  | p, s@(.varDecl name none) => Traced.visiting p (.stmt s) do
    Traced.lift (Run.define name.lexeme .nil)
    return .proceed
  | p, s@(.varDecl name (some value)) => Traced.visiting p (.stmt s) do
    let v ← value.trace (0 :: p)
    Traced.lift (Run.define name.lexeme v)
    return .proceed
  | p, s@(.block body) => Traced.visiting p (.stmt s) do
    let e ← Traced.newEnvironment (.block p body) (← Traced.lift Run.current) []
    Traced.inEnvironment e (Stmt.traceAll p 0 body)
  | p, s@(.ifElse condition yes none) => Traced.visiting p (.stmt s) do
    let v ← condition.trace (0 :: p)
    if v.truthy then yes.trace (1 :: p) else return .proceed
  | p, s@(.ifElse condition yes (some no)) => Traced.visiting p (.stmt s) do
    let v ← condition.trace (0 :: p)
    if v.truthy then yes.trace (1 :: p) else no.trace (2 :: p)
  | p, s@(.loop condition body none) => Traced.visiting p (.stmt s) do
    Traced.loop (Value.truthy <$> condition.trace (0 :: p)) (body.trace (1 :: p)) (pure ()) turns
  | p, s@(.loop condition body (some increment)) => Traced.visiting p (.stmt s) do
    Traced.loop (Value.truthy <$> condition.trace (0 :: p)) (body.trace (1 :: p))
      (discard (increment.trace (2 :: p))) turns
  | p, s@(.breakLoop _) => Traced.visiting p (.stmt s) do return .breakLoop
  | p, s@(.continueLoop _) => Traced.visiting p (.stmt s) do return .continueLoop
  | p, s@(.returnFrom _ none) => Traced.visiting p (.stmt s) do return .returnValue .nil
  | p, s@(.returnFrom _ (some value)) => Traced.visiting p (.stmt s) do
    let v ← value.trace (0 :: p)
    return .returnValue v
  | p, s@(.functionDecl name params body) => Traced.visiting p (.stmt s) do
    let f ← Traced.newClosure p (some name.lexeme) params body (← Traced.lift Run.current) false
    Traced.lift (Run.define name.lexeme (.function f))
    return .proceed
  | p, s@(.classDecl name methods) => Traced.visiting p (.stmt s) do
    Traced.lift (Run.define name.lexeme .nil)
    let methods ← Traced.newMethods p (← Traced.lift Run.current) 0 methods []
    let identity ← Traced.lift (Run.withStore Store.fresh)
    Traced.lift (Run.define name.lexeme (.klass ⟨identity, name.lexeme, methods⟩))
    return .proceed

/-- Executes statements until one of them does not let control go on, the first of them being
child `i`. -/
def Stmt.traceAll : Path → Nat → List ResolvedStmt → Traced Signal
  | _, _, [] => return .proceed
  | p, i, s :: ss => do
    match ← s.trace (i :: p) with
    | .proceed => Stmt.traceAll p (i + 1) ss
    | signal => return signal

end

def Closure.trace (f : Closure) (arguments : List Value) : Traced Value := do
  let p := (← get).origin f.identity
  let e ← Traced.newEnvironment (.body p f.params f.body) f.environment
    (bindParams f.params arguments)
  let signal ← Traced.inEnvironment e (Stmt.traceAll turns invoke p 0 f.body)
  if f.isInitializer then
    Traced.lift (Run.ofExcept ((← get).machine.store.getAt f.environment 0 receiverName))
  else
    match signal with
    | .returnValue v => return v
    | _ => return .nil

def Class.trace (c : Class) (arguments : List Value) : Traced Value := do
  let o ← Traced.lift (Run.withStore (·.addObject c))
  match c.methods.get? initializerName with
  | none => return .object o
  | some method => do
    let f ← Traced.bind method (.object o)
    let _ ← f.trace turns invoke arguments
    return .object o

end Meaning

def traceCall (library : Library) (turns : Nat) : Nat → Value → List Value → Traced Value
  | 0, _, _ => throw .tooDeep
  | depth + 1, callee, arguments =>
    match callee with
    | .function f => f.trace turns (traceCall library turns depth) arguments
    | .klass c => c.trace turns (traceCall library turns depth) arguments
    | .native n => Traced.lift (library.answer n arguments)
    | _ => return .nil

/-- Executes the statements of a program, the first of them being child `i`. -/
def Host.traceProgram (h : Host) (p : Path) : Nat → List ResolvedStmt → Traced Unit
  | _, [] => return
  | i, s :: ss => do
    let _ ← s.trace h.turns (traceCall h.library h.turns h.depth) (i :: p)
    h.traceProgram p (i + 1) ss

end LoxScript
