import LoxScript.Machine
import LoxScript.Value.Operator

/-!
Execution of resolved programs.

The meaning of expressions and statements follows their structure and is written over the meaning
of a call, `invoke`. The meaning of calls nested at most `depth + 1` deep is then that of bodies
whose own calls are nested at most `depth` deep, so a limit on the depth of calls makes every call
well defined.
-/
namespace LoxScript

/-- The meaning of a call of a value with arguments. -/
abbrev Invoke := Value → List Value → Run Value

/-- The bindings of parameters to arguments. Extra arguments are ignored, and a parameter without
one stays unbound. -/
def bindParams (params : List String) (arguments : List Value) : Bindings Value :=
  (params.zip arguments).foldl (fun b (name, v) => b.set name v) []

/-- Calls a value with arguments if it can be called with that many. -/
def callAt (invoke : Invoke) (paren : Token) (callee : Value) (arguments : List Value) :
    Run Value :=
  match callee.arity? with
  | none => throw (.fault paren .notCallable)
  | some arity =>
    if arguments.length = arity then invoke callee arguments
    else throw (.fault paren (.wrongCount arity arguments.length))

/-- The operator that a compound assignment applies. Signs that are in no table of operators
have none. -/
def underlying (sign : Token) : Except Failure Kind :=
  match sign.kind.compound? with
  | some kind => .ok kind
  | none => .error (.unbound sign.kind.name)

/-- The value that an assignment stores. A compound one reads its target first. -/
def assigned (operator : Option Token) (current value : Run Value) : Run Value :=
  match operator with
  | none => value
  | some sign => do
    let left ← current
    let kind ← Run.ofExcept (underlying sign)
    let right ← value
    Run.ofExcept (Value.apply sign kind left right)

section Meaning

/-! A loop may take `turns` turns, and `invoke` is what a call means. -/

variable (turns : Nat) (invoke : Invoke)

mutual

def Expr.eval : ResolvedExpr → Run Value
  | .literal value => return value.value
  | .grouping inner => inner.eval
  | .unary operator right => do
    let v ← right.eval
    if operator.kind = .minus then Run.ofExcept (v.negate operator) else return .bool (!v.truthy)
  | .binary left operator right => do
    let a ← left.eval
    let b ← right.eval
    if operator.kind = .comma then return b
    else Run.ofExcept (Value.apply operator operator.kind a b)
  | .logical left operator right => do
    let a ← left.eval
    if a.truthy == (operator.kind == .kwOr) then return a else right.eval
  | .variable name distance => Run.lookUp name distance
  | .assign name operator value distance => do
    let v ← assigned operator (Run.lookUp name distance) value.eval
    Run.assign name distance v
    return v
  | .call callee paren arguments => do
    let f ← callee.eval
    let vs ← Expr.evalAll arguments
    callAt invoke paren f vs
  | .get object name => do
    match ← object.eval with
    | .object o => Run.getProperty o name
    | _ => throw (.fault name .noProperties)
  | .set object name operator value => do
    match ← object.eval with
    | .object o => do
      let v ← assigned operator (Run.getProperty o name) value.eval
      Run.setField o name.lexeme v
      return v
    | _ => throw (.fault name .noFields)
  | .this keyword distance => Run.lookUp keyword distance
  | .function none params body => do
    return .function (← Run.newClosure none params body (← Run.current) false)
  | .function (some name) params body => do
    let e ← Run.newEnvironment (← Run.current) []
    let f ← Run.newClosure (some name.lexeme) params body e false
    Run.defineIn e.frame name.lexeme (.function f)
    return .function f

/-- The values of some expressions, from the left. -/
def Expr.evalAll : List ResolvedExpr → Run (List Value)
  | [] => return []
  | e :: es => do
    let v ← e.eval
    let vs ← Expr.evalAll es
    return v :: vs

def Stmt.exec : ResolvedStmt → Run Signal
  | .expression value => do
    let _ ← value.eval
    return .proceed
  | .print value => do
    let v ← value.eval
    Run.print v.display
    return .proceed
  | .varDecl name none => do
    Run.define name.lexeme .nil
    return .proceed
  | .varDecl name (some value) => do
    let v ← value.eval
    Run.define name.lexeme v
    return .proceed
  | .block body => do
    let e ← Run.newEnvironment (← Run.current) []
    Run.inEnvironment e (Stmt.execAll body)
  | .ifElse condition yes none => do
    let v ← condition.eval
    if v.truthy then yes.exec else return .proceed
  | .ifElse condition yes (some no) => do
    let v ← condition.eval
    if v.truthy then yes.exec else no.exec
  | .loop condition body none =>
    Run.loop (Value.truthy <$> condition.eval) body.exec (pure ()) turns
  | .loop condition body (some increment) =>
    Run.loop (Value.truthy <$> condition.eval) body.exec (discard increment.eval) turns
  | .breakLoop _ => return .breakLoop
  | .continueLoop _ => return .continueLoop
  | .returnFrom _ none => return .returnValue .nil
  | .returnFrom _ (some value) => do
    let v ← value.eval
    return .returnValue v
  | .functionDecl name params body => do
    let f ← Run.newClosure (some name.lexeme) params body (← Run.current) false
    Run.define name.lexeme (.function f)
    return .proceed
  | .classDecl name methods => do
    Run.define name.lexeme .nil
    let methods ← Run.newMethods (← Run.current) methods []
    let identity ← Run.withStore Store.fresh
    Run.define name.lexeme (.klass ⟨identity, name.lexeme, methods⟩)
    return .proceed

/-- Executes statements until one of them does not let control go on. -/
def Stmt.execAll : List ResolvedStmt → Run Signal
  | [] => return .proceed
  | s :: ss => do
    match ← s.exec with
    | .proceed => Stmt.execAll ss
    | signal => return signal

end

/-- Runs a function with arguments in a new frame. An initializer gives its receiver back. -/
def Closure.call (f : Closure) (arguments : List Value) : Run Value := do
  let e ← Run.newEnvironment f.environment (bindParams f.params arguments)
  let signal ← Run.inEnvironment e (Stmt.execAll turns invoke f.body)
  if f.isInitializer then Run.ofExcept ((← get).store.getAt f.environment 0 receiverName)
  else
    match signal with
    | .returnValue v => return v
    | _ => return .nil

/-- Makes an instance and runs the initializer of its class on it, if there is one. -/
def Class.construct (c : Class) (arguments : List Value) : Run Value := do
  let o ← Run.withStore (·.addObject c)
  match c.methods.get? initializerName with
  | none => return .object o
  | some method => do
    let f ← Run.bind method (.object o)
    let _ ← f.call turns invoke arguments
    return .object o

end Meaning

/-- A native function: how many arguments it takes, and what it gives for them. It is told how many
calls of native functions came before, so that each call can have another answer, as that of a
clock has. -/
structure Builtin where
  arity : Nat
  run : Nat → List Value → Value

abbrev Library := Bindings Builtin

/-- The values under which a library's functions are known. -/
def Library.globals (library : Library) : Bindings Value :=
  library.map fun (name, b) => (name, .native ⟨name, b.arity⟩)

/-- Calls a native function. One that the library does not have gives nil. -/
def Library.answer (library : Library) (n : Native) (arguments : List Value) : Run Value :=
  modifyGet fun m =>
    (((library.get? n.name).map (·.run m.asked arguments)).getD .nil, { m with asked := m.asked + 1 })

/-- What a run is given: its native functions, how deeply calls may nest, and how many turns a
loop may take. -/
structure Host where
  library : Library
  depth : Nat
  turns : Nat

/-- The meaning of calls nested at most `depth` deep. -/
def invoke (library : Library) (turns : Nat) : Nat → Invoke
  | 0, _, _ => throw .tooDeep
  | depth + 1, callee, arguments =>
    match callee with
    | .function f => f.call turns (invoke library turns depth) arguments
    | .klass c => c.construct turns (invoke library turns depth) arguments
    | .native n => library.answer n arguments
    | _ => return .nil

namespace Host

/-- A call from outside the program, without a check of the number of arguments. -/
def call (h : Host) (callee : Value) (arguments : List Value) : Run Value :=
  invoke h.library h.turns h.depth callee arguments

def exec (h : Host) (s : ResolvedStmt) : Run Signal :=
  s.exec h.turns (invoke h.library h.turns h.depth)

/-- Executes the statements of a program from top to bottom. -/
def execProgram (h : Host) : List ResolvedStmt → Run Unit
  | [] => return
  | s :: ss => do
    let _ ← h.exec s
    h.execProgram ss

end Host
end LoxScript
