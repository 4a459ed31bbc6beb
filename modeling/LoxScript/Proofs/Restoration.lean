import LoxScript.Proofs.History

/-!
Steps go back to the environment in which they began.

Blocks and calls move to another environment and come back from it, whether what they run ends with
a value, with a signal or with a failure. So a machine that is between two steps of a session is
always at its globals, whatever became of the steps before.
-/
namespace LoxScript

/-- The state that a step leaves, however it ends. -/
def Machine.after {α : Type} (m : Machine) (step : Run α) : Machine :=
  match step m with
  | .ok _ m' => m'
  | .error _ m' => m'

namespace Run

def Restores {α : Type} (step : Run α) : Prop :=
  ∀ m : Machine, (m.after step).environment = m.environment

namespace Restores
variable {α β : Type} {c : Run α}

theorem pure (a : α) : Restores (Pure.pure a) := fun _ => rfl

theorem throw (failure : Failure) : @Restores α (MonadExcept.throw failure) := fun _ => rfl

theorem ofExcept (r : Except Failure α) : Restores (Run.ofExcept r) := by
  cases r with
  | ok a => exact pure a
  | error failure => exact throw failure

theorem bind {k : α → Run β} (hc : Restores c) (hk : ∀ a, Restores (k a)) : Restores (c >>= k) := by
  intro m
  have hfirst := hc m
  simp only [Machine.after, Bind.bind, EStateM.bind] at hfirst ⊢
  cases hcm : c m with
  | error failure u =>
    rw [hcm] at hfirst
    exact hfirst
  | ok a u =>
    rw [hcm] at hfirst
    exact (hk a u).trans hfirst

theorem map (f : α → β) (hc : Restores c) : Restores (f <$> c) := by
  intro m
  have hfirst := hc m
  simp only [Machine.after, Functor.map, EStateM.map] at hfirst ⊢
  cases hcm : c m with
  | ok a u =>
    rw [hcm] at hfirst
    exact hfirst
  | error failure u =>
    rw [hcm] at hfirst
    exact hfirst

theorem reading {k : Machine → Run β} (hk : ∀ m, Restores (k m)) : Restores (get >>= k) :=
  fun m => hk m m

theorem modifying {f : Machine → Machine} (hf : ∀ m, (f m).environment = m.environment) :
    Restores (modify f) := hf

theorem withStore (f : Store → α × Store) : Restores (Run.withStore f) := fun _ => rfl

theorem ite {q : Prop} [Decidable q] {d : Run α} (hc : Restores c) (hd : Restores d) :
    Restores (if q then c else d) := by
  split
  · exact hc
  · exact hd

theorem inEnvironment (e : Environment) (step : Run α) : Restores (Run.inEnvironment e step) := by
  intro m
  simp only [Machine.after, Run.inEnvironment]
  cases step { m with environment := e } <;> rfl

theorem lookUp (name : Token) (distance : Option Nat) : Restores (Run.lookUp name distance) := by
  refine reading fun m => ?_
  cases distance with
  | none => exact ofExcept _
  | some d => exact ofExcept _

theorem assign (name : Token) (distance : Option Nat) (v : Value) :
    Restores (Run.assign name distance v) :=
  reading fun _ => bind (ofExcept _) fun _ => modifying fun _ => rfl

theorem define (name : String) (v : Value) : Restores (Run.define name v) :=
  bind (reading fun _ => pure _) fun _ => modifying fun _ => rfl

theorem newEnvironment (e : Environment) (b : Bindings Value) :
    Restores (Run.newEnvironment e b) := withStore _

theorem newClosure (name : Option String) (params : List Token) (body : List ResolvedStmt)
    (e : Environment) (isInitializer : Bool) :
    Restores (Run.newClosure name params body e isInitializer) :=
  bind (withStore _) fun _ => pure _

theorem bindMethod (method : Closure) (receiver : Value) : Restores (Run.bind method receiver) :=
  bind (newEnvironment _ _) fun _ => bind (withStore _) fun _ => pure _

theorem getProperty (o : Object) (name : Token) : Restores (Run.getProperty o name) := by
  refine reading fun m => ?_
  cases (m.store.fields o).get? name.lexeme with
  | some v => exact pure v
  | none =>
    cases o.owner.methods.get? name.lexeme with
    | some method => exact bind (bindMethod method _) fun _ => pure _
    | none => exact throw _

theorem newMethods (e : Environment) (ms : List ResolvedMethod) (found : Bindings Closure) :
    Restores (Run.newMethods e ms found) := by
  induction ms generalizing found with
  | nil => exact pure found
  | cons m ms ih => exact bind (newClosure _ _ _ _ _) fun f => ih _

theorem loop {condition : Run Bool} {body : Run Signal} {increment : Run Unit}
    (hc : Restores condition) (hb : Restores body) (hn : Restores increment) (turns : Nat) :
    Restores (Run.loop condition body increment turns) := by
  induction turns with
  | zero => exact throw _
  | succ turns ih =>
    refine bind hc fun go => ?_
    cases go with
    | false => exact pure _
    | true =>
      refine bind hb fun signal => ?_
      cases signal with
      | breakLoop => exact pure _
      | returnValue v => exact pure _
      | proceed => exact bind hn fun _ => ih
      | continueLoop => exact bind hn fun _ => ih

theorem callAt {inv : Invoke} (hi : ∀ f vs, Restores (inv f vs)) (paren : Token) (f : Value)
    (vs : List Value) : Restores (LoxScript.callAt inv paren f vs) := by
  unfold LoxScript.callAt
  cases f.arity? with
  | none => exact throw _
  | some arity => exact ite (hi f vs) (throw _)

theorem assigned {current value : Run Value} (operator : Option Token) (hc : Restores current)
    (hv : Restores value) : Restores (LoxScript.assigned operator current value) := by
  cases operator with
  | none => exact hv
  | some sign =>
    exact bind hc fun _ => bind (ofExcept _) fun _ => bind hv fun _ => ofExcept _

end Restores
end Run

section Meaning

variable {turns : Nat} {inv : Invoke}

mutual

theorem Expr.eval_restores (hi : ∀ f vs, (inv f vs).Restores) :
    (e : ResolvedExpr) → (e.eval turns inv).Restores
  | .literal _ => .pure _
  | .grouping inner => inner.eval_restores hi
  | .unary _ right => .bind (right.eval_restores hi) fun _ => .ite (.ofExcept _) (.pure _)
  | .binary left _ right =>
    .bind (left.eval_restores hi) fun _ => .bind (right.eval_restores hi) fun _ =>
      .ite (.pure _) (.ofExcept _)
  | .logical left _ right =>
    .bind (left.eval_restores hi) fun _ => .ite (.pure _) (right.eval_restores hi)
  | .variable name distance => .lookUp name distance
  | .assign name operator value distance =>
    .bind (.assigned operator (.lookUp name distance) (value.eval_restores hi)) fun v =>
      .bind (.assign name distance v) fun _ => .pure _
  | .call callee paren arguments =>
    .bind (callee.eval_restores hi) fun f => .bind (Expr.evalAll_restores hi arguments) fun vs =>
      .callAt hi paren f vs
  | .get object name => by
    refine .bind (object.eval_restores hi) fun v => ?_
    cases v with
    | object o => exact .getProperty o name
    | _ => exact .throw _
  | .set object name operator value => by
    refine .bind (object.eval_restores hi) fun v => ?_
    cases v with
    | object o =>
      exact .bind (.assigned operator (.getProperty o name) (value.eval_restores hi)) fun _ =>
        .bind (.modifying fun _ => rfl) fun _ => .pure _
    | _ => exact .throw _
  | .this keyword distance => .lookUp keyword distance
  | .function none _ _ =>
    .bind (.reading fun _ => .pure _) fun _ => .bind (.newClosure _ _ _ _ _) fun _ => .pure _
  | .function (some _) _ _ =>
    .bind (.reading fun _ => .pure _) fun _ => .bind (.newEnvironment _ _) fun _ =>
      .bind (.newClosure _ _ _ _ _) fun _ => .bind (.modifying fun _ => rfl) fun _ => .pure _

theorem Expr.evalAll_restores (hi : ∀ f vs, (inv f vs).Restores) :
    (es : List ResolvedExpr) → (Expr.evalAll turns inv es).Restores
  | [] => .pure _
  | e :: es =>
    .bind (e.eval_restores hi) fun _ => .bind (Expr.evalAll_restores hi es) fun _ => .pure _

theorem Stmt.exec_restores (hi : ∀ f vs, (inv f vs).Restores) :
    (s : ResolvedStmt) → (s.exec turns inv).Restores
  | .expression value => .bind (value.eval_restores hi) fun _ => .pure _
  | .print value =>
    .bind (value.eval_restores hi) fun _ => .bind (.modifying fun _ => rfl) fun _ => .pure _
  | .varDecl _ none => .bind (.define _ _) fun _ => .pure _
  | .varDecl _ (some value) =>
    .bind (value.eval_restores hi) fun _ => .bind (.define _ _) fun _ => .pure _
  | .block _ =>
    .bind (.reading fun _ => .pure _) fun _ => .bind (.newEnvironment _ _) fun e =>
      .inEnvironment e _
  | .ifElse condition yes none =>
    .bind (condition.eval_restores hi) fun _ => .ite (yes.exec_restores hi) (.pure _)
  | .ifElse condition yes (some no) =>
    .bind (condition.eval_restores hi) fun _ => .ite (yes.exec_restores hi) (no.exec_restores hi)
  | .loop condition body none =>
    .loop (.map _ (condition.eval_restores hi)) (body.exec_restores hi) (.pure _) _
  | .loop condition body (some increment) =>
    .loop (.map _ (condition.eval_restores hi)) (body.exec_restores hi)
      (.map _ (increment.eval_restores hi)) _
  | .breakLoop _ => .pure _
  | .continueLoop _ => .pure _
  | .returnFrom _ none => .pure _
  | .returnFrom _ (some value) => .bind (value.eval_restores hi) fun _ => .pure _
  | .functionDecl _ _ _ =>
    .bind (.reading fun _ => .pure _) fun _ => .bind (.newClosure _ _ _ _ _) fun _ =>
      .bind (.define _ _) fun _ => .pure _
  | .classDecl _ methods =>
    .bind (.define _ _) fun _ => .bind (.reading fun _ => .pure _) fun _ =>
      .bind (.newMethods _ methods _) fun _ => .bind (.withStore _) fun _ =>
        .bind (.define _ _) fun _ => .pure _

end

theorem Closure.call_restores (f : Closure) (vs : List Value) :
    (f.call turns inv vs).Restores := by
  refine .bind (.newEnvironment _ _) fun e => .bind (.inEnvironment e _) fun signal => ?_
  refine .ite (.reading fun _ => .ofExcept _) ?_
  cases signal <;> exact .pure _

theorem Class.construct_restores (c : Class) (vs : List Value) :
    (c.construct turns inv vs).Restores := by
  refine .bind (.withStore _) fun o => ?_
  cases c.methods.get? initializerName with
  | none => exact .pure _
  | some method =>
    exact .bind (.bindMethod method _) fun f => .bind (f.call_restores vs) fun _ => .pure _

end Meaning

-- A call restores the environment by itself, so no induction on the depth is needed.
theorem invoke_restores (library : Library) (turns depth : Nat) (f : Value) (vs : List Value) :
    (invoke library turns depth f vs).Restores := by
  cases depth with
  | zero => exact .throw _
  | succ depth =>
    cases f with
    | function f => exact f.call_restores vs
    | klass c => exact c.construct_restores vs
    | native n => exact fun _ => rfl
    | _ => exact .pure _

theorem Host.exec_restores (h : Host) (s : ResolvedStmt) : (h.exec s).Restores :=
  s.exec_restores (invoke_restores h.library h.turns h.depth)

theorem Host.execProgram_restores (h : Host) (program : List ResolvedStmt) :
    (h.execProgram program).Restores := by
  induction program with
  | nil => exact .pure _
  | cons s ss ih => exact .bind (h.exec_restores s) fun _ => ih

namespace Session

/-- What can be done with a session. A statement that is executed and a value that is called from
outside need not come from a source that was accepted. -/
inductive Act where
  | run (source path : String)
  | runFile (files : Files) (path : String)
  | readFile (files : Files) (path : String)
  | parse (source path : String)
  | dump (source path : String)
  | execute (s : ResolvedStmt)
  | evaluate (e : ResolvedExpr)
  | call (callee : Value) (arguments : List Value)
  | guarded (a : Act)

def onMachine {α : Type} (step : Host → Run α) : SessionM Unit := fun s =>
  match step s.host s.machine with
  | .ok _ m => .ok () { s with machine := m }
  | .error failure m => .error failure.escape { s with machine := m }

def Act.perform : Act → SessionM Unit
  | .run source path => discard (Session.run source path)
  | .runFile files path => discard (Session.runFile files path)
  | .readFile files path => discard (readSource files path)
  | .parse source path => discard (Session.parse source path)
  | .dump source path => discard (Session.dump source path)
  | .execute s => onMachine (·.exec s)
  | .evaluate e => onMachine fun h => e.eval h.turns (invoke h.library h.turns h.depth)
  | .call callee arguments => onMachine (·.call callee arguments)
  | .guarded a => discard (Session.guarded a.perform)

def afterAll (s : Session) : List Act → Session
  | [] => s
  | a :: acts => (s.after a.perform).afterAll acts

/-- A session whose machine a step has moved, however the step ended. -/
def moved {α : Type} (s : Session) (step : Host → Run α) : Session :=
  { s with machine := s.machine.after (step s.host) }

/-- What may escape from a step does so. -/
def escaping : Option Escape → SessionM Unit
  | some e => throw e
  | none => return

theorem raise_eq (message : String) (internal : Bool) (s : Session) :
    raise message internal s = escaping (s.reporter.raise message internal).2
      { s with reporter := (s.reporter.raise message internal).1 } := rfl

/-- A step keeps what holds of a session, however it ends. -/
def Preserves {α : Type} (P : Session → Prop) (step : SessionM α) : Prop :=
  ∀ s : Session, P s → P (s.after step)

namespace Preserves
variable {α β : Type} {P : Session → Prop} {c : SessionM α}

theorem pure (a : α) : Preserves P (Pure.pure a) := fun _ h => h

theorem throw (e : Escape) : @Preserves α P (MonadExcept.throw e) := fun _ h => h

theorem bind {k : α → SessionM β} (hc : Preserves P c) (hk : ∀ a, Preserves P (k a)) :
    Preserves P (c >>= k) := by
  intro s hs
  have hfirst := hc s hs
  simp only [after, Bind.bind, EStateM.bind] at hfirst ⊢
  cases hcs : c s with
  | error e u =>
    rw [hcs] at hfirst
    exact hfirst
  | ok a u =>
    rw [hcs] at hfirst
    exact hk a u hfirst

theorem discard (hc : Preserves P c) : Preserves P (Functor.discard c) := by
  intro s hs
  have hfirst := hc s hs
  simp only [after, Functor.discard, Functor.mapConst, EStateM.map, Function.comp_def] at hfirst ⊢
  cases hcs : c s with
  | ok a u =>
    rw [hcs] at hfirst
    exact hfirst
  | error e u =>
    rw [hcs] at hfirst
    exact hfirst

theorem reading {k : Session → SessionM β} (hk : ∀ s, Preserves P (k s)) :
    Preserves P (get >>= k) :=
  fun s hs => hk s s hs

theorem report {f : Reporter → Reporter} (hf : ∀ s, P s → P { s with reporter := f s.reporter }) :
    Preserves P (Session.report f) := hf

theorem ite {q : Prop} [Decidable q] {d : SessionM α} (hc : Preserves P c) (hd : Preserves P d) :
    Preserves P (if q then c else d) := by
  split
  · exact hc
  · exact hd

theorem onMachine {step : Host → Run α}
    (hstep : ∀ s, P s → P (s.moved step)) : Preserves P (Session.onMachine step) := by
  intro s hs
  have hafter := hstep s hs
  simp only [after, Session.onMachine, moved, Machine.after] at hafter ⊢
  cases hrun : step s.host s.machine with
  | ok a m =>
    rw [hrun] at hafter
    exact hafter
  | error failure m =>
    rw [hrun] at hafter
    exact hafter

theorem guarded (hguard : ∀ e s, P s → P { s with reporter := (s.reporter.guard e).1 })
    (hc : Preserves P c) : Preserves P (Session.guarded c) := by
  intro s hs
  have hfirst := hc s hs
  simp only [after, Session.guarded] at hfirst ⊢
  cases hcs : c s with
  | ok a u =>
    rw [hcs] at hfirst
    exact hfirst
  | error e u =>
    rw [hcs] at hfirst
    dsimp only
    have hpassed := hguard e u hfirst
    cases (u.reporter.guard e).2 with
    | some passed => exact hpassed
    | none => exact hpassed

theorem raise {message : String} {internal : Bool}
    (hraise : ∀ s, P s → P { s with reporter := (s.reporter.raise message internal).1 }) :
    Preserves P (Session.raise message internal) := by
  intro s hs
  have hended := hraise s hs
  unfold after
  rw [raise_eq]
  cases (s.reporter.raise message internal).2 with
  | some e => exact hended
  | none => exact hended

end Preserves

/-- What the parts of a run preserve. -/
structure RunStable (P : Session → Prop) : Prop where
  parse (source path : String) : Preserves P (Session.parse source path)
  resolve (ds : List Diagnostic) : Preserves P (Session.report (·.reportAll ds))
  interpret (program : List ResolvedStmt) : Preserves P (Session.interpret program)

theorem RunStable.run {P : Session → Prop} (h : RunStable P) (source path : String) :
    Preserves P (Session.run source path) :=
  .bind (h.parse source path) fun _ => .reading fun _ => .ite (.pure _) <|
    .bind (h.resolve _) fun _ => .reading fun _ => .ite (.pure _) <|
      .bind (h.interpret _) fun _ => .reading fun _ => .ite (.pure _) (.pure _)

/-- What all that can be done with a session preserves. -/
structure Stable (P : Session → Prop) : Prop extends RunStable P where
  raise (message : String) (internal : Bool) :
    ∀ s, P s → P { s with reporter := (s.reporter.raise message internal).1 }
  guard (e : Escape) : ∀ s, P s → P { s with reporter := (s.reporter.guard e).1 }
  execute (stmt : ResolvedStmt) : ∀ s, P s → P (s.moved (·.exec stmt))
  evaluate (e : ResolvedExpr) :
    ∀ s, P s → P (s.moved fun h => e.eval h.turns (invoke h.library h.turns h.depth))
  call (callee : Value) (arguments : List Value) : ∀ s, P s → P (s.moved (·.call callee arguments))

namespace Stable
variable {P : Session → Prop}

theorem readSource (h : Stable P) (files : Files) (path : String) :
    Preserves P (Session.readSource files path) := by
  unfold Session.readSource
  cases files path with
  | refused => exact .bind (.raise (h.raise _ _)) fun _ => .pure _
  | badPath => exact .throw _
  | content bytes =>
    dsimp only
    cases readText bytes with
    | ok source => exact .pure _
    | error e => exact .throw _

theorem runFile (h : Stable P) (files : Files) (path : String) :
    Preserves P (Session.runFile files path) := by
  refine .bind (h.readSource files path) fun source => ?_
  cases source with
  | none => exact .pure _
  | some source => exact h.run source path

theorem perform (h : Stable P) (a : Act) : Preserves P a.perform := by
  induction a with
  | run source path => exact .discard (h.run source path)
  | runFile files path => exact .discard (h.runFile files path)
  | readFile files path => exact .discard (h.readSource files path)
  | parse source path => exact .discard (h.parse source path)
  | dump source path => exact .discard (.bind (h.parse source path) fun _ => .pure _)
  | execute stmt => exact .onMachine (h.execute stmt)
  | evaluate e => exact .onMachine (h.evaluate e)
  | call callee arguments => exact .onMachine (h.call callee arguments)
  | guarded a ih => exact .discard (.guarded h.guard ih)

theorem afterAll (h : Stable P) {s : Session} (hs : P s) (acts : List Act) :
    P (s.afterAll acts) := by
  induction acts generalizing s with
  | nil => exact hs
  | cons a acts ih => exact ih (h.perform a s hs)

end Stable

/-- A step keeps what holds of the machine and its host, however it ends. -/
def Keeps {α : Type} (P : Host → Machine → Prop) (step : SessionM α) : Prop :=
  ∀ s : Session, P s.host s.machine → P (s.after step).host (s.after step).machine

namespace Keeps
variable {P : Host → Machine → Prop}

/-- A fault sends the machine back to its globals. -/
theorem interpret {program : List ResolvedStmt}
    (hexec : ∀ h m, P h m → P h (m.after (h.execProgram program)))
    (hback : ∀ h m, P h m → P h { m with environment := .global }) :
    Keeps P (Session.interpret program) := by
  intro s hs
  have hafter := hexec s.host s.machine hs
  simp only [after, Session.interpret, Machine.after] at hafter ⊢
  cases hrun : s.host.execProgram program s.machine with
  | ok a m =>
    rw [hrun] at hafter
    exact hafter
  | error failure m =>
    rw [hrun] at hafter
    cases failure with
    | fault token cause => exact hback _ _ hafter
    | _ => exact hafter

theorem runStable (hinterpret : ∀ program, Keeps P (Session.interpret program)) :
    RunStable fun s => P s.host s.machine where
  parse _ _ := .bind (.report fun _ h => h) fun _ => .pure _
  resolve _ := .report fun _ h => h
  interpret := hinterpret

end Keeps

theorem global_stable : Stable fun s => s.machine.environment = .global where
  toRunStable := Keeps.runStable (P := fun _ m => m.environment = .global) fun program =>
    .interpret (fun h m hm => (h.execProgram_restores program m).trans hm) fun _ _ _ => rfl
  raise _ _ _ h := h
  guard _ _ h := h
  execute stmt s h := (s.host.exec_restores stmt s.machine).trans h
  evaluate e s h :=
    (e.eval_restores (invoke_restores s.host.library s.host.turns s.host.depth) s.machine).trans h
  call callee arguments s h :=
    (invoke_restores s.host.library s.host.turns s.host.depth callee arguments s.machine).trans h

end Session

/-- Expressions, statements and calls go back to their environment however they end, and a session
is at its globals after all that can be done with it. -/
theorem environment_restored (host : Host) (reporter : Reporter) :
    let call := invoke host.library host.turns host.depth
    (∀ (e : ResolvedExpr) (m : Machine),
        (m.after (e.eval host.turns call)).environment = m.environment) ∧
      (∀ (s : ResolvedStmt) (m : Machine),
        (m.after (s.exec host.turns call)).environment = m.environment) ∧
      (∀ (callee : Value) (arguments : List Value) (m : Machine),
        (m.after (call callee arguments)).environment = m.environment) ∧
      ∀ acts : List Session.Act,
        ((⟨host, .start host.library.globals, reporter⟩ : Session).afterAll acts).machine.environment
          = .global := by
  intro call
  have hcall : ∀ f vs, (call f vs).Restores := invoke_restores host.library host.turns host.depth
  refine ⟨fun e => e.eval_restores hcall, fun s => s.exec_restores hcall, hcall, fun acts => ?_⟩
  exact Session.global_stable.afterAll rfl acts

end LoxScript
