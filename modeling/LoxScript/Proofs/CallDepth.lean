import LoxScript.Proofs.Bookkeeping

/-!
What a limit on the depth of calls can change.

A run that reaches its limit ends there, and no step of a program can notice that: nothing catches
the failure, and until it happens both runs do the same. So a run with more room for calls either
ends as the one with less, or the smaller run was cut off behind a first part of what the larger one
prints.
-/
namespace LoxScript

namespace Run

/-- The first of two steps has less room for calls than the second, and only that keeps it from
doing the same. -/
structure CutOff {α : Type} (c d : Run α) : Prop where
  agrees (m : Machine) :
    c m = d m ∨ ∃ m', c m = .error .tooDeep m' ∧ m'.output <:+ (m.after d).output
  /-- What was printed is never taken back. -/
  prints (m : Machine) : m.output <:+ (m.after d).output

namespace CutOff
variable {α β : Type} {c d : Run α}

/-- A step without calls. -/
theorem self (h : ∀ m : Machine, m.output <:+ (m.after c).output) : CutOff c c :=
  ⟨fun _ => .inl rfl, h⟩

/-- One that prints nothing either. -/
theorem silent (h : ∀ m : Machine, (m.after c).output = m.output) : CutOff c c :=
  .self fun m => (h m).symm ▸ List.suffix_rfl

theorem pure (a : α) : CutOff (Pure.pure a) (Pure.pure a) := .silent fun _ => rfl

theorem throw (failure : Failure) :
    @CutOff α (MonadExcept.throw failure) (MonadExcept.throw failure) :=
  .silent fun _ => rfl

theorem ofExcept (r : Except Failure α) : CutOff (Run.ofExcept r) (Run.ofExcept r) := by
  cases r with
  | ok a => exact pure a
  | error failure => exact throw failure

/-- No room at all is left. -/
theorem tooDeep (h : ∀ m : Machine, m.output <:+ (m.after d).output) :
    CutOff (MonadExcept.throw Failure.tooDeep) d :=
  ⟨fun m => .inr ⟨m, rfl, h m⟩, h⟩

theorem bind {k l : α → Run β} (hc : CutOff c d) (hk : ∀ a, CutOff (k a) (l a)) :
    CutOff (c >>= k) (d >>= l) := by
  -- What the first part prints stays in front of what the second adds.
  have hgrows : ∀ m : Machine, (m.after d).output <:+ (m.after (d >>= l)).output := by
    intro m
    simp only [Machine.after, Bind.bind, EStateM.bind]
    cases d m with
    | ok a u => exact (hk a).prints u
    | error failure u => exact List.suffix_rfl
  refine ⟨fun m => ?_, fun m => (hc.prints m).trans (hgrows m)⟩
  rcases hc.agrees m with hsame | ⟨m', hcut, hprefix⟩
  · simp only [Machine.after, Bind.bind, EStateM.bind, hsame]
    cases d m with
    | ok a u => exact (hk a).agrees u
    | error failure u => exact .inl rfl
  · refine .inr ⟨m', ?_, hprefix.trans (hgrows m)⟩
    simp only [Bind.bind, EStateM.bind, hcut]

theorem map (f : α → β) (hc : CutOff c d) : CutOff (f <$> c) (f <$> d) := by
  rw [map_eq_pure_bind, map_eq_pure_bind]
  exact bind hc fun a => pure (f a)

theorem reading {k l : Machine → Run β} (hk : ∀ m, CutOff (k m) (l m)) :
    CutOff (get >>= k) (get >>= l) :=
  ⟨fun m => (hk m).agrees m, fun m => (hk m).prints m⟩

theorem modifying {f : Machine → Machine} (hf : ∀ m, (f m).output = m.output) :
    CutOff (modify f) (modify f) :=
  .silent hf

theorem withStore (f : Store → α × Store) : CutOff (Run.withStore f) (Run.withStore f) :=
  .silent fun _ => rfl

theorem print (line : String) : CutOff (Run.print line) (Run.print line) :=
  .self fun m => List.suffix_cons (line ++ "\n") m.output

theorem ite {q : Prop} [Decidable q] {c' d' : Run α} (hc : CutOff c d) (hc' : CutOff c' d') :
    CutOff (if q then c else c') (if q then d else d') := by
  split
  · exact hc
  · exact hc'

theorem inEnvironment (e : Environment) (hc : CutOff c d) :
    CutOff (Run.inEnvironment e c) (Run.inEnvironment e d) := by
  -- The environment is put back on both sides, which nothing printed depends on.
  have hafter : ∀ m : Machine, (m.after (Run.inEnvironment e d)).output =
      (Machine.after { m with environment := e } d).output := by
    intro m
    simp only [Machine.after, Run.inEnvironment]
    cases d { m with environment := e } <;> rfl
  refine ⟨fun m => ?_, fun m => hafter m ▸ hc.prints { m with environment := e }⟩
  rw [hafter]
  rcases hc.agrees { m with environment := e } with hsame | ⟨m', hcut, hprefix⟩
  · exact .inl (by simp only [Run.inEnvironment, hsame])
  · refine .inr ⟨{ m' with environment := m.environment }, ?_, hprefix⟩
    simp only [Run.inEnvironment, hcut]

theorem lookUp (name : Token) (distance : Option Nat) :
    CutOff (Run.lookUp name distance) (Run.lookUp name distance) := by
  refine reading fun m => ?_
  cases distance with
  | none => exact ofExcept _
  | some d => exact ofExcept _

theorem assign (name : Token) (distance : Option Nat) (v : Value) :
    CutOff (Run.assign name distance v) (Run.assign name distance v) :=
  reading fun _ => bind (ofExcept _) fun _ => modifying fun _ => rfl

theorem define (name : String) (v : Value) : CutOff (Run.define name v) (Run.define name v) :=
  bind (reading fun _ => pure _) fun _ => modifying fun _ => rfl

theorem newEnvironment (e : Environment) (b : Bindings Value) :
    CutOff (Run.newEnvironment e b) (Run.newEnvironment e b) := withStore _

theorem newClosure (name : Option String) (params : List Token) (body : List ResolvedStmt)
    (e : Environment) (isInitializer : Bool) :
    CutOff (Run.newClosure name params body e isInitializer)
      (Run.newClosure name params body e isInitializer) :=
  bind (withStore _) fun _ => pure _

theorem bindMethod (method : Closure) (receiver : Value) :
    CutOff (Run.bind method receiver) (Run.bind method receiver) :=
  bind (newEnvironment _ _) fun _ => bind (withStore _) fun _ => pure _

theorem getProperty (o : Object) (name : Token) :
    CutOff (Run.getProperty o name) (Run.getProperty o name) := by
  refine reading fun m => ?_
  cases (m.store.fields o).get? name.lexeme with
  | some v => exact pure v
  | none =>
    cases o.owner.methods.get? name.lexeme with
    | some method => exact bind (bindMethod method _) fun _ => pure _
    | none => exact throw _

theorem newMethods (e : Environment) (ms : List ResolvedMethod) (found : Bindings Closure) :
    CutOff (Run.newMethods e ms found) (Run.newMethods e ms found) := by
  induction ms generalizing found with
  | nil => exact pure found
  | cons m ms ih => exact bind (newClosure _ _ _ _ _) fun f => ih _

theorem loop {condition condition' : Run Bool} {body body' : Run Signal}
    {increment increment' : Run Unit} (hc : CutOff condition condition') (hb : CutOff body body')
    (hn : CutOff increment increment') (turns : Nat) :
    CutOff (Run.loop condition body increment turns)
      (Run.loop condition' body' increment' turns) := by
  induction turns with
  | zero => exact throw _
  | succ turns ih =>
    refine bind hc fun go => ?_
    cases go with
    | false => exact pure _
    | true =>
      refine bind hb fun signal => ?_
      cases signal with
      | breakLoop => exact pure _
      | returnValue v => exact pure _
      | proceed => exact bind hn fun _ => ih
      | continueLoop => exact bind hn fun _ => ih

theorem callAt {inv inv' : Invoke} (hi : ∀ f vs, CutOff (inv f vs) (inv' f vs)) (paren : Token)
    (f : Value) (vs : List Value) :
    CutOff (LoxScript.callAt inv paren f vs) (LoxScript.callAt inv' paren f vs) := by
  unfold LoxScript.callAt
  cases f.arity? with
  | none => exact throw _
  | some arity => exact ite (hi f vs) (throw _)

theorem assigned {current current' value value' : Run Value} (operator : Option Token)
    (hc : CutOff current current') (hv : CutOff value value') :
    CutOff (LoxScript.assigned operator current value)
      (LoxScript.assigned operator current' value') := by
  cases operator with
  | none => exact hv
  | some sign =>
    exact bind hc fun _ => bind (ofExcept _) fun _ => bind hv fun _ => ofExcept _

end CutOff
end Run

section Meaning

variable {turns : Nat} {inv inv' : Invoke}

mutual

theorem Expr.eval_cutOff (hi : ∀ f vs, (inv f vs).CutOff (inv' f vs)) :
    (e : ResolvedExpr) → (e.eval turns inv).CutOff (e.eval turns inv')
  | .literal _ => .pure _
  | .grouping inner => inner.eval_cutOff hi
  | .unary _ right => .bind (right.eval_cutOff hi) fun _ => .ite (.ofExcept _) (.pure _)
  | .binary left _ right =>
    .bind (left.eval_cutOff hi) fun _ => .bind (right.eval_cutOff hi) fun _ =>
      .ite (.pure _) (.ofExcept _)
  | .logical left _ right =>
    .bind (left.eval_cutOff hi) fun _ => .ite (.pure _) (right.eval_cutOff hi)
  | .variable name distance => .lookUp name distance
  | .assign name operator value distance =>
    .bind (.assigned operator (.lookUp name distance) (value.eval_cutOff hi)) fun v =>
      .bind (.assign name distance v) fun _ => .pure _
  | .call callee paren arguments =>
    .bind (callee.eval_cutOff hi) fun f => .bind (Expr.evalAll_cutOff hi arguments) fun vs =>
      .callAt hi paren f vs
  | .get object name => by
    refine .bind (object.eval_cutOff hi) fun v => ?_
    cases v with
    | object o => exact .getProperty o name
    | _ => exact .throw _
  | .set object name operator value => by
    refine .bind (object.eval_cutOff hi) fun v => ?_
    cases v with
    | object o =>
      exact .bind (.assigned operator (.getProperty o name) (value.eval_cutOff hi)) fun _ =>
        .bind (.modifying fun _ => rfl) fun _ => .pure _
    | _ => exact .throw _
  | .this keyword distance => .lookUp keyword distance
  | .function none _ _ =>
    .bind (.reading fun _ => .pure _) fun _ => .bind (.newClosure _ _ _ _ _) fun _ => .pure _
  | .function (some _) _ _ =>
    .bind (.reading fun _ => .pure _) fun _ => .bind (.newEnvironment _ _) fun _ =>
      .bind (.newClosure _ _ _ _ _) fun _ => .bind (.modifying fun _ => rfl) fun _ => .pure _

theorem Expr.evalAll_cutOff (hi : ∀ f vs, (inv f vs).CutOff (inv' f vs)) :
    (es : List ResolvedExpr) → (Expr.evalAll turns inv es).CutOff (Expr.evalAll turns inv' es)
  | [] => .pure _
  | e :: es =>
    .bind (e.eval_cutOff hi) fun _ => .bind (Expr.evalAll_cutOff hi es) fun _ => .pure _

theorem Stmt.exec_cutOff (hi : ∀ f vs, (inv f vs).CutOff (inv' f vs)) :
    (s : ResolvedStmt) → (s.exec turns inv).CutOff (s.exec turns inv')
  | .expression value => .bind (value.eval_cutOff hi) fun _ => .pure _
  | .print value => .bind (value.eval_cutOff hi) fun _ => .bind (.print _) fun _ => .pure _
  | .varDecl _ none => .bind (.define _ _) fun _ => .pure _
  | .varDecl _ (some value) =>
    .bind (value.eval_cutOff hi) fun _ => .bind (.define _ _) fun _ => .pure _
  | .block body =>
    .bind (.reading fun _ => .pure _) fun _ => .bind (.newEnvironment _ _) fun e =>
      .inEnvironment e (Stmt.execAll_cutOff hi body)
  | .ifElse condition yes none =>
    .bind (condition.eval_cutOff hi) fun _ => .ite (yes.exec_cutOff hi) (.pure _)
  | .ifElse condition yes (some no) =>
    .bind (condition.eval_cutOff hi) fun _ => .ite (yes.exec_cutOff hi) (no.exec_cutOff hi)
  | .loop condition body none =>
    .loop (.map _ (condition.eval_cutOff hi)) (body.exec_cutOff hi) (.pure _) _
  | .loop condition body (some increment) =>
    .loop (.map _ (condition.eval_cutOff hi)) (body.exec_cutOff hi)
      (.map _ (increment.eval_cutOff hi)) _
  | .breakLoop _ => .pure _
  | .continueLoop _ => .pure _
  | .returnFrom _ none => .pure _
  | .returnFrom _ (some value) => .bind (value.eval_cutOff hi) fun _ => .pure _
  | .functionDecl _ _ _ =>
    .bind (.reading fun _ => .pure _) fun _ => .bind (.newClosure _ _ _ _ _) fun _ =>
      .bind (.define _ _) fun _ => .pure _
  | .classDecl _ methods =>
    .bind (.define _ _) fun _ => .bind (.reading fun _ => .pure _) fun _ =>
      .bind (.newMethods _ methods _) fun _ => .bind (.withStore _) fun _ =>
        .bind (.define _ _) fun _ => .pure _

theorem Stmt.execAll_cutOff (hi : ∀ f vs, (inv f vs).CutOff (inv' f vs)) :
    (ss : List ResolvedStmt) → (Stmt.execAll turns inv ss).CutOff (Stmt.execAll turns inv' ss)
  | [] => .pure _
  | s :: ss => by
    refine .bind (s.exec_cutOff hi) fun signal => ?_
    cases signal with
    | proceed => exact Stmt.execAll_cutOff hi ss
    | breakLoop => exact .pure _
    | continueLoop => exact .pure _
    | returnValue v => exact .pure _

end

theorem Closure.call_cutOff (hi : ∀ f vs, (inv f vs).CutOff (inv' f vs)) (f : Closure)
    (vs : List Value) : (f.call turns inv vs).CutOff (f.call turns inv' vs) := by
  refine .bind (.newEnvironment _ _) fun e =>
    .bind (.inEnvironment e (Stmt.execAll_cutOff hi f.body)) fun signal => ?_
  refine .ite (.reading fun _ => .ofExcept _) ?_
  cases signal <;> exact .pure _

theorem Class.construct_cutOff (hi : ∀ f vs, (inv f vs).CutOff (inv' f vs)) (c : Class)
    (vs : List Value) : (c.construct turns inv vs).CutOff (c.construct turns inv' vs) := by
  refine .bind (.withStore _) fun o => ?_
  cases c.methods.get? initializerName with
  | none => exact .pure _
  | some method =>
    exact .bind (.bindMethod method _) fun f => .bind (f.call_cutOff hi vs) fun _ => .pure _

end Meaning

/-- One more level of calls on both sides. -/
theorem invoke_succ_cutOff {library : Library} {turns low high : Nat}
    (hi : ∀ f vs, (invoke library turns low f vs).CutOff (invoke library turns high f vs))
    (f : Value) (vs : List Value) :
    (invoke library turns (low + 1) f vs).CutOff (invoke library turns (high + 1) f vs) := by
  cases f with
  | function f => exact f.call_cutOff hi vs
  | klass c => exact c.construct_cutOff hi vs
  | native n => exact .silent fun _ => rfl
  | _ => exact .pure _

theorem invoke_cutOff (library : Library) (turns : Nat) {low high : Nat} (h : low ≤ high)
    (f : Value) (vs : List Value) :
    (invoke library turns low f vs).CutOff (invoke library turns high f vs) := by
  induction high generalizing low f vs with
  | zero =>
    obtain rfl := Nat.le_zero.mp h
    exact .throw _
  | succ high ih =>
    cases low with
    | zero => exact .tooDeep (invoke_succ_cutOff (ih (Nat.le_refl _)) f vs).prints
    | succ low => exact invoke_succ_cutOff (ih (Nat.le_of_succ_le_succ h)) f vs

/-- A host with another limit on the depth of calls. -/
def Host.limited (h : Host) (depth : Nat) : Host := { h with depth }

theorem Host.execProgram_cutOff (host : Host) {low high : Nat} (h : low ≤ high)
    (program : List ResolvedStmt) :
    ((host.limited low).execProgram program).CutOff ((host.limited high).execProgram program) := by
  induction program with
  | nil => exact .pure _
  | cons s ss ih =>
    exact .bind (s.exec_cutOff (invoke_cutOff host.library host.turns h)) fun _ => ih

namespace Session

/-- A session with another limit on the depth of calls. -/
def limited (s : Session) (depth : Nat) : Session := { s with host := s.host.limited depth }

/-- The same end of a step, in a session with another limit. -/
def relimited {α : Type} (depth : Nat) :
    EStateM.Result Escape Session α → EStateM.Result Escape Session α
  | .ok a s => .ok a (s.limited depth)
  | .error e s => .error e (s.limited depth)

theorem concluded_relimited (depth : Nat) (r : EStateM.Result Escape Session Unit) :
    concluded (relimited depth r) = relimited depth (concluded r) := by
  cases r <;> rfl

/-- Programs whose executions agree are interpreted alike. -/
theorem interpret_relimited {s : Session} {low high : Nat} {program : List ResolvedStmt}
    (h : (s.host.limited low).execProgram program s.machine =
      (s.host.limited high).execProgram program s.machine) :
    interpret program (s.limited high) = relimited high (interpret program (s.limited low)) := by
  simp only [interpret, limited, ← h]
  cases (s.host.limited low).execProgram program s.machine with
  | ok a m => rfl
  | error failure m => cases failure <;> rfl

/-- What is printed while a program is interpreted is printed by its execution. -/
theorem output_interpret (program : List ResolvedStmt) (s : Session) :
    (s.after (interpret program)).machine.output =
      (s.machine.after (s.host.execProgram program)).output := by
  simp only [after, interpret, Machine.after]
  cases s.host.execProgram program s.machine with
  | ok a m => rfl
  | error failure m => cases failure <;> rfl

/-- A run under a lower limit ends as under a higher one, or is cut off behind a first part of what
is printed there. -/
theorem run_cutOff (s : Session) (source path : String) {low high : Nat} (h : low ≤ high) :
    run source path (s.limited high) = relimited high (run source path (s.limited low)) ∨
      ∃ s', run source path (s.limited low) = .error .tooDeep s' ∧
        s'.machine.output <:+ ((s.limited high).after (run source path)).machine.output := by
  by_cases hsource : Accepted source
  · let program := (resolve (programOf source)).program
    rcases (s.host.execProgram_cutOff h program).agrees s.machine with hsame | ⟨m, hcut, hprefix⟩
    · have hrelimited := interpret_relimited (s := s.opened source path) hsame
      left
      rw [run_accepted hsource, run_accepted hsource, ← concluded_relimited]
      exact congrArg concluded hrelimited
    · have hlow : interpret program ((s.limited low).opened source path) =
          .error .tooDeep { (s.limited low).opened source path with machine := m } := by
        have hexec : (s.limited low).host.execProgram program (s.limited low).machine =
            .error .tooDeep m := hcut
        simp only [interpret, execProgram_opened, hexec]
        rfl
      right
      rw [run_accepted hsource, hlow, after_run hsource, output_interpret]
      exact ⟨_, rfl, hprefix⟩
  · obtain ⟨ds, -, hrun⟩ := run_refused hsource
    left
    rw [hrun, hrun]
    rfl

end Session

/-- A text printed latest last begins with what was printed earlier. -/
theorem Machine.printed_prefix {m m' : Machine} (h : m.output <:+ m'.output) :
    ∃ more, m'.printed = m.printed ++ more := by
  obtain ⟨later, hlater⟩ := h
  refine ⟨String.join later.reverse, ?_⟩
  rw [printed, printed, ← hlater, List.reverse_append, String.join_append]

/-- A lower limit on the depth of calls only cuts off. A run that ends under it otherwise than by
reaching it ends in the same way under a higher one, with everything that it leaves the same; and a
run that reaches it has printed a first part of what is printed under the higher one. -/
theorem session_callDepth (s : Session) (source path : String) {low high : Nat} (h : low ≤ high) :
    let below := s.limited low
    let above := s.limited high
    (below.ending (Session.run source path) ≠ .error .tooDeep →
        above.ending (Session.run source path) = below.ending (Session.run source path) ∧
          above.after (Session.run source path) =
            (below.after (Session.run source path)).limited high) ∧
      (below.ending (Session.run source path) = .error .tooDeep →
        ∃ more, (above.after (Session.run source path)).machine.printed =
          (below.after (Session.run source path)).machine.printed ++ more) := by
  intro below above
  rcases s.run_cutOff source path h with hsame | ⟨s', hcut, hprefix⟩
  · simp only [Session.ending, Session.after, above, below, hsame]
    cases Session.run source path (s.limited low) with
    | ok status s' => exact ⟨fun _ => ⟨rfl, rfl⟩, fun _ => ⟨"", String.append_empty.symm⟩⟩
    | error e s' => exact ⟨fun _ => ⟨rfl, rfl⟩, fun _ => ⟨"", String.append_empty.symm⟩⟩
  · have hending : below.ending (Session.run source path) = .error .tooDeep := by
      simp only [Session.ending, below, hcut]
    have hafter : below.after (Session.run source path) = s' := by
      simp only [Session.after, below, hcut]
    refine ⟨fun hnot => absurd hending hnot, fun _ => ?_⟩
    rw [hafter]
    exact Machine.printed_prefix hprefix

/-- Two calls nested in one another are cut off where one is allowed, and end where two are. -/
theorem session_callDepth_nested :
    let host : Host := ⟨.standard Nat.toFloat, callDepth, loopTurns⟩
    let s : Session := ⟨host, .start host.library.globals, .start true false⟩
    let nested := Session.run
      ("fun inner() \x7b print \x22b\x22; \x7d " ++
        "fun outer() \x7b print \x22a\x22; inner(); print \x22c\x22; \x7d outer();") promptPath
    1 ≤ 2 ∧ (s.limited 1).ending nested = .error .tooDeep ∧
      ((s.limited 1).after nested).machine.printed = "a\n" ∧
      (∃ more, ((s.limited 2).after nested).machine.printed =
        ((s.limited 1).after nested).machine.printed ++ more) ∧
      2 ≤ 3 ∧ (s.limited 2).ending nested = .ok .success ∧
      ((s.limited 2).after nested).machine.printed = "a\nb\nc\n" ∧
      (s.limited 3).ending nested = (s.limited 2).ending nested ∧
      (s.limited 3).after nested = ((s.limited 2).after nested).limited 3 := by
  intro host s nested
  have hcut : (s.limited 1).ending nested = .error .tooDeep := by decide +kernel
  have hends : (s.limited 2).ending nested = .ok .success := by decide +kernel
  have hnot : (s.limited 2).ending nested ≠ .error .tooDeep := by
    rw [hends]
    exact nofun
  obtain ⟨-, hprinted⟩ := session_callDepth s _ promptPath (show 1 ≤ 2 by decide)
  obtain ⟨hsame, -⟩ := session_callDepth s _ promptPath (show 2 ≤ 3 by decide)
  exact ⟨by decide, hcut, by decide +kernel, hprinted hcut, by decide, hends, by decide +kernel,
    hsame hnot⟩

end LoxScript
