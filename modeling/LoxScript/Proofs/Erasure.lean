import LoxScript.Proofs.Trace

/-!
What a traced run notes has no influence on what it does.
-/
namespace LoxScript
namespace Traced

/-- A traced step does what a step of a run does: it ends in the same way, with the same machine. -/
def Erases {α : Type} (c : Traced α) (r : Run α) : Prop :=
  ∀ t, r t.machine = match c t with
    | .ok a t' => .ok a t'.machine
    | .error failure t' => .error failure t'.machine

namespace Erases
variable {α β : Type}

theorem pure (a : α) : Erases (Pure.pure a) (Pure.pure a) := fun _ => rfl

theorem throw (failure : Failure) :
    @Erases α (MonadExcept.throw failure) (MonadExcept.throw failure) := fun _ => rfl

theorem bind {c : Traced α} {r : Run α} {k : α → Traced β} {l : α → Run β} (hc : Erases c r)
    (hk : ∀ a, Erases (k a) (l a)) : Erases (c >>= k) (r >>= l) := by
  intro t
  have h := hc t
  simp only [Bind.bind, EStateM.bind, h]
  cases c t with
  | ok a t' => exact hk a t'
  | error failure t' => rfl

theorem map {c : Traced α} {r : Run α} (f : α → β) (hc : Erases c r) :
    Erases (f <$> c) (f <$> r) := by
  intro t
  have h := hc t
  simp only [Functor.map, EStateM.map, h]
  cases c t <;> rfl

theorem lift (r : Run α) : Erases (Traced.lift r) r := by
  intro t
  simp only [Traced.lift]
  cases r t.machine <;> rfl

theorem visiting {c : Traced α} {r : Run α} (p : Path) (n : Node (Option Nat)) (hc : Erases c r) :
    Erases (Traced.visiting p n c) r :=
  fun t => hc { t with visits := ⟨t.toMoment, p, n⟩ :: t.visits }

theorem apply (token : Token) (operator : Kind) (left right : Value) :
    Erases (Traced.apply token operator left right)
      (Run.ofExcept (Value.apply token operator left right)) :=
  fun t => lift _ { t with applied := ⟨operator, left, right⟩ :: t.applied }

theorem inEnvironment {c : Traced α} {r : Run α} (e : Environment) (hc : Erases c r) :
    Erases (Traced.inEnvironment e c) (Run.inEnvironment e r) := by
  intro t
  have h := hc { t with machine := { t.machine with environment := e } }
  simp only [Traced.inEnvironment, Run.inEnvironment, h]
  cases c { t with machine := { t.machine with environment := e } } <;> rfl

theorem ite {q : Prop} [Decidable q] {c d : Traced α} {r s : Run α} (hc : Erases c r)
    (hd : Erases d s) : Erases (if q then c else d) (if q then r else s) := by
  split
  · exact hc
  · exact hd

/-- Notes that leave the machine alone do not show. -/
theorem note {c : Traced α} {r : Run α} {f : α → Tracer → Tracer}
    (hf : ∀ a t, (f a t).machine = t.machine) (hc : Erases c r) :
    Erases (c >>= fun a => do modify (f a); return a) r := by
  intro t
  have h := hc t
  simp only [Bind.bind, EStateM.bind, h]
  cases c t with
  | ok a t' => exact congrArg (EStateM.Result.ok a) (hf a t').symm
  | error failure t' => rfl

theorem newEnvironment (site : Site) (e : Environment) (b : Bindings Value) :
    Erases (Traced.newEnvironment site e b) (Run.newEnvironment e b) :=
  note (fun _ _ => rfl) (lift _)

theorem newClosure (p : Path) (name : Option String) (params : List Token)
    (body : List ResolvedStmt) (e : Environment) (isInitializer : Bool) :
    Erases (Traced.newClosure p name params body e isInitializer)
      (Run.newClosure name params body e isInitializer) :=
  note (fun _ _ => rfl) (lift _)

/-- What a step reads of the state before it may depend on the notes. -/
theorem reading {k : Tracer → Traced α} {r : Run α} (hk : ∀ t, Erases (k t) r) :
    Erases (get >>= k) r := fun t => hk t t

theorem readingMachine {k : Tracer → Traced α} {l : Machine → Run α}
    (hk : ∀ t, Erases (k t) (l t.machine)) : Erases (get >>= k) (get >>= l) := fun t => hk t t

theorem bindMethod (method : Closure) (receiver : Value) :
    Erases (Traced.bind method receiver) (Run.bind method receiver) :=
  reading fun _ => note (fun _ _ => rfl) (lift _)

theorem getProperty (o : Object) (name : Token) :
    Erases (Traced.getProperty o name) (Run.getProperty o name) := by
  refine readingMachine fun t => ?_
  cases (t.machine.store.fields o).get? name.lexeme with
  | some v => exact pure v
  | none =>
    cases o.owner.methods.get? name.lexeme with
    | some method => exact bind (bindMethod method _) fun f => pure _
    | none => exact throw _

theorem newMethods (p : Path) (e : Environment) (i : Nat) (ms : List ResolvedMethod)
    (found : Bindings Closure) :
    Erases (Traced.newMethods p e i ms found) (Run.newMethods e ms found) := by
  induction ms generalizing i found with
  | nil => exact pure found
  | cons m ms ih => exact bind (newClosure _ _ _ _ _ _) fun f => ih (i + 1) _

theorem loop {condition : Traced Bool} {body : Traced Signal} {increment : Traced Unit}
    {c : Run Bool} {b : Run Signal} {n : Run Unit} (hc : Erases condition c) (hb : Erases body b)
    (hn : Erases increment n) (turns : Nat) :
    Erases (Traced.loop condition body increment turns) (Run.loop c b n turns) := by
  induction turns with
  | zero => exact throw _
  | succ turns ih =>
    refine bind hc fun go => ?_
    cases go with
    | false => exact pure _
    | true =>
      refine bind hb fun signal => ?_
      cases signal with
      | breakLoop => exact pure _
      | returnValue v => exact pure _
      | proceed => exact bind hn fun _ => ih
      | continueLoop => exact bind hn fun _ => ih

theorem callAt {invoke : Value → List Value → Traced Value} {inv : Invoke}
    (hi : ∀ v vs, Erases (invoke v vs) (inv v vs)) (paren : Token) (f : Value) (vs : List Value) :
    Erases (Traced.callAt invoke paren f vs) (LoxScript.callAt inv paren f vs) := by
  simp only [Traced.callAt, LoxScript.callAt]
  cases f.arity? with
  | none => exact throw _
  | some arity =>
    exact ite (hi f vs) (throw _)

theorem assigned {current value : Traced Value} {c v : Run Value} (operator : Option Token)
    (hc : Erases current c) (hv : Erases value v) :
    Erases (Traced.assigned operator current value) (LoxScript.assigned operator c v) := by
  cases operator with
  | none => exact hv
  | some sign => exact bind hc fun _ => bind (lift _) fun _ => bind hv fun _ => apply _ _ _ _

end Erases
end Traced

section Meaning

variable {turns : Nat} {invoke : Value → List Value → Traced Value} {inv : Invoke}

mutual

theorem Expr.trace_erases (hi : ∀ v vs, (invoke v vs).Erases (inv v vs)) (p : Path) :
    (e : ResolvedExpr) → (e.trace turns invoke p).Erases (e.eval turns inv)
  | .literal _ => .visiting _ _ (.pure _)
  | .grouping inner => .visiting _ _ (inner.trace_erases hi _)
  | .unary operator right => by
    refine .visiting _ _ (.bind (right.trace_erases hi _) fun v => ?_)
    exact .ite (.lift _) (.pure _)
  | .binary left operator right => by
    refine .visiting _ _ (.bind (left.trace_erases hi _) fun a =>
      .bind (right.trace_erases hi _) fun b => ?_)
    exact .ite (.pure _) (.apply _ _ _ _)
  | .logical left operator right => by
    refine .visiting _ _ (.bind (left.trace_erases hi _) fun a => ?_)
    exact .ite (.pure _) (right.trace_erases hi _)
  | .variable _ _ => .visiting _ _ (.lift _)
  | .assign _ operator value _ =>
    .visiting _ _ (.bind (.assigned operator (.lift _) (value.trace_erases hi _)) fun _ =>
      .bind (.visiting _ _ (.lift _)) fun _ => .pure _)
  | .call callee paren arguments =>
    .visiting _ _ (.bind (callee.trace_erases hi _) fun f =>
      .bind (Expr.traceAll_erases hi p 1 arguments) fun vs => .callAt hi paren f vs)
  | .get object name => by
    refine .visiting _ _ (.bind (object.trace_erases hi _) fun v => ?_)
    cases v with
    | object o => exact .getProperty o name
    | _ => exact .throw _
  | .set object name operator value => by
    refine .visiting _ _ (.bind (object.trace_erases hi _) fun v => ?_)
    cases v with
    | object o =>
      exact .bind (.assigned operator (.getProperty o name) (value.trace_erases hi _)) fun _ =>
        .bind (.lift _) fun _ => .pure _
    | _ => exact .throw _
  | .this _ _ => .visiting _ _ (.lift _)
  | .function none _ _ =>
    .visiting _ _ (.bind (.lift _) fun _ => .bind (.newClosure _ _ _ _ _ _) fun _ => .pure _)
  | .function (some _) _ _ =>
    .visiting _ _ (.bind (.lift _) fun _ => .bind (.newEnvironment _ _ _) fun _ =>
      .bind (.newClosure _ _ _ _ _ _) fun _ => .bind (.lift _) fun _ => .pure _)

theorem Expr.traceAll_erases (hi : ∀ v vs, (invoke v vs).Erases (inv v vs)) (p : Path) (i : Nat) :
    (es : List ResolvedExpr) →
      (Expr.traceAll turns invoke p i es).Erases (Expr.evalAll turns inv es)
  | [] => .pure _
  | e :: es =>
    .bind (e.trace_erases hi _) fun _ =>
      .bind (Expr.traceAll_erases hi p (i + 1) es) fun _ => .pure _

theorem Stmt.trace_erases (hi : ∀ v vs, (invoke v vs).Erases (inv v vs)) (p : Path) :
    (s : ResolvedStmt) → (s.trace turns invoke p).Erases (s.exec turns inv)
  | .expression value => .visiting _ _ (.bind (value.trace_erases hi _) fun _ => .pure _)
  | .print value =>
    .visiting _ _ (.bind (value.trace_erases hi _) fun _ => .bind (.lift _) fun _ => .pure _)
  | .varDecl _ none => .visiting _ _ (.bind (.lift _) fun _ => .pure _)
  | .varDecl _ (some value) =>
    .visiting _ _ (.bind (value.trace_erases hi _) fun _ => .bind (.lift _) fun _ => .pure _)
  | .block body =>
    .visiting _ _ (.bind (.lift _) fun _ => .bind (.newEnvironment _ _ _) fun e =>
      .inEnvironment e (Stmt.traceAll_erases hi p 0 body))
  | .ifElse condition yes none => by
    refine .visiting _ _ (.bind (condition.trace_erases hi _) fun v => ?_)
    exact .ite (yes.trace_erases hi _) (.pure _)
  | .ifElse condition yes (some no) => by
    refine .visiting _ _ (.bind (condition.trace_erases hi _) fun v => ?_)
    exact .ite (yes.trace_erases hi _) (no.trace_erases hi _)
  | .loop condition body none =>
    .visiting _ _ (.loop (.map _ (condition.trace_erases hi _)) (body.trace_erases hi _) (.pure _) _)
  | .loop condition body (some increment) =>
    .visiting _ _ (.loop (.map _ (condition.trace_erases hi _)) (body.trace_erases hi _)
      (.map _ (increment.trace_erases hi _)) _)
  | .breakLoop _ => .visiting _ _ (.pure _)
  | .continueLoop _ => .visiting _ _ (.pure _)
  | .returnFrom _ none => .visiting _ _ (.pure _)
  | .returnFrom _ (some value) => .visiting _ _ (.bind (value.trace_erases hi _) fun _ => .pure _)
  | .functionDecl _ _ _ =>
    .visiting _ _ (.bind (.lift _) fun _ => .bind (.newClosure _ _ _ _ _ _) fun _ =>
      .bind (.lift _) fun _ => .pure _)
  | .classDecl _ methods =>
    .visiting _ _ (.bind (.lift _) fun _ => .bind (.lift _) fun _ =>
      .bind (.newMethods _ _ 0 methods _) fun _ => .bind (.lift _) fun _ =>
        .bind (.lift _) fun _ => .pure _)

theorem Stmt.traceAll_erases (hi : ∀ v vs, (invoke v vs).Erases (inv v vs)) (p : Path) (i : Nat) :
    (ss : List ResolvedStmt) →
      (Stmt.traceAll turns invoke p i ss).Erases (Stmt.execAll turns inv ss)
  | [] => .pure _
  | s :: ss => by
    refine .bind (s.trace_erases hi _) fun signal => ?_
    cases signal with
    | proceed => exact Stmt.traceAll_erases hi p (i + 1) ss
    | _ => exact .pure _

end

theorem Closure.trace_erases (hi : ∀ v vs, (invoke v vs).Erases (inv v vs)) (f : Closure)
    (vs : List Value) : (f.trace turns invoke vs).Erases (f.call turns inv vs) := by
  refine .reading fun t => .bind (.newEnvironment _ _ _) fun e =>
    .bind (.inEnvironment e (Stmt.traceAll_erases hi _ 0 f.body)) fun signal => ?_
  cases f.isInitializer with
  | true => exact .readingMachine fun _ => .lift _
  | false => cases signal <;> exact .pure _

theorem Class.trace_erases (hi : ∀ v vs, (invoke v vs).Erases (inv v vs)) (c : Class)
    (vs : List Value) : (c.trace turns invoke vs).Erases (c.construct turns inv vs) := by
  refine .bind (.lift _) fun o => ?_
  cases c.methods.get? initializerName with
  | none => exact .pure _
  | some method =>
    exact .bind (.bindMethod method _) fun f => .bind (f.trace_erases hi vs) fun _ => .pure _

end Meaning

theorem traceCall_erases (library : Library) (turns depth : Nat) (v : Value) (vs : List Value) :
    (traceCall library turns depth v vs).Erases (invoke library turns depth v vs) := by
  induction depth generalizing v vs with
  | zero => exact .throw _
  | succ depth ih =>
    cases v with
    | function f => exact f.trace_erases ih vs
    | klass c => exact c.trace_erases ih vs
    | native n => exact .lift _
    | _ => exact .pure _

/-- Without its notes, a traced run of a program is the run of it. -/
theorem Host.traceProgram_erases (h : Host) (p : Path) (i : Nat) (program : List ResolvedStmt) :
    (h.traceProgram p i program).Erases (h.execProgram program) := by
  induction program generalizing i with
  | nil => exact .pure _
  | cons s ss ih =>
    exact .bind (s.trace_erases (traceCall_erases h.library h.turns h.depth) _) fun _ => ih (i + 1)

end LoxScript
