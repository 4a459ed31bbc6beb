import LoxScript.Proofs.History
import LoxScript.Proofs.ScribedSteps

/-!
A scribe does what a traced run does, and keeps a sound state through expressions, statements and
calls.
-/
namespace LoxScript

open Tracer Scribe

/-- Lexemes that are identifiers do not have the name of the receiver. -/
theorem Token.Spells.ne_receiver {t : Token} (h : t.Spells nameKinds) : t.lexeme ≠ receiverName := by
  obtain ⟨hkind, hlexeme⟩ := h
  have hname : t.kind = .identifier := List.mem_singleton.mp hkind
  intro hthis
  rw [Token.IsLexeme, hname, hthis] at hlexeme
  generalize hvalue : t.literal = value at hlexeme
  generalize hcs : receiverName.toList = cs at hlexeme
  cases hlexeme with
  | identifier _ _ hword =>
    have hmem : receiverName ∈ Kind.keywords.map (·.1) := by decide
    rw [← hcs, String.ofList_toList] at hword
    exact hword hmem
  | operator hmem =>
    have hall : ∀ entry ∈ Kind.spellings, entry.2 ≠ .identifier := by decide
    exact hall _ hmem rfl
  | keyword hmem =>
    have hall : ∀ entry ∈ Kind.keywords, entry.2 ≠ .identifier := by decide
    exact hall _ hmem rfl

/-- What a call means does what its traced meaning does, and keeps a sound state. -/
def CallFollows (invoke : Value → List Value → Scribed Value)
    (invoke' : Value → List Value → Traced Value) : Prop :=
  ∀ s f vs, Scribe.Sound s → f.Known s → (∀ v ∈ vs, v.Known s) →
    (invoke f vs).Follows (invoke' f vs) s fun v u => v.Known u

namespace Scribed.Follows
variable {s : Scribe} {invoke : Value → List Value → Scribed Value}
  {invoke' : Value → List Value → Traced Value}

theorem callAt (hi : CallFollows invoke invoke') {paren : Token} {f : Value} {vs : List Value}
    (hs : s.Sound) (hf : f.Known s) (hvs : ∀ v ∈ vs, v.Known s) :
    (Scribed.callAt invoke paren f vs).Follows (Traced.callAt invoke' paren f vs) s
      fun v u => v.Known u := by
  simp only [Scribed.callAt, Traced.callAt]
  cases f.arity? with
  | none => exact throw hs
  | some arity =>
    refine ite ?_ (throw hs)
    exact afterNote hs ⟨hf, hvs⟩ (fun _ h => by cases h) (fun _ _ h => by cases h) fun u hu =>
      hi u f vs hu.sound (hf.mono hu.toExtends) fun v hv => (hvs v hv).mono hu.toExtends

end Scribed.Follows

section Meaning
variable {turns : Nat} {invoke : Value → List Value → Scribed Value}
  {invoke' : Value → List Value → Traced Value}

mutual

theorem Expr.scribe_follows (hi : CallFollows invoke invoke') {p : Path} {s : Scribe} :
    (e : ResolvedExpr) → e.Spelled → s.Sound →
      (e.scribe turns invoke p).Follows (e.trace turns invoke' p) s fun v u => v.Known u
  | .literal value, _, hs => .evaluating hs fun _ hu =>
    .pure hu.sound (.of_isData (by cases value <;> rfl))
  | .grouping inner, h, hs => .evaluating hs fun _ hu => inner.scribe_follows hi h hu.sound
  | .unary operator right, h, hs => .evaluating hs fun _ hu =>
    .bind (right.scribe_follows hi h.2 hu.sound) fun v _ hw _ =>
      .ite (.ofExcept hw.sound fun _ hv => .of_isData (Value.isData_negate hv))
        (.pure hw.sound trivial)
  | .binary left operator right, h, hs => .evaluating hs fun _ hu =>
    .bind (left.scribe_follows hi h.1 hu.sound) fun _ _ hw _ =>
      .bind (right.scribe_follows hi h.2.2 hw.sound) fun _ _ hx hb =>
        .ite (.pure hx.sound hb) (.apply hx.sound)
  | .logical left operator right, h, hs => .evaluating hs fun _ hu =>
    .bind (left.scribe_follows hi h.1 hu.sound) fun _ _ hw ha =>
      .ite (.pure hw.sound ha) (right.scribe_follows hi h.2.2 hw.sound)
  | .variable _ _, _, hs => .evaluating hs fun _ hu => .lookUp hu.sound
  | .this _ _, _, hs => .evaluating hs fun _ hu => .lookUp hu.sound
  | .assign name operator value _, h, hs => .evaluating hs fun _ hu =>
    .bind (.assigned hu.sound (.lookUp hu.sound) fun _ hw => value.scribe_follows hi h.2.2 hw.sound)
      fun _ _ hw hv => .bind (.visiting hw.sound fun _ hx =>
        .assign hx.sound h.1.ne_receiver (hv.mono hx.toExtends)) fun _ _ hx hv => .pure hx.sound hv
  | .call callee paren arguments, h, hs => .evaluating hs fun _ hu =>
    .bind (callee.scribe_follows hi h.1 hu.sound) fun _ _ hw hf =>
      .bind (Expr.scribeAll_follows hi 1 arguments h.2.2 hw.sound) fun _ _ hx hvs =>
        .callAt hi hx.sound (hf.mono hx.toExtends) hvs
  | .get object name, h, hs => .evaluating hs fun _ hu => by
    refine .bind (object.scribe_follows hi h.1 hu.sound) fun v w hw ho => ?_
    cases v with
    | object o => exact .getProperty hw.sound ho
    | _ => exact .throw hw.sound
  | .set object name operator value, h, hs => .evaluating hs fun _ hu => by
    refine .bind (object.scribe_follows hi h.1 hu.sound) fun v w hw ho => ?_
    cases v with
    | object o =>
      refine .bind (.assigned hw.sound (.getProperty hw.sound ho) fun _ hx =>
        value.scribe_follows hi h.2.2.2 hx.sound) fun _ _ hx hv => ?_
      exact .bind (.setField hx.sound hv) fun _ _ hy hv => .pure hy.sound hv
    | _ => exact .throw hw.sound
  | .function none params body, h, hs => .evaluating hs fun _ hu =>
    .current (.bind (.newClosure hu.sound hu.sound.here h.2.2) fun _ _ hw hf => .pure hw.sound hf.1)
  | .function (some name) params body, h, hs => .evaluating hs fun _ hu =>
    .current (.bind (.newEnvironment hu.sound hu.sound.here.toPlaced (.inr rfl)) fun _ _ hw he =>
      .bind (.newClosure hw.sound he h.2.2) fun _ _ hx hf =>
        .bind (.defineIn hx.sound (h.1 name rfl).ne_receiver hf.1) fun _ _ hy hf => .pure hy.sound hf)

theorem Expr.scribeAll_follows (hi : CallFollows invoke invoke') {p : Path} {s : Scribe} (i : Nat) :
    (es : List ResolvedExpr) → Expr.AllSpelled es → s.Sound →
      (Expr.scribeAll turns invoke p i es).Follows (Expr.traceAll turns invoke' p i es) s
        fun vs u => ∀ v ∈ vs, v.Known u
  | [], _, hs => .pure hs (List.forall_mem_nil _)
  | e :: es, h, hs =>
    .bind (e.scribe_follows hi h.1 hs) fun _ _ hu hv =>
      .bind (Expr.scribeAll_follows hi (i + 1) es h.2 hu.sound) fun _ _ hw hvs =>
        .pure hw.sound (List.forall_mem_cons.mpr ⟨hv.mono hw.toExtends, hvs⟩)

theorem Stmt.scribe_follows (hi : CallFollows invoke invoke') {p : Path} {s : Scribe} :
    (t : ResolvedStmt) → t.Spelled → s.Sound →
      (t.scribe turns invoke p).Follows (t.trace turns invoke' p) s
        fun signal u => signal.Known u
  | .expression value, h, hs => .visiting hs fun _ hu =>
    .bind (value.scribe_follows hi h hu.sound) fun _ _ hw _ => .pure hw.sound trivial
  | .print value, h, hs => .visiting hs fun _ hu =>
    .bind (value.scribe_follows hi h hu.sound) fun _ _ hw _ =>
      .bind (.print hw.sound) fun _ _ hx _ => .pure hx.sound trivial
  | .varDecl name none, h, hs => .visiting hs fun _ hu =>
    .bind (.define (v := .nil) hu.sound h.ne_receiver trivial) fun _ _ hw _ => .pure hw.sound trivial
  | .varDecl name (some value), h, hs => .visiting hs fun _ hu =>
    .bind (value.scribe_follows hi h.2 hu.sound) fun _ _ hw hv =>
      .bind (.define hw.sound h.1.ne_receiver hv) fun _ _ hx _ => .pure hx.sound trivial
  | .block body, h, hs => .visiting hs fun _ hu =>
    .current (.bind (.newEnvironment hu.sound hu.sound.here.toPlaced (.inl rfl)) fun _ _ hw he =>
      .inEnvironment hw.sound he (fun _ hx _ => Stmt.scribeAll_follows hi 0 body h hx)
        fun _ _ _ hext hsignal => hsignal.mono hext)
  | .ifElse condition yes none, h, hs => .visiting hs fun _ hu =>
    .bind (condition.scribe_follows hi h.1 hu.sound) fun _ _ hw _ =>
      .ite (yes.scribe_follows hi h.2 hw.sound) (.pure hw.sound trivial)
  | .ifElse condition yes (some no), h, hs => .visiting hs fun _ hu =>
    .bind (condition.scribe_follows hi h.1 hu.sound) fun _ _ hw _ =>
      .ite (yes.scribe_follows hi h.2.1 hw.sound) (no.scribe_follows hi h.2.2 hw.sound)
  | .loop condition body none, h, hs => .visiting hs fun _ hu =>
    .loop (fun _ hw => .map (condition.scribe_follows hi h.1 hw) fun _ _ _ => trivial)
      (fun _ hw => body.scribe_follows hi h.2 hw) (fun _ hw => .pure hw trivial) hu.sound turns
  | .loop condition body (some increment), h, hs => .visiting hs fun _ hu =>
    .loop (fun _ hw => .map (condition.scribe_follows hi h.1 hw) fun _ _ _ => trivial)
      (fun _ hw => body.scribe_follows hi h.2.1 hw)
      (fun _ hw => .map (increment.scribe_follows hi h.2.2 hw) fun _ _ _ => trivial) hu.sound turns
  | .breakLoop _, _, hs => .visiting hs fun _ hu => .pure hu.sound trivial
  | .continueLoop _, _, hs => .visiting hs fun _ hu => .pure hu.sound trivial
  | .returnFrom _ none, _, hs => .visiting hs fun _ hu => .pure hu.sound trivial
  | .returnFrom _ (some value), h, hs => .visiting hs fun _ hu =>
    .bind (value.scribe_follows hi h.2 hu.sound) fun _ _ hw hv => .pure hw.sound hv
  | .functionDecl name params body, h, hs => .visiting hs fun _ hu =>
    .current (.bind (.newClosure hu.sound hu.sound.here h.2.2) fun _ _ hw hf =>
      .bind (.define hw.sound h.1.ne_receiver hf.1) fun _ _ hx _ => .pure hx.sound trivial)
  | .classDecl name methods, h, hs => .visiting hs fun _ hu =>
    .bind (.define (v := .nil) hu.sound h.1.ne_receiver trivial) fun _ _ hw _ =>
      .current (.bind (.newMethods hw.sound hw.sound.here.toPlaced h.2 fun _ _ hf => by cases hf)
        fun _ _ hx hfound => .newClass hx.sound hfound fun c _ hy hc =>
          .bind (.define (v := .klass c) hy.sound h.1.ne_receiver hc) fun _ _ hz _ =>
            .pure hz.sound trivial)

theorem Stmt.scribeAll_follows (hi : CallFollows invoke invoke') {p : Path} {s : Scribe} (i : Nat) :
    (ss : List ResolvedStmt) → Stmt.AllSpelled ss → s.Sound →
      (Stmt.scribeAll turns invoke p i ss).Follows (Stmt.traceAll turns invoke' p i ss) s
        fun signal u => signal.Known u
  | [], _, hs => .pure hs trivial
  | t :: ts, h, hs => by
    refine .bind (t.scribe_follows hi h.1 hs) fun signal u hu hsignal => ?_
    cases signal with
    | proceed => exact Stmt.scribeAll_follows hi (i + 1) ts h.2 hu.sound
    | _ => exact .pure hu.sound hsignal

end

/-- A call of a function. An initializer gives back the instance to which it was bound. -/
theorem Closure.scribe_follows (hi : CallFollows invoke invoke') {s : Scribe} {f : Closure}
    {vs : List Value} (hs : s.Sound) (hf : f.Known s) (hvs : ∀ v ∈ vs, v.Known s) :
    (f.scribe turns invoke vs).Follows (f.trace turns invoke' vs) s fun v u => v.Known u := by
  have hnoted : (f.scribe turns invoke vs).Follows (f.trace turns invoke' vs) s
      fun v u => v.Known u ∧ f.environment.frame < u.size ∧
        (f.isInitializer → u.receiver? f.environment.frame = some v) := by
    refine .noting (.reading (.bind (.enter hs hf hvs) fun e u hu he => .bind
      (.inEnvironment hu.sound he (fun _ hw _ => Stmt.scribeAll_follows hi 0 f.body hf.spelled hw)
        fun _ _ _ hext hsignal => hsignal.mono hext) fun signal w hw hsignal => ?_))
      (fun _ _ _ hv => hv) (fun _ _ h => by cases h) (fun _ _ _ h => by cases h)
      fun v u w hext hv => ⟨hv.1.mono hext, hext.traced.allocated hv.2.1,
        fun hinit => (hext.receivers _ hv.2.1).trans (hv.2.2 hinit)⟩
    have hframe : f.environment.frame < w.size :=
      (hf.placed.mono (hu.trans hw).toExtends).frame_lt
    by_cases hinit : f.isInitializer
    · simp only [hinit, if_true]
      refine .reading (.ofExcept hw.sound fun v hv => ?_)
      have hreceiver : w.receiver? f.environment.frame = some v := by
        simp only [Store.getAt, Environment.frameAt, Environment.ancestor?, Environment.chain,
          List.getElem?_cons_zero] at hv
        split at hv
        next found hfound => cases hv; exact hfound
        next => cases hv
      exact ⟨hw.sound.now.values _ _ _ hreceiver, hframe, fun _ => hreceiver⟩
    · simp only [hinit]
      cases signal with
      | returnValue v => exact .pure hw.sound ⟨hsignal, hframe, fun h => by cases h⟩
      | _ => exact .pure hw.sound ⟨trivial, hframe, fun h => by cases h⟩
  exact hnoted.imp fun _ _ _ hv => hv.1

/-- A call of a class. What it gives is a new instance. -/
theorem Class.scribe_follows (hi : CallFollows invoke invoke') {s : Scribe} {c : Class}
    {vs : List Value} (hs : s.Sound) (hc : c.Known s) (hvs : ∀ v ∈ vs, v.Known s) :
    (c.scribe turns invoke vs).Follows (c.trace turns invoke' vs) s fun v u => v.Known u := by
  have hnoted : (c.scribe turns invoke vs).Follows (c.trace turns invoke' vs) s
      fun v u => v.Known u ∧ ∃ o, v = .object o ∧ o.owner = c ∧ ¬ s.machine.store.Has o := by
    refine .looking (.noting (.bind (.addObject hs hc) fun o u hu ho => ?_)
      (fun _ _ _ hv => hv.2) (fun _ _ h => by cases h) (fun _ _ _ h => by cases h)
      fun v u w hext hv => ⟨hv.1.mono hext, hv.2⟩)
    obtain ⟨hknown, rfl, hnew⟩ := ho
    cases hm : o.owner.methods.get? initializerName with
    | none => exact .pure hu.sound ⟨hknown, o, rfl, rfl, hnew⟩
    | some method =>
      refine .bind (.bindMethod hu.sound (hknown.2 _ _ hm) hknown ⟨_, hm⟩) fun f w hw hf => ?_
      have hargs : ∀ v ∈ vs, v.Known w := fun v hv => (hvs v hv).mono (hu.trans hw).toExtends
      refine .bind (f.scribe_follows hi hw.sound hf hargs) fun _ x hx _ => ?_
      exact .pure hx.sound ⟨hknown.mono (hw.trans hx).toExtends, o, rfl, rfl, hnew⟩
  exact hnoted.imp fun _ _ _ hv => hv.1

end Meaning

/-- Calls keep a sound state, however deeply they may nest. -/
theorem scribeCall_follows {library : Library} (hlib : library.Plain) (turns depth : Nat) :
    CallFollows (scribeCall library turns depth) (traceCall library turns depth) := by
  induction depth with
  | zero => exact fun s f vs hs _ _ => .throw hs
  | succ depth ih =>
    intro s f vs hs hf hvs
    cases f with
    | function f => exact f.scribe_follows ih hs hf hvs
    | klass c => exact c.scribe_follows ih hs hf hvs
    | native n => exact .answer hlib hs n vs
    | _ => exact .pure hs trivial

theorem Host.scribeProgram_follows {h : Host} (hlib : h.library.Plain) {p : Path} {s : Scribe}
    (i : Nat) {program : List ResolvedStmt} (hprogram : Stmt.AllSpelled program) (hs : s.Sound) :
    (h.scribeProgram p i program).Follows (h.traceProgram p i program) s fun _ _ => True := by
  induction program generalizing s i with
  | nil => exact .pure hs trivial
  | cons t ts ih =>
    exact .bind (t.scribe_follows (scribeCall_follows hlib h.turns h.depth) hprogram.1 hs)
      fun _ _ hu _ => ih (i + 1) hprogram.2 hu.sound

namespace Scribe
variable {s : Scribe} {h : Host}

/-- A sound state between two programs. -/
structure Rests (s : Scribe) : Prop extends s.Sound where
  root : s.machine.environment = .global

theorem Leads.rests {u : Scribe} (hu : s.Leads u) (hs : s.Rests) : u.Rests :=
  ⟨hu.sound, hu.environment.trans hs.root⟩

theorem start_rests {globals : Bindings Value}
    (hdata : ∀ name v, globals.get? name = some v → v.isData) : (start globals).Rests := by
  have hframes : (start globals).machine.store.frames = #[globals] := rfl
  have hplaced : Environment.global.Placed (start globals) := by
    refine ⟨fun a ha => ?_, fun f e hf => by cases hf⟩
    obtain rfl : a = 0 := List.mem_singleton.mp ha
    simp [Moment.size, hframes]
  have hvalues : ∀ a name v, ((start globals).frame a).get? name = some v →
      v.Known (start globals) := by
    intro a name v hv
    simp only [Moment.frame, Store.frame, hframes] at hv
    by_cases ha : a = 0
    · subst ha
      exact .of_isData (hdata name v (by simpa using hv))
    · have hnone : #[globals][a]? = none := by simpa using ha
      rw [hnone] at hv
      cases hv
  refine ⟨⟨List.forall_mem_singleton.mpr ?_, List.forall_mem_nil _, ?_, hplaced, ?_⟩, rfl⟩
  · exact ⟨Nat.le_refl _, fun _ _ => rfl, fun _ _ => rfl, hplaced, hvalues,
      fun o name v hv => by cases hv⟩
  · intro a p names h
    cases h
  · rintro ⟨site, hsite, -⟩
    cases hsite

theorem interpret_rests (hlib : h.library.Plain) (number : Nat) {program : List ResolvedStmt}
    (hprogram : Stmt.AllSpelled program) (hs : s.Rests) :
    (s.interpret h number program).Rests ∧
      (s.interpret h number program).toTracer = s.toTracer.interpret h number program := by
  have hrun := h.scribeProgram_follows (p := [number]) hlib 0 hprogram hs.toSound
  simp only [Scribed.Follows] at hrun
  simp only [interpret, Tracer.interpret]
  cases hresult : h.scribeProgram [number] 0 program s with
  | ok a u =>
    rw [hresult] at hrun
    rw [hrun.1]
    exact ⟨hrun.2.1.rests hs, rfl⟩
  | error failure u =>
    rw [hresult] at hrun
    rw [hrun.1]
    have hu := hrun.2.rests hs
    cases failure with
    | fault token cause =>
      have hhere := hu.here
      rw [hu.root] at hhere
      exact ⟨⟨hu.toSound.moved hhere, rfl⟩, rfl⟩
    | _ => exact ⟨hu, rfl⟩

/-- A scribe follows the traced history of programs, and its state stays sound. -/
theorem interpretAll_rests (hlib : h.library.Plain) (number : Nat) {programs : List (List RawStmt)}
    (hprograms : ∀ program ∈ programs, Stmt.AllSpelled (resolve program).program) (hs : s.Rests) :
    (s.interpretAll h number programs).Rests ∧
      (s.interpretAll h number programs).toTracer = s.toTracer.interpretAll h number programs := by
  induction programs generalizing s number with
  | nil => exact ⟨hs, rfl⟩
  | cons program rest ih =>
    obtain ⟨hprogram, hrest⟩ := List.forall_mem_cons.mp hprograms
    obtain ⟨hnext, htracer⟩ := interpret_rests hlib number hprogram hs
    obtain ⟨hlast, hall⟩ := ih (number + 1) hrest hnext
    refine ⟨hlast, hall.trans ?_⟩
    rw [htracer]
    rfl

end Scribe
end LoxScript
