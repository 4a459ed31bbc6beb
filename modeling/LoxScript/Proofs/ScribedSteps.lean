import LoxScript.Proofs.Conduct
import LoxScript.Proofs.Custody

/-!
The operations of a scribe. Each does what the one of a traced run does, and keeps a sound state.
-/
namespace LoxScript

open Tracer Scribe

namespace Scribe

def noted (s : Scribe) (event : Event) : Scribe := { s with events := event :: s.events }

def addFrame (s : Scribe) (site : Site) (b : Bindings Value) : Scribe :=
  { s with toTracer := s.toTracer.addFrame site b }

def addClosure (s : Scribe) (p : Path) : Scribe := { s with toTracer := s.toTracer.addClosure p }

def define (s : Scribe) (a : Address) (name : String) (v : Value) : Scribe :=
  { s with toTracer := s.toTracer.define a name v }

def moved (s : Scribe) (e : Environment) : Scribe :=
  { s with machine := { s.machine with environment := e } }

variable {s u : Scribe} {event : Event}

theorem Extends.noted (h : s.Extends u)
    (hm : ∀ f, event = .method f → s.machine.store.identities ≤ f.identity)
    (he : ∀ f e, event = .entered f e → s.size ≤ e.frame) : s.Extends (u.noted event) where
  traced := h.traced
  instances := h.instances
  receivers := h.receivers
  events event hold := List.mem_cons_of_mem _ (h.events event hold)
  methods f hf := by
    rcases List.mem_cons.mp hf with hnew | hold
    · exact .inr (hm f hnew.symm)
    · exact h.methods f hold
  entered f e hf := by
    rcases List.mem_cons.mp hf with hnew | hold
    · exact .inr (he f e hnew.symm)
    · exact h.entered f e hold

/-- A traced step that writes nothing else down and keeps all receivers. -/
theorem Extends.traced_step {t : Tracer} (ht : s.toTracer.Extends t)
    (hinstances : s.instances ≤ t.instances) (hreceivers : ∀ a < s.size, t.receiver? a = s.receiver? a) :
    s.Extends { s with toTracer := t } :=
  ⟨ht, hinstances, hreceivers, fun _ h => h, fun _ h => .inl h, fun _ _ h => .inl h⟩

/-- A traced step that leaves the store as it is. -/
theorem Extends.still {t : Tracer} (hstore : t.machine.store = s.machine.store)
    (hsite : t.site = s.site) (horigin : t.origin = s.origin) :
    s.Extends { s with toTracer := t } := by
  have hsize : t.size = s.size := by rw [Moment.size, hstore]; rfl
  have hframe (a : Address) : t.frame a = s.frame a := by rw [Moment.frame, hstore]; rfl
  refine .traced_step ⟨hsize.ge, ?_, fun a _ => by rw [hsite], fun i _ => by rw [horigin], ?_⟩ ?_ ?_
  · rw [hstore]
  · intro a name h
    rwa [hframe]
  · rw [Moment.instances, Moment.instances, hstore]
  · intro a _
    rw [Moment.receiver?, hframe]
    rfl

theorem Extends.addFrame (s : Scribe) (site : Site) (b : Bindings Value) :
    s.Extends (s.addFrame site b) :=
  .traced_step (.addFrame _ _ _) (Nat.le_refl _) fun _ ha =>
    congrArg (·.get? receiverName) (frame_addFrame_of_lt ha site b)

theorem Extends.addClosure (s : Scribe) (p : Path) : s.Extends (s.addClosure p) :=
  .traced_step (.addClosure _ _) (Nat.le_refl _) fun _ _ => rfl

/-- A definition of another name leaves all receivers as they are. -/
theorem receiver?_define {name : String} (hname : name ≠ receiverName) (s : Scribe) (a b : Address)
    (v : Value) : (s.define a name v).receiver? b = s.receiver? b := by
  simp only [Moment.receiver?, Moment.frame, define, Tracer.define]
  by_cases hb : b = a
  · subst hb
    by_cases hlt : b < s.machine.store.frames.size
    · rw [Store.frame_define_self _ hlt, Bindings.get?_set_of_ne _ _ hname.symm]
    · rw [Store.frame_of_size_le _ (by simpa using Nat.not_lt.mp hlt),
        Store.frame_of_size_le _ (Nat.not_lt.mp hlt)]
  · rw [Store.frame_define_of_ne _ hb]

theorem Extends.define {name : String} (hname : name ≠ receiverName) (s : Scribe) (a : Address)
    (v : Value) : s.Extends (s.define a name v) :=
  .traced_step (.define _ _ _ _) (Nat.le_refl _) fun b _ => receiver?_define hname s a b v

theorem Extends.moved (s : Scribe) (e : Environment) : s.Extends (s.moved e) := .still rfl rfl rfl

theorem size_addFrame (s : Scribe) (site : Site) (b : Bindings Value) :
    (s.addFrame site b).size = s.size + 1 := Tracer.size_addFrame _ _ _

theorem Extends.of_noted (hm : ∀ f, event ≠ .method f) (he : ∀ f e, event ≠ .entered f e) :
    s.Extends (s.noted event) :=
  (Extends.refl s).noted (fun f hf => absurd hf (hm f)) fun f e hf => absurd hf (he f e)

/-- A note about what is known once it has been made. -/
theorem Leads.recorded (hs : s.Sound) (hext : s.Extends (s.noted event))
    (hk : event.Known (s.noted event)) : s.Leads (s.noted event) := by
  refine .build hs hext rfl (fun _ h => .inl h) (fun _ _ _ h => .inl h) (fun _ _ _ h => .inl h)
    (fun other h => ?_) fun _ _ _ h => .inl h
  rcases List.mem_cons.mp h with rfl | hold
  · exact .inr hk
  · exact .inl hold

/-- A note about what is known. -/
theorem Leads.noted (hs : s.Sound) (hk : event.Known s) (hm : ∀ f, event ≠ .method f)
    (he : ∀ f e, event ≠ .entered f e) : s.Leads (s.noted event) := by
  have hext : s.Extends (s.noted event) := .of_noted hm he
  exact .recorded hs hext (hk.mono hs hext)

/-- A step that changes neither frames nor environments. -/
theorem Leads.machine {m : Machine} (hs : s.Sound)
    (hframes : m.store.frames = s.machine.store.frames)
    (hidentities : s.machine.store.identities ≤ m.store.identities)
    (hobjects : s.machine.store.objects.size ≤ m.store.objects.size)
    (henv : m.environment = s.machine.environment)
    (hfields : ∀ o name v, (m.store.fields o).get? name = some v →
      (s.machine.store.fields o).get? name = some v ∨ v.Known s) :
    s.Leads { s with machine := m } := by
  have hframe (a : Address) : Moment.frame { s.toMoment with machine := m } a = s.frame a := by
    simp only [Moment.frame, Store.frame, hframes]
  have he : s.Extends { s with machine := m } := by
    refine .traced_step ⟨?_, hidentities, fun _ _ => rfl, fun _ _ => rfl, fun a name h => ?_⟩ hobjects
      fun a _ => congrArg (·.get? receiverName) (hframe a)
    · simp only [Moment.size, hframes, Nat.le_refl]
    · rwa [hframe a]
  refine .build hs he henv (fun _ h => .inl h) (fun a name v h => ?_)
    (fun o name v h => (hfields o name v h).imp_right fun hv => hv.mono he) (fun _ h => .inl h)
    fun _ _ _ h => .inl h
  exact .inl (hframe a ▸ h)

theorem Leads.visit (hs : s.Sound) (p : Path) (n : Node (Option Nat)) :
    s.Leads { s with visits := ⟨s.toMoment, p, n⟩ :: s.visits } := by
  have he : s.Extends { s with visits := ⟨s.toMoment, p, n⟩ :: s.visits } := .still rfl rfl rfl
  refine .build hs he rfl (fun v hv => ?_) (fun _ _ _ h => .inl h) (fun _ _ _ h => .inl h)
    (fun _ h => .inl h) fun _ _ _ h => .inl h
  rcases List.mem_cons.mp hv with rfl | hold
  · exact .inr rfl
  · exact .inl hold

theorem Leads.define {name : String} {v : Value} (hname : name ≠ receiverName) (hs : s.Sound)
    (hv : v.Known s) (a : Address) : s.Leads (s.define a name v) := by
  have he : s.Extends (s.define a name v) := .define hname s a v
  refine .build hs he rfl (fun _ h => .inl h) (fun b other w h => ?_) (fun _ _ _ h => .inl h)
    (fun _ h => .inl h) fun _ _ _ h => .inl h
  rcases Store.get?_frame_define _ h with ⟨-, -, rfl⟩ | hold
  · exact .inr (hv.mono he)
  · exact .inl hold

theorem Leads.addClosure (hs : s.Sound) (p : Path) : s.Leads (s.addClosure p) := by
  refine .build hs (.addClosure s p) rfl (fun _ h => .inl h) (fun _ _ _ h => .inl h)
    (fun _ _ _ h => .inl h) (fun _ h => .inl h) fun _ _ _ h => .inl h

/-- The environment with a frame that was just made. -/
theorem inner_placed {e : Environment} {site : Site} {b : Bindings Value} (hs : s.Sound)
    (he : e.Placed s) : (e.inner s.size).Placed (s.addFrame site b) := by
  have hmono := he.mono (.addFrame s site b)
  constructor
  · refine List.forall_mem_cons.mpr ⟨?_, hmono.allocated⟩
    rw [size_addFrame]
    exact Nat.lt_succ_self _
  · intro f e' hf inner outer hchain
    cases inner with
    | nil =>
      have hframe : s.size = e'.frame := (List.cons.inj hchain).1
      have hlt : e'.frame < s.size := (hs.events _ hf).2.1
      exact absurd hlt (hframe ▸ Nat.lt_irrefl _)
    | cons a inner => exact he.entered f e' hf inner outer (List.cons.inj hchain).2

theorem ofReceiver_addFrame (s : Scribe) (site : Site) (b : Bindings Value) :
    (s.addFrame site b).OfReceiver s.size ↔ site.form = .receiver := by
  simp [Moment.OfReceiver, addFrame, Tracer.addFrame]

theorem inner_open {e : Environment} {site : Site} {b : Bindings Value} (hs : s.Sound)
    (he : e.Placed s) (hsite : site.form ≠ .receiver) :
    (e.inner s.size).Open (s.addFrame site b) :=
  ⟨inner_placed hs he, fun hof => hsite ((ofReceiver_addFrame s site b).mp hof)⟩

/-- The environment of a call that was written down. -/
theorem entered_placed {f : Closure} {site : Site} {b : Bindings Value} (hs : s.Sound)
    (hf : f.environment.Placed s) : (f.environment.inner s.size).Placed
      ((s.addFrame site b).noted (.entered f (f.environment.inner s.size))) := by
  have hinner : (f.environment.inner s.size).Placed (s.addFrame site b) := inner_placed hs hf
  refine ⟨hinner.allocated, fun g e hg inner outer hchain => ?_⟩
  rcases List.mem_cons.mp hg with hnew | hold
  · cases hnew
    cases inner with
    | nil => exact (List.cons.inj hchain).2.symm
    | cons a inner =>
      have htail : f.environment.chain = inner ++ s.size :: outer := (List.cons.inj hchain).2
      have hlt : s.size < s.size := hf.allocated s.size (by simp [htail])
      exact absurd hlt (Nat.lt_irrefl _)
  · exact hinner.entered g e hold inner outer hchain

/-- What an added frame binds is known if its bindings are. -/
theorem known_addFrame {site : Site} {b : Bindings Value} (hext : s.Extends u)
    (hframe : ∀ a, u.frame a = (s.addFrame site b).frame a)
    (hb : ∀ name v, b.get? name = some v → v.Known s) (a : Address) (name : String) (v : Value)
    (h : (u.frame a).get? name = some v) : (s.frame a).get? name = some v ∨ v.Known u := by
  rw [hframe] at h
  rcases Store.get?_frame_addFrame _ h with ⟨-, hnew⟩ | hold
  · exact .inr ((hb name v hnew).mono hext)
  · exact .inl hold

/-- A frame that is not one of a call. -/
theorem Leads.addFrame {site : Site} {b : Bindings Value} (hs : s.Sound) (hsite : site.form ≠ .body)
    (hb : ∀ name v, b.get? name = some v → v.Known s) : s.Leads (s.addFrame site b) := by
  have hext : s.Extends (s.addFrame site b) := .addFrame s site b
  refine .build hs hext rfl (fun _ h => .inl h) (known_addFrame hext (fun _ => rfl) hb)
    (fun _ _ _ h => .inl h) (fun _ h => .inl h) fun a p names h => ?_
  simp only [Scribe.addFrame, Tracer.addFrame, Function.update_apply] at h
  split at h
  · cases h
    exact absurd rfl hsite
  · exact .inl h

theorem Sound.moved {e : Environment} (hs : s.Sound) (he : e.Open s) : (s.moved e).Sound := by
  have hext : s.Extends (s.moved e) := .moved s e
  have hnow : (s.moved e).toMoment.Kept (s.moved e) :=
    ⟨Nat.le_refl _, fun _ _ => rfl, fun _ _ => rfl, he.toPlaced.mono hext,
      fun a name v h => (hs.now.values a name v h).mono hext,
      fun o name v h => (hs.now.fields o name v h).mono hext⟩
  refine ⟨List.forall_mem_cons.mpr ⟨hnow, fun m hm => ?_⟩,
    fun event hevent => (hs.events event hevent).mono hs hext, hs.bodies, he.mono hext⟩
  exact (hs.moments m (List.mem_cons_of_mem _ hm)).mono hext

theorem Leads.moved {e : Environment} (hs : s.Sound) (h : (s.moved e).Leads u) :
    s.Leads (u.moved s.machine.environment) := by
  have hext : s.Extends u := (Extends.moved s e).trans h.toExtends
  exact ⟨hext.trans (.moved u _), h.sound.moved (hs.here.mono hext), rfl⟩

end Scribe

theorem Value.isData_negate {token : Token} {v w : Value} (h : v.negate token = .ok w) :
    w.isData := by
  cases v <;> cases h
  rfl

theorem Value.Known.of_isData {s : Scribe} {v : Value} (h : v.isData) : v.Known s := by
  cases v with
  | function f => cases h
  | klass c => cases h
  | object o => cases h
  | _ => trivial

def Signal.Known (s : Scribe) : Signal → Prop
  | .returnValue v => v.Known s
  | _ => True

theorem Signal.Known.mono {s u : Scribe} {signal : Signal} (h : signal.Known s) (he : s.Extends u) :
    signal.Known u := by
  cases signal with
  | returnValue v => exact Value.Known.mono (v := v) h he
  | _ => trivial

namespace Scribed

/-- A step does what a traced one does, and keeps a sound state. If it succeeds, its result is as
`Q` says. -/
def Follows {α : Type} (c : Scribed α) (r : Traced α) (s : Scribe) (Q : α → Scribe → Prop) : Prop :=
  match c s with
  | .ok a u => r s.toTracer = .ok a u.toTracer ∧ s.Leads u ∧ Q a u
  | .error failure u => r s.toTracer = .error failure u.toTracer ∧ s.Leads u

namespace Follows
variable {α β : Type} {s : Scribe} {c d : Scribed α} {r q : Traced α} {Q : α → Scribe → Prop}
  {Q' : β → Scribe → Prop}

theorem ok {a : α} {u : Scribe} (hc : c s = .ok a u) (hr : r s.toTracer = .ok a u.toTracer)
    (hl : s.Leads u) (hq : Q a u) : c.Follows r s Q := by
  rw [Follows, hc]
  exact ⟨hr, hl, hq⟩

theorem pure {a : α} (hs : s.Sound) (hq : Q a s) :
    Follows (Pure.pure a) (Pure.pure a) s Q := ⟨rfl, .refl hs, hq⟩

theorem throw {failure : Failure} (hs : s.Sound) :
    Follows (MonadExcept.throw failure) (MonadExcept.throw failure) s Q := ⟨rfl, .refl hs⟩

theorem bind {k : α → Scribed β} {l : α → Traced β} (hc : c.Follows r s Q)
    (hk : ∀ a u, s.Leads u → Q a u → (k a).Follows (l a) u Q') :
    (c >>= k).Follows (r >>= l) s Q' := by
  simp only [Follows, Bind.bind, EStateM.bind] at hc ⊢
  cases hct : c s with
  | error failure u =>
    rw [hct] at hc
    simp only [hc.1]
    exact ⟨trivial, hc.2⟩
  | ok a u =>
    rw [hct] at hc
    have h := hk a u hc.2.1 hc.2.2
    simp only [Follows, hc.1] at h ⊢
    cases hku : k a u with
    | ok b w =>
      rw [hku] at h
      exact ⟨h.1, hc.2.1.trans h.2.1, h.2.2⟩
    | error failure w =>
      rw [hku] at h
      exact ⟨h.1, hc.2.1.trans h.2⟩

theorem imp {P : α → Scribe → Prop} (hc : c.Follows r s Q) (hq : ∀ a u, s.Leads u → Q a u → P a u) :
    c.Follows r s P := by
  simp only [Follows] at hc ⊢
  cases hct : c s with
  | ok a u =>
    rw [hct] at hc
    exact ⟨hc.1, hc.2.1, hq a u hc.2.1 hc.2.2⟩
  | error failure u =>
    rw [hct] at hc
    exact hc

theorem map {f : α → β} (hc : c.Follows r s Q) (hq : ∀ a u, Q a u → Q' (f a) u) :
    (f <$> c).Follows (f <$> r) s Q' := by
  simp only [Follows, Functor.map, EStateM.map] at hc ⊢
  cases hct : c s with
  | ok a u =>
    rw [hct] at hc
    simp only [hc.1]
    exact ⟨trivial, hc.2.1, hq a u hc.2.2⟩
  | error failure u =>
    rw [hct] at hc
    simp only [hc.1]
    exact ⟨trivial, hc.2⟩

theorem ite {p : Prop} [Decidable p] (hc : c.Follows r s Q) (hd : d.Follows q s Q) :
    (if p then c else d).Follows (if p then r else q) s Q := by
  split
  · exact hc
  · exact hd

theorem reading {k : Scribe → Scribed β} {l : Tracer → Traced β}
    (hk : (k s).Follows (l s.toTracer) s Q') : (get >>= k).Follows (get >>= l) s Q' := hk

/-- What a scribe reads on its own account. -/
theorem looking {k : Scribe → Scribed β} {l : Traced β} (hk : (k s).Follows l s Q') :
    (get >>= k).Follows l s Q' := hk

/-- A traced step that leaves the state as it is. -/
theorem ofExcept {x : Except Failure α} (hs : s.Sound) (hq : ∀ a, x = .ok a → Q a s) :
    (Scribed.lift (Traced.lift (Run.ofExcept x))).Follows (Traced.lift (Run.ofExcept x)) s Q := by
  cases x with
  | ok a => exact ⟨rfl, .refl hs, hq a rfl⟩
  | error failure => exact ⟨rfl, .refl hs⟩

theorem noting {event : α → Event} (hc : c.Follows r s Q)
    (hk : ∀ a u, s.Leads u → Q a u → (event a).Known u) (hm : ∀ a f, event a ≠ .method f)
    (he : ∀ a f e, event a ≠ .entered f e)
    (hq : ∀ a u w, u.Extends w → Q a u → Q a w) : (Scribed.noting event c).Follows r s Q := by
  simp only [Follows, Scribed.noting, Bind.bind, EStateM.bind] at hc ⊢
  cases hct : c s with
  | ok a u =>
    rw [hct] at hc
    have hnote := Leads.noted hc.2.1.sound (hk a u hc.2.1 hc.2.2) (hm a) (he a)
    exact ⟨hc.1, hc.2.1.trans hnote, hq a u _ hnote.toExtends hc.2.2⟩
  | error failure u =>
    rw [hct] at hc
    exact hc

theorem afterNote {event : Event} (hs : s.Sound) (hk : event.Known s)
    (hm : ∀ f, event ≠ .method f) (he : ∀ f e, event ≠ .entered f e)
    (hc : ∀ u, s.Leads u → c.Follows r u Q) : Follows (do Scribed.note event; c) r s Q := by
  have hl : s.Leads (s.noted event) := .noted hs hk hm he
  have h := hc _ hl
  change match c (s.noted event) with
    | .ok a u => r s.toTracer = .ok a u.toTracer ∧ s.Leads u ∧ Q a u
    | .error failure u => r s.toTracer = .error failure u.toTracer ∧ s.Leads u
  simp only [Follows] at h
  cases hct : c (s.noted event) with
  | ok a u =>
    rw [hct] at h
    exact ⟨h.1, hl.trans h.2.1, h.2.2⟩
  | error failure u =>
    rw [hct] at h
    exact ⟨h.1, hl.trans h.2⟩

theorem visiting {p : Path} {n : Node (Option Nat)} (hs : s.Sound)
    (hc : ∀ u, s.Leads u → c.Follows r u Q) :
    (Scribed.visiting p n c).Follows (Traced.visiting p n r) s Q :=
  bind (Q := fun _ u => s.Leads u) (ok rfl rfl (.visit hs p n) (.visit hs p n))
    fun _ u _ hu => hc u hu

theorem evaluating {p : Path} {e : ResolvedExpr} {c : Scribed Value} {r : Traced Value}
    (hs : s.Sound) (hc : ∀ u, s.Leads u → c.Follows r u fun v w => v.Known w) :
    (Scribed.evaluating p e c).Follows (Traced.visiting p (.expr e) r) s fun v u => v.Known u :=
  looking (noting (visiting hs hc) (fun _ _ _ hv => hv) (fun _ _ h => by cases h)
    (fun _ _ _ h => by cases h) fun _ _ _ he hv => hv.mono he)

theorem inEnvironment {e : Environment} (hs : s.Sound) (he : e.Open s)
    (hc : ∀ u, u.Sound → s.Extends u → c.Follows r u Q)
    (hq : ∀ a u w, u.Extends w → Q a u → Q a w) :
    (Scribed.inEnvironment e c).Follows (Traced.inEnvironment e r) s Q := by
  have h := hc (s.moved e) (hs.moved he) (.moved s e)
  simp only [Follows, Scribed.inEnvironment, Traced.inEnvironment, Scribe.moved] at h ⊢
  cases hct : c { s with machine := { s.machine with environment := e } } with
  | ok a u =>
    rw [hct] at h
    simp only [h.1]
    exact ⟨trivial, .moved hs h.2.1, hq a u _ (.moved u _) h.2.2⟩
  | error failure u =>
    rw [hct] at h
    simp only [h.1]
    exact ⟨trivial, .moved hs h.2⟩

theorem current {k : Environment → Scribed β} {l : Environment → Traced β}
    (hk : (k s.machine.environment).Follows (l s.machine.environment) s Q') :
    (Scribed.lift (Traced.lift Run.current) >>= k).Follows (Traced.lift Run.current >>= l) s Q' := hk

/-- A step that gives a name a value, or fails. -/
theorem writing {name : String} {v : Value} {step : Run Unit} (hs : s.Sound)
    (hname : name ≠ receiverName) (hv : v.Known s)
    (hstep : (∃ a, step s.machine =
        .ok () { s.machine with store := s.machine.store.define a name v }) ∨
      ∃ failure, step s.machine = .error failure s.machine) :
    (Scribed.writing name v step).Follows (Traced.lift step) s fun _ u => v.Known u := by
  have hlift : (Scribed.lift (Traced.lift step)).Follows (Traced.lift step) s
      fun _ u => v.Known u := by
    rcases hstep with ⟨a, hok⟩ | ⟨failure, herror⟩
    · have hl : s.Leads (s.define a name v) := .define hname hs hv a
      exact ok (u := s.define a name v) (by simp only [Scribed.lift, Traced.lift, hok]; rfl)
        (by simp only [Traced.lift, hok]; rfl) hl (hv.mono hl.toExtends)
    · simp only [Follows, Scribed.lift, Traced.lift, herror]
      exact ⟨trivial, .refl hs⟩
  exact noting hlift (fun _ _ _ hv => ⟨hname, hv⟩) (fun _ _ h => by cases h)
    (fun _ _ _ h => by cases h) fun _ _ _ he hv => hv.mono he

theorem newEnvironment {e : Environment} {site : Site} (hs : s.Sound) (he : e.Placed s)
    (hsite : site.form = .block ∨ site.form = .name) :
    (Scribed.lift (Traced.newEnvironment site e [])).Follows (Traced.newEnvironment site e []) s
      fun e' u => e'.Open u := by
  have hbody : site.form ≠ .body := by
    rcases hsite with h | h <;> rw [h] <;> decide
  have hreceiver : site.form ≠ .receiver := by
    rcases hsite with h | h <;> rw [h] <;> decide
  exact ok (u := s.addFrame site []) rfl rfl (.addFrame hs hbody fun _ _ h => by cases h)
    (inner_open hs he hreceiver)

/-- A function that is made where statements are executed. -/
theorem newClosure {p : Path} {name : Option String} {params : List Token}
    {body : List ResolvedStmt} {e : Environment} (hs : s.Sound) (he : e.Open s)
    (hbody : Stmt.AllSpelled body) :
    (Scribed.lift (Traced.newClosure p name params body e false)).Follows
      (Traced.newClosure p name params body e false) s
      fun f u => f.Known u ∧ f.environment = e := by
  have hl : s.Leads (s.addClosure p) := .addClosure hs p
  have hopen := he.mono hl.toExtends
  refine ok (u := s.addClosure p) rfl rfl hl ⟨⟨Nat.lt_succ_self _, fun m hm => ?_,
    hopen.toPlaced, hbody, fun h => ?_⟩, rfl⟩
  · exact Nat.ne_of_gt (Event.Known.of_method hs hm)
  · rcases h with hof | hinit
    · exact absurd hof hopen.outside
    · cases hinit

theorem newMethod {p : Path} {e : Environment} {m : ResolvedMethod} (hs : s.Sound)
    (he : e.Placed s) (hbody : Stmt.AllSpelled m.body) :
    (Scribed.newMethod p e m).Follows (Traced.newClosure p (some m.name.lexeme) m.params m.body e
      (m.name.lexeme = initializerName)) s fun f u => f.KnownMethod u := by
  let f : Closure := ⟨s.machine.store.identities, some m.name.lexeme, m.params.map (·.lexeme),
    m.body, e, m.name.lexeme = initializerName⟩
  have hext : s.Extends ((s.addClosure p).noted (.method f)) :=
    (Extends.addClosure s p).noted (fun g hg => by cases hg; exact Nat.le_refl _)
      fun g e hg => by cases hg
  -- Its identity is given in the same step, so the method is new beside all that there was before.
  have hl : s.Leads ((s.addClosure p).noted (.method f)) := by
    refine .build hs hext rfl (fun _ h => .inl h) (fun _ _ _ h => .inl h) (fun _ _ _ h => .inl h)
      (fun event hevent => ?_) fun _ _ _ h => .inl h
    rcases List.mem_cons.mp hevent with rfl | hold
    · exact .inr ⟨Nat.lt_succ_self _, by simp [f]⟩
    · exact .inl hold
  exact ok rfl rfl hl ⟨List.mem_cons_self, Nat.lt_succ_self _, he.mono hext, hbody⟩

theorem newMethods {p : Path} {e : Environment} {i : Nat} {ms : List ResolvedMethod}
    {found : Bindings Closure} (hs : s.Sound) (he : e.Placed s) (hms : Method.AllSpelled ms)
    (hfound : ∀ name f, found.get? name = some f → f.KnownMethod s) :
    (Scribed.newMethods p e i ms found).Follows (Traced.newMethods p e i ms found) s
      fun methods u => ∀ name f, methods.get? name = some f → f.KnownMethod u := by
  induction ms generalizing s i found with
  | nil => exact pure hs hfound
  | cons m ms ih =>
    obtain ⟨name, params, body⟩ := m
    refine bind (newMethod hs he hms.1.2.2) fun f u hu hf => ?_
    refine ih hu.sound (he.mono hu.toExtends) hms.2 fun other g hg => ?_
    rw [Bindings.get?_set] at hg
    split at hg
    · cases hg
      exact hf
    · exact (hfound other g hg).mono hu.toExtends

theorem newClass {name : String} {methods : Bindings Closure} {l : Class → Traced β}
    {k : Class → Scribed β} (hs : s.Sound)
    (hmethods : ∀ name f, methods.get? name = some f → f.KnownMethod s)
    (hk : ∀ c u, s.Leads u → c.Known u → (k c).Follows (l c) u Q') :
    (Scribed.newClass name methods >>= k).Follows (do
      let identity ← Traced.lift (Run.withStore Store.fresh)
      l ⟨identity, name, methods⟩) s Q' := by
  let c : Class := ⟨s.machine.store.identities, name, methods⟩
  let u : Scribe := { s with machine := { s.machine with store := s.machine.store.fresh.2 } }
  have hl : s.Leads u :=
    .machine hs rfl (Nat.le_succ _) (Nat.le_refl _) rfl fun _ _ _ h => .inl h
  have hc : c.Known u := fun other f hf => (hmethods other f hf).mono hl.toExtends
  have hnote : u.Leads (u.noted (.declared c)) :=
    .noted hl.sound hc (fun _ h => by cases h) fun _ _ h => by cases h
  have hclass : (Scribed.newClass name methods).Follows (do
      let identity ← Traced.lift (Run.withStore Store.fresh)
      return ⟨identity, name, methods⟩) s fun c u => c.Known u :=
    ok (u := u.noted (.declared c)) rfl rfl (hl.trans hnote) (hc.mono hnote.toExtends)
  exact bind hclass hk

/-- A method that is bound to an instance stands in a frame for that instance, which no other
function has. -/
theorem bindMethod {method : Closure} {o : Object} (hs : s.Sound) (hm : method.KnownMethod s)
    (ho : (Value.object o).Known s) (howner : ∃ name, o.owner.methods.get? name = some method) :
    (Scribed.bind method o).Follows (Traced.bind method (.object o)) s fun f u => f.Known u := by
  let p := s.origin method.identity
  let b : Bindings Value := [(receiverName, .object o)]
  let f : Closure := { method with
    identity := s.machine.store.identities, environment := method.environment.inner s.size }
  let w := (s.addFrame (.receiver p) b).addClosure p
  let u := w.noted (.bound method o f)
  have hb : ∀ name v, b.get? name = some v → v.Known s := by
    intro name v hv
    simp only [b, Bindings.get?] at hv
    split at hv
    · cases hv
      exact ho
    · cases hv
  have hframe : s.Leads (s.addFrame (.receiver p) b) := .addFrame hs (fun h => by cases h) hb
  have hw : s.Leads w := hframe.trans (.addClosure hframe.sound p)
  have hnoted : w.Extends u := .of_noted (fun _ h => by cases h) fun _ _ h => by cases h
  have hext : s.Extends u := hw.toExtends.trans hnoted
  have hplaced : f.environment.Placed u :=
    ((inner_placed hs hm.placed).mono (.addClosure _ p)).mono hnoted
  have hknown : f.Known u := by
    refine ⟨Nat.lt_succ_self _, ?_, hplaced, hm.spelled, fun _ => ⟨method, o, List.mem_cons_self⟩⟩
    intro g hg
    have hold : .method g ∈ s.events := (List.mem_cons.mp hg).resolve_left fun h => by cases h
    exact Nat.ne_of_gt (Event.Known.of_method hs hold)
  have hbound : f.Bound u method o := by
    refine ⟨hknown, hext.events _ hm.made, howner, ?_, rfl, hplaced.frame_lt, ?_⟩
    · have hnew : u.origin f.identity = p := by
        change Function.update s.origin s.machine.store.identities p s.machine.store.identities = p
        rw [Function.update_self]
      rw [hext.traced.origin _ hm.given, hnew]
    · have hself : u.frame s.size = b := frame_addFrame_self _ (.receiver p) b
      change (u.frame s.size).get? receiverName = some (.object o)
      rw [hself]
      simp [b, Bindings.get?]
  exact ok rfl rfl (hw.trans (.recorded hw.sound hnoted hbound)) hknown

theorem getProperty {o : Object} {name : Token} (hs : s.Sound) (ho : (Value.object o).Known s) :
    (Scribed.getProperty o name).Follows (Traced.getProperty o name) s fun v u => v.Known u := by
  refine reading ?_
  cases hfield : (s.machine.store.fields o).get? name.lexeme with
  | some v => exact pure hs (hs.now.fields o _ v hfield)
  | none =>
    cases hmethod : o.owner.methods.get? name.lexeme with
    | none => exact throw hs
    | some method =>
      exact bind (bindMethod hs (ho.2 _ _ hmethod) ho ⟨_, hmethod⟩) fun f u hu hf =>
        pure hu.sound hf

/-- A call goes into an environment of its own, behind which is that of its function. -/
theorem enter {f : Closure} {vs : List Value} (hs : s.Sound) (hf : f.Known s)
    (hvs : ∀ v ∈ vs, v.Known s) :
    (Scribed.enter (s.origin f.identity) f vs).Follows
      (Traced.newEnvironment (.body (s.origin f.identity) f.params f.body) f.environment
        (bindParams f.params vs)) s fun e u => e.Open u := by
  let site := Site.body (s.origin f.identity) f.params f.body
  let e := f.environment.inner s.size
  let w := s.addFrame site (bindParams f.params vs)
  have hext : s.Extends (w.noted (.entered f e)) :=
    (Extends.addFrame s site _).noted (fun g hg => by cases hg) fun g e hg => by
      cases hg
      exact Nat.le_refl _
  have hopen : e.Open (w.noted (.entered f e)) :=
    ⟨entered_placed hs hf.placed, (inner_open hs hf.placed fun h => by cases h).outside⟩
  have hframe (a : Address) : (w.noted (.entered f e)).frame a =
      (s.addFrame site (bindParams f.params vs)).frame a := rfl
  have hl : s.Leads (w.noted (.entered f e)) := by
    refine .build hs hext rfl (fun _ h => .inl h) (known_addFrame hext hframe ?_)
      (fun _ _ _ h => .inl h) (fun event hevent => ?_) fun a p names h => ?_
    · intro name v hv
      exact hvs v (mem_of_get?_bindParams hv).2
    · rcases List.mem_cons.mp hevent with rfl | hold
      · exact .inr ⟨hf.mono hext, hopen.toPlaced.frame_lt, rfl⟩
      · exact .inl hold
    · simp only [Scribe.noted, w, Scribe.addFrame, Tracer.addFrame, Function.update_apply] at h
      split at h
      next ha =>
        exact .inr ⟨f, e, List.mem_cons_self, ha.symm, congrArg Site.path (Option.some.inj h)⟩
      next => exact .inl h
  exact ok rfl rfl hl hopen

theorem lookUp {name : Token} {mark : Option Nat} (hs : s.Sound) :
    (Scribed.lift (Traced.lift (Run.lookUp name mark))).Follows
      (Traced.lift (Run.lookUp name mark)) s fun v u => v.Known u := by
  cases mark with
  | none =>
    refine ofExcept (x := s.machine.store.get .global name) hs fun v hv => ?_
    simp only [Store.get] at hv
    split at hv
    next hw => cases hv; exact hs.now.values _ _ _ hw
    next => cases hv
  | some d =>
    refine ofExcept (x := s.machine.store.getAt s.machine.environment d name.lexeme) hs
      fun v hv => ?_
    simp only [Store.getAt] at hv
    repeat' split at hv
    all_goals cases hv
    next hw => exact hs.now.values _ _ _ hw

theorem defineIn {a : Address} {name : String} {v : Value} (hs : s.Sound)
    (hname : name ≠ receiverName) (hv : v.Known s) :
    (Scribed.writing name v (Run.defineIn a name v)).Follows
      (Traced.lift (Run.defineIn a name v)) s fun _ u => v.Known u :=
  writing hs hname hv (.inl ⟨a, rfl⟩)

theorem define {name : String} {v : Value} (hs : s.Sound) (hname : name ≠ receiverName)
    (hv : v.Known s) : (Scribed.writing name v (Run.define name v)).Follows
      (Traced.lift (Run.define name v)) s fun _ u => v.Known u :=
  writing hs hname hv (.inl ⟨s.machine.environment.frame, rfl⟩)

theorem assign {name : Token} {mark : Option Nat} {v : Value} (hs : s.Sound)
    (hname : name.lexeme ≠ receiverName) (hv : v.Known s) :
    (Scribed.writing name.lexeme v (Run.assign name mark v)).Follows
      (Traced.lift (Run.assign name mark v)) s fun _ u => v.Known u := by
  refine writing hs hname hv ?_
  rw [Run.assign_eq]
  cases mark with
  | some d =>
    dsimp only [Store.assignAt]
    cases s.machine.environment.frameAt d with
    | ok a => exact .inl ⟨a, rfl⟩
    | error failure => exact .inr ⟨failure, rfl⟩
  | none =>
    dsimp only [Store.assign]
    cases s.machine.store.target .global name with
    | ok a => exact .inl ⟨a, rfl⟩
    | error failure => exact .inr ⟨failure, rfl⟩

theorem setField {o : Object} {name : String} {v : Value} (hs : s.Sound) (hv : v.Known s) :
    (Scribed.lift (Traced.lift (Run.setField o name v))).Follows
      (Traced.lift (Run.setField o name v)) s fun _ u => v.Known u := by
  have hl : s.Leads { s with
      machine := { s.machine with store := s.machine.store.setField o name v } } := by
    refine .machine hs rfl (Nat.le_refl _) ?_ rfl fun q other w hw => ?_
    · simp [Store.setField]
    · rcases Store.get?_fields_setField _ hw with rfl | hold
      · exact .inr hv
      · exact .inl hold
  exact ok rfl rfl hl (hv.mono hl.toExtends)

theorem print {line : String} (hs : s.Sound) :
    (Scribed.lift (Traced.lift (Run.print line))).Follows (Traced.lift (Run.print line)) s
      fun _ _ => True := by
  have hl : s.Leads { s with
      machine := { s.machine with output := (line ++ "\n") :: s.machine.output } } :=
    .machine hs rfl (Nat.le_refl _) (Nat.le_refl _) rfl fun _ _ _ h => .inl h
  exact ok rfl rfl hl trivial

theorem answer {library : Library} (hlib : library.Plain) (hs : s.Sound) (n : Native)
    (vs : List Value) :
    (Scribed.lift (Traced.lift (library.answer n vs))).Follows (Traced.lift (library.answer n vs)) s
      fun v u => v.Known u := by
  have hl : s.Leads { s with machine := { s.machine with asked := s.machine.asked + 1 } } :=
    .machine hs rfl (Nat.le_refl _) (Nat.le_refl _) rfl fun _ _ _ h => .inl h
  refine ok rfl rfl hl ?_
  cases hn : library.get? n.name with
  | none => trivial
  | some b => exact .of_isData (hlib _ _ _ _ hn)

/-- A new instance did not exist before. -/
theorem addObject {c : Class} (hs : s.Sound) (hc : c.Known s) :
    (Scribed.lift (Traced.lift (Run.withStore (·.addObject c)))).Follows
      (Traced.lift (Run.withStore (·.addObject c))) s
      fun o u => (Value.object o).Known u ∧ o.owner = c ∧ ¬ s.machine.store.Has o := by
  have hl : s.Leads { s with
      machine := { s.machine with store := (s.machine.store.addObject c).2 } } := by
    refine .machine hs rfl (Nat.le_refl _) ?_ rfl fun q name v hv => ?_
    · simp [Store.addObject]
    · exact .inl (Store.fields_addObject _ c q ▸ hv)
  refine ok rfl rfl hl ⟨⟨?_, hc.mono hl.toExtends⟩, rfl, ?_⟩
  · simp [Moment.instances]
  · rintro (hlt | ⟨a, name, q, hq, hsame⟩ | ⟨r, name, q, hq, hsame⟩)
    · exact Nat.lt_irrefl _ hlt
    · exact Nat.ne_of_lt (hs.now.values a name _ hq).1 hsame
    · exact Nat.ne_of_lt (hs.now.fields r name _ hq).1 hsame

theorem apply {token : Token} {k : Kind} {a b : Value} (hs : s.Sound) :
    (Scribed.lift (Traced.apply token k a b)).Follows (Traced.apply token k a b) s
      fun v u => v.Known u := by
  let u : Scribe := { s with applied := ⟨k, a, b⟩ :: s.applied }
  have he : s.Extends u := .still rfl rfl rfl
  have hl : s.Leads u := .build hs he rfl (fun _ h => .inl h) (fun _ _ _ h => .inl h)
    (fun _ _ _ h => .inl h) (fun _ h => .inl h) fun _ _ _ h => .inl h
  have hrun : Traced.apply token k a b s.toTracer =
      Traced.lift (Run.ofExcept (Value.apply token k a b)) u.toTracer := rfl
  simp only [Follows, Scribed.lift, hrun]
  cases hv : Value.apply token k a b with
  | ok v => exact ⟨rfl, hl, .of_isData (Value.isData_apply hv)⟩
  | error failure => exact ⟨rfl, hl⟩

theorem assigned {operator : Option Token} {current value : Scribed Value}
    {current' value' : Traced Value} (hs : s.Sound)
    (hc : current.Follows current' s fun v u => v.Known u)
    (hv : ∀ u, s.Leads u → value.Follows value' u fun v w => v.Known w) :
    (Scribed.assigned operator current value).Follows (Traced.assigned operator current' value') s
      fun v u => v.Known u := by
  cases operator with
  | none => exact hv s (.refl hs)
  | some sign =>
    refine bind hc fun left u hu _ => ?_
    refine bind (ofExcept (Q := fun _ _ => True) hu.sound fun _ _ => trivial) fun kind w hw _ => ?_
    exact bind (hv w (hu.trans hw)) fun right x hx _ => apply hx.sound

/-- A loop, if its parts keep a sound state wherever they start. -/
theorem loop {condition : Scribed Bool} {body : Scribed Signal} {increment : Scribed Unit}
    {condition' : Traced Bool} {body' : Traced Signal} {increment' : Traced Unit}
    (hc : ∀ s : Scribe, s.Sound → condition.Follows condition' s fun _ _ => True)
    (hb : ∀ s : Scribe, s.Sound → body.Follows body' s fun signal u => signal.Known u)
    (hn : ∀ s : Scribe, s.Sound → increment.Follows increment' s fun _ _ => True) (hs : s.Sound)
    (turns : Nat) : (Scribed.loop condition body increment turns).Follows
      (Traced.loop condition' body' increment' turns) s fun signal u => signal.Known u := by
  induction turns generalizing s with
  | zero => exact throw hs
  | succ turns ih =>
    refine bind (hc s hs) fun go u hu _ => ?_
    cases go with
    | false => exact pure hu.sound trivial
    | true =>
      refine bind (hb u hu.sound) fun signal w hw hsignal => ?_
      cases signal with
      | breakLoop => exact pure hw.sound trivial
      | returnValue v => exact pure hw.sound hsignal
      | proceed => exact bind (hn w hw.sound) fun _ x hx _ => ih hx.sound
      | continueLoop => exact bind (hn w hw.sound) fun _ x hx _ => ih hx.sound

end Follows
end Scribed
end LoxScript
