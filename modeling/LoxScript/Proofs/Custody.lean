import LoxScript.Proofs.Scribe
import LoxScript.Proofs.Spelling
import LoxScript.Proofs.Steps

/-!
What becomes of receivers and methods.

A frame that was made for a receiver binds it for good. A function that stands directly in such a
frame was bound to that receiver, and a method that was not bound stays in its class. Environments
are chained as they were when calls entered them, so a frame leads to one activation only.
-/
namespace LoxScript

open Tracer

namespace Moment

def receiver? (m : Moment) (a : Address) : Option Value := (m.frame a).get? receiverName

/-- A frame was made for a receiver. -/
def OfReceiver (m : Moment) (a : Address) : Prop := ∃ site, m.site a = some site ∧ site.form = .receiver

def instances (m : Moment) : Nat := m.machine.store.objects.size

end Moment

namespace Scribe

/-- The moments of a run: all its visits, and its end. -/
def moments (s : Scribe) : List Moment := s.toMoment :: s.visits.map (·.toMoment)

end Scribe

/-- The frames of an environment are there, and behind the frame of a call is the environment in
which its function stood. -/
structure Environment.Placed (s : Scribe) (e : Environment) : Prop where
  allocated : ∀ a ∈ e.chain, a < s.size
  entered : ∀ f e', .entered f e' ∈ s.events → ∀ inner outer,
    e.chain = inner ++ e'.frame :: outer → outer = e'.enclosing

/-- An environment of statements, whose innermost frame is not that of a receiver. -/
structure Environment.Open (s : Scribe) (e : Environment) : Prop extends e.Placed s where
  outside : ¬ s.OfReceiver e.frame

/-- What is said of the functions that are values: they are no methods of classes, unless they were
bound. -/
structure Closure.Known (s : Scribe) (f : Closure) : Prop where
  given : f.identity < s.machine.store.identities
  free : ∀ m, .method m ∈ s.events → f.identity ≠ m.identity
  placed : f.environment.Placed s
  spelled : Stmt.AllSpelled f.body
  bound : s.OfReceiver f.environment.frame ∨ f.isInitializer →
    ∃ method o, .bound method o f ∈ s.events

structure Closure.KnownMethod (s : Scribe) (f : Closure) : Prop where
  made : .method f ∈ s.events
  given : f.identity < s.machine.store.identities
  placed : f.environment.Placed s
  spelled : Stmt.AllSpelled f.body

def Class.Known (s : Scribe) (c : Class) : Prop :=
  ∀ name f, c.methods.get? name = some f → f.KnownMethod s

def Value.Known (s : Scribe) : Value → Prop
  | .function f => f.Known s
  | .klass c => c.Known s
  | .object o => o.identity < s.instances ∧ o.owner.Known s
  | _ => True

/-- An instance exists in a store: it has been counted, or something holds it. -/
def Store.Has (s : Store) (o : Object) : Prop :=
  o.identity < s.objects.size ∨
    (∃ a name q, (s.frame a).get? name = some (.object q) ∧ q.identity = o.identity) ∨
    ∃ r name q, (s.fields r).get? name = some (.object q) ∧ q.identity = o.identity

/-- What is said of a function that was bound. -/
structure Closure.Bound (s : Scribe) (f method : Closure) (o : Object) : Prop where
  known : f.Known s
  made : .method method ∈ s.events
  owner : ∃ name, o.owner.methods.get? name = some method
  origin : s.origin method.identity = s.origin f.identity
  isInitializer : f.isInitializer = method.isInitializer
  allocated : f.environment.frame < s.size
  receiver : s.receiver? f.environment.frame = some (.object o)

def Event.Known (s : Scribe) : Event → Prop
  | .evaluated _ v => v.Known s
  | .wrote name v => name ≠ receiverName ∧ v.Known s
  | .called f vs => f.Known s ∧ ∀ v ∈ vs, v.Known s
  | .method f => f.identity < s.machine.store.identities ∧
      (f.isInitializer = true ↔ f.name = some initializerName)
  | .declared c => c.Known s
  | .bound m o f => f.Bound s m o
  | .entered f e => f.Known s ∧ e.frame < s.size ∧ e.enclosing = f.environment.chain
  | .returned f v => v.Known s ∧ f.environment.frame < s.size ∧
      (f.isInitializer → s.receiver? f.environment.frame = some v)
  | .constructed before c v => ∃ o, v = .object o ∧ o.owner = c ∧ ¬ before.Has o

/-- What there was at a moment is still as it was, and all that was held then is known. -/
structure Moment.Kept (s : Scribe) (m : Moment) : Prop where
  size : m.size ≤ s.size
  site : ∀ a < m.size, s.site a = m.site a
  receiver : ∀ a < m.size, s.receiver? a = m.receiver? a
  placed : m.machine.environment.Placed s
  values : ∀ a name v, (m.frame a).get? name = some v → v.Known s
  fields : ∀ o name v, (m.machine.store.fields o).get? name = some v → v.Known s

namespace Scribe

structure Sound (s : Scribe) : Prop where
  moments : ∀ m ∈ s.moments, m.Kept s
  events : ∀ event ∈ s.events, event.Known s
  bodies : ∀ a p names, s.site a = some ⟨p, .body, names⟩ →
    ∃ f e, .entered f e ∈ s.events ∧ e.frame = a ∧ s.origin f.identity = p
  here : s.machine.environment.Open s

/-- A later state has all that an earlier one has. What it has of methods and activations besides
is new, and no receiver has been replaced. -/
structure Extends (s s' : Scribe) : Prop where
  traced : s.toTracer.Extends s'.toTracer
  instances : s.instances ≤ s'.instances
  receivers : ∀ a < s.size, s'.receiver? a = s.receiver? a
  events : ∀ event ∈ s.events, event ∈ s'.events
  methods : ∀ f, .method f ∈ s'.events →
    .method f ∈ s.events ∨ s.machine.store.identities ≤ f.identity
  entered : ∀ f e, .entered f e ∈ s'.events → .entered f e ∈ s.events ∨ s.size ≤ e.frame

/-- What a step does to a sound state. -/
structure Leads (s s' : Scribe) : Prop extends s.Extends s' where
  sound : s'.Sound
  environment : s'.machine.environment = s.machine.environment

end Scribe

open Scribe

section Later
variable {s s' s'' : Scribe}

theorem Scribe.Extends.refl (s : Scribe) : s.Extends s :=
  ⟨.refl _, Nat.le_refl _, fun _ _ => rfl, fun _ h => h, fun _ h => .inl h, fun _ _ h => .inl h⟩

theorem Scribe.Extends.trans (h : s.Extends s') (k : s'.Extends s'') : s.Extends s'' where
  traced := h.traced.trans k.traced
  instances := Nat.le_trans h.instances k.instances
  receivers a ha := (k.receivers a (h.traced.allocated ha)).trans (h.receivers a ha)
  events event he := k.events event (h.events event he)
  methods f hf := by
    rcases k.methods f hf with hold | hnew
    · exact h.methods f hold
    · exact .inr (Nat.le_trans h.traced.identities hnew)
  entered f e hf := by
    rcases k.entered f e hf with hold | hnew
    · exact h.entered f e hold
    · exact .inr (Nat.le_trans h.traced.size hnew)

theorem Scribe.Extends.ofReceiver (h : s.Extends s') {a : Address} (ha : a < s.size) :
    s'.OfReceiver a ↔ s.OfReceiver a := by
  simp only [Moment.OfReceiver, h.traced.site a ha]

theorem Environment.Placed.mono {e : Environment} (he : e.Placed s) (h : s.Extends s') :
    e.Placed s' := by
  refine ⟨fun a ha => h.traced.allocated (he.allocated a ha), fun f e' hf inner outer hchain => ?_⟩
  rcases h.entered f e' hf with hold | hnew
  · exact he.entered f e' hold inner outer hchain
  · have hlt : e'.frame < s.size := he.allocated e'.frame (by simp [hchain])
    exact absurd hlt (Nat.not_lt.mpr hnew)

theorem Environment.Placed.frame_lt {e : Environment} (he : e.Placed s) : e.frame < s.size :=
  he.allocated e.frame List.mem_cons_self

theorem Environment.Open.mono {e : Environment} (he : e.Open s) (h : s.Extends s') : e.Open s' :=
  ⟨he.toPlaced.mono h, fun hof => he.outside ((h.ofReceiver he.frame_lt).mp hof)⟩

theorem Closure.Known.mono {f : Closure} (hf : f.Known s) (h : s.Extends s') : f.Known s' where
  given := Nat.lt_of_lt_of_le hf.given h.traced.identities
  free m hm := by
    rcases h.methods m hm with hold | hnew
    · exact hf.free m hold
    · exact Nat.ne_of_lt (Nat.lt_of_lt_of_le hf.given hnew)
  placed := hf.placed.mono h
  spelled := hf.spelled
  bound hof := by
    obtain ⟨method, o, hbound⟩ :=
      hf.bound (hof.imp_left (h.ofReceiver hf.placed.frame_lt).mp)
    exact ⟨method, o, h.events _ hbound⟩

theorem Closure.KnownMethod.mono {f : Closure} (hf : f.KnownMethod s) (h : s.Extends s') :
    f.KnownMethod s' :=
  ⟨h.events _ hf.made, Nat.lt_of_lt_of_le hf.given h.traced.identities, hf.placed.mono h,
    hf.spelled⟩

theorem Class.Known.mono {c : Class} (hc : c.Known s) (h : s.Extends s') : c.Known s' :=
  fun name f hf => (hc name f hf).mono h

theorem Value.Known.mono {v : Value} (hv : v.Known s) (h : s.Extends s') : v.Known s' := by
  cases v with
  | function f => exact Closure.Known.mono hv h
  | klass c => exact Class.Known.mono hv h
  | object o => exact ⟨Nat.lt_of_lt_of_le hv.1 h.instances, hv.2.mono h⟩
  | _ => trivial

theorem Event.Known.of_method {m : Closure} (hs : s.Sound) (hm : .method m ∈ s.events) :
    m.identity < s.machine.store.identities := (hs.events _ hm).1

theorem Closure.Bound.mono {f method : Closure} {o : Object} (hf : f.Bound s method o)
    (hs : s.Sound) (h : s.Extends s') : f.Bound s' method o where
  known := hf.known.mono h
  made := h.events _ hf.made
  owner := hf.owner
  origin := by
    rw [h.traced.origin _ (Event.Known.of_method hs hf.made), h.traced.origin _ hf.known.given]
    exact hf.origin
  isInitializer := hf.isInitializer
  allocated := h.traced.allocated hf.allocated
  receiver := (h.receivers _ hf.allocated).trans hf.receiver

theorem Event.Known.mono {event : Event} (hk : event.Known s) (hs : s.Sound) (h : s.Extends s') :
    event.Known s' := by
  cases event with
  | evaluated visit v => exact Value.Known.mono (v := v) hk h
  | wrote name v => exact ⟨hk.1, hk.2.mono h⟩
  | called f vs => exact ⟨hk.1.mono h, fun v hv => (hk.2 v hv).mono h⟩
  | method f => exact ⟨Nat.lt_of_lt_of_le hk.1 h.traced.identities, hk.2⟩
  | declared c => exact Class.Known.mono (c := c) hk h
  | bound method o f => exact Closure.Bound.mono hk hs h
  | entered f e => exact ⟨hk.1.mono h, h.traced.allocated hk.2.1, hk.2.2⟩
  | returned f v =>
    exact ⟨hk.1.mono h, h.traced.allocated hk.2.1, fun hf => (h.receivers _ hk.2.1).trans (hk.2.2 hf)⟩
  | constructed before c v => exact hk

theorem Moment.Kept.mono {m : Moment} (hm : m.Kept s) (h : s.Extends s') : m.Kept s' where
  size := Nat.le_trans hm.size h.traced.size
  site a ha := (h.traced.site a (Nat.lt_of_lt_of_le ha hm.size)).trans (hm.site a ha)
  receiver a ha := (h.receivers a (Nat.lt_of_lt_of_le ha hm.size)).trans (hm.receiver a ha)
  placed := hm.placed.mono h
  values a name v hv := (hm.values a name v hv).mono h
  fields o name v hv := (hm.fields o name v hv).mono h

namespace Scribe

theorem Sound.now (hs : s.Sound) : s.toMoment.Kept s := hs.moments _ List.mem_cons_self

theorem Leads.refl (hs : s.Sound) : s.Leads s := ⟨.refl s, hs, rfl⟩

theorem Leads.trans (h : s.Leads s') (k : s'.Leads s'') : s.Leads s'' :=
  ⟨h.toExtends.trans k.toExtends, k.sound, k.environment.trans h.environment⟩

/-- A step that keeps the environment, and adds only what is known. -/
theorem Leads.build (hs : s.Sound) (he : s.Extends s')
    (henv : s'.machine.environment = s.machine.environment)
    (hvisits : ∀ v ∈ s'.visits, v ∈ s.visits ∨ v.toMoment = s.toMoment)
    (hvalues : ∀ a name v, (s'.frame a).get? name = some v →
      (s.frame a).get? name = some v ∨ v.Known s')
    (hfields : ∀ o name v, (s'.machine.store.fields o).get? name = some v →
      (s.machine.store.fields o).get? name = some v ∨ v.Known s')
    (hevents : ∀ event ∈ s'.events, event ∈ s.events ∨ event.Known s')
    (hbodies : ∀ a p names, s'.site a = some ⟨p, .body, names⟩ →
      s.site a = some ⟨p, .body, names⟩ ∨
        ∃ f e, .entered f e ∈ s'.events ∧ e.frame = a ∧ s'.origin f.identity = p) :
    s.Leads s' := by
  have hnow : s'.toMoment.Kept s' := by
    refine ⟨Nat.le_refl _, fun _ _ => rfl, fun _ _ => rfl, ?_, ?_, ?_⟩
    · rw [henv]
      exact hs.now.placed.mono he
    · intro a name v hv
      rcases hvalues a name v hv with hold | hnew
      · exact (hs.now.values a name v hold).mono he
      · exact hnew
    · intro o name v hv
      rcases hfields o name v hv with hold | hnew
      · exact (hs.now.fields o name v hold).mono he
      · exact hnew
  refine ⟨he, ⟨?_, ?_, ?_, ?_⟩, henv⟩
  · refine List.forall_mem_cons.mpr ⟨hnow, List.forall_mem_map.mpr fun v hv => ?_⟩
    rcases hvisits v hv with hold | hnew
    · exact (hs.moments _ (List.mem_cons_of_mem _ (List.mem_map_of_mem hold))).mono he
    · rw [hnew]
      exact hs.now.mono he
  · intro event hevent
    rcases hevents event hevent with hold | hnew
    · exact (hs.events event hold).mono hs he
    · exact hnew
  · intro a p names ha
    rcases hbodies a p names ha with hold | hnew
    · obtain ⟨f, e, hentered, rfl, rfl⟩ := hs.bodies a p names hold
      have hf : f.Known s := (hs.events _ hentered).1
      exact ⟨f, e, he.events _ hentered, rfl, he.traced.origin _ hf.given⟩
    · exact hnew
  · rw [henv]
    exact hs.here.mono he

end Scribe
end Later
end LoxScript
