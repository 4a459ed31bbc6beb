import LoxScript.Proofs.Regime

/-!
What the single steps of a traced run do to a sound tracer: definitions, new frames and functions,
changes of the machine beside its frames, and moves to another environment.
-/
namespace LoxScript

open Tracer

namespace Tracer

def define (t : Tracer) (a : Address) (name : String) (v : Value) : Tracer :=
  { t with machine := { t.machine with store := t.machine.store.define a name v } }

def addFrame (t : Tracer) (site : Site) (b : Bindings Value) : Tracer :=
  { t with
    machine := { t.machine with store := (t.machine.store.addFrame b).2 }
    site := Function.update t.site t.size (some site) }

/-- The tracer after a new function, made from the node at a path. -/
def addClosure (t : Tracer) (p : Path) : Tracer :=
  { t with
    machine := { t.machine with store := t.machine.store.fresh.2 }
    origin := Function.update t.origin t.machine.store.identities p }

def moved (t : Tracer) (e : Environment) : Tracer :=
  { t with machine := { t.machine with environment := e } }

variable {R : Regime} {t u w : Tracer} {grown : Address → String → Prop}

theorem Leads.refl (hs : t.Sound R) : t.Leads R grown t :=
  ⟨⟨.refl t, hs.names, fun _ _ _ _ h => .inl h⟩, hs, rfl⟩

theorem Grows.trans (h : t.Grows R grown u) (k : u.Grows R grown w) : t.Grows R grown w where
  extended := h.extended.trans k.extended
  names := k.names
  upper hx a ha name hn := by
    rcases k.upper hx a (h.extended.allocated ha) name hn with hold | hnew
    · exact h.upper hx a ha name hold
    · exact .inr hnew

theorem Leads.trans (h : t.Leads R grown u) (k : u.Leads R grown w) : t.Leads R grown w :=
  ⟨h.toGrows.trans k.toGrows, k.sound, k.environment.trans h.environment⟩

theorem Grows.weaken {grown' : Address → String → Prop} (h : t.Grows R grown u)
    (hg : ∀ a < t.size, ∀ name, grown a name → grown' a name) : t.Grows R grown' u :=
  ⟨h.extended, h.names, fun hx a ha name hn => (h.upper hx a ha name hn).imp_right (hg a ha name)⟩

theorem Leads.weaken {grown' : Address → String → Prop} (h : t.Leads R grown u)
    (hg : ∀ a < t.size, ∀ name, grown a name → grown' a name) : t.Leads R grown' u :=
  ⟨h.toGrows.weaken hg, h.sound, h.environment⟩

/-- Where nothing grows in an exact regime, the environment goes on to cover its context. -/
theorem Leads.stands {Γ : Context} (h : t.Leads R grown u) (hs : t.Stands R Γ)
    (hstill : R.exact → ∀ a name, ¬ grown a name) : u.Stands R Γ := by
  refine ⟨h.sound, ?_⟩
  rw [Moment.chain, h.environment]
  exact hs.covers.still h.toGrows fun hx a _ => hstill hx a

/-- A step that keeps the old values, adds only sound ones and writes down no visit
keeps a tracer sound. -/
theorem Leads.build (hs : t.Sound R) (hg : t.Grows R grown u)
    (henv : u.machine.environment = t.machine.environment) (hvisits : u.visits = t.visits)
    (hvalues : ∀ a name v, (u.frame a).get? name = some v →
      (t.frame a).get? name = some v ∨ v.Sound R u)
    (hfields : ∀ o name v, (u.machine.store.fields o).get? name = some v →
      (t.machine.store.fields o).get? name = some v ∨ v.Sound R u) : t.Leads R grown u := by
  refine ⟨hg, ⟨hg.names, ?_, ?_, ?_⟩, henv⟩
  · intro a name v hv
    rcases hvalues a name v hv with hold | hnew
    · exact (hs.values a name v hold).mono hg.extended hg.names
    · exact hnew
  · intro o name v hv
    rcases hfields o name v hv with hold | hnew
    · exact (hs.fields o name v hold).mono hg.extended hg.names
    · exact hnew
  · rw [hvisits]
    exact hs.visits

theorem Extends.define (t : Tracer) (a : Address) (name : String) (v : Value) :
    t.Extends (t.define a name v) where
  size := by simp [Moment.size, Tracer.define]
  identities := Nat.le_refl _
  site _ _ := rfl
  origin _ _ := rfl
  names b other h := Store.has_frame_define_of_has _ h a name v

theorem NamesFit.define {a : Address} {name : String} (hn : t.NamesFit R)
    (ha : R.exact → ∀ site, t.site a = some site → (t.frame a).has name ∨ name ∈ site.names)
    (v : Value) : (t.define a name v).NamesFit R := by
  intro hx b site hb other ho
  rcases Store.has_frame_define _ ho with ⟨rfl, rfl⟩ | hold
  · rcases ha hx site hb with hold | hnew
    · exact hn hx b site hb other hold
    · exact hnew
  · exact hn hx b site hb other hold

/-- A definition of a name that the frame has, or may come to have. -/
theorem Grows.define {a : Address} {name : String} (hn : t.NamesFit R)
    (ha : R.exact → ∀ site, t.site a = some site → (t.frame a).has name ∨ name ∈ site.names)
    (hg : R.exact → a < t.size → (t.frame a).has name ∨ grown a name) (v : Value) :
    t.Grows R grown (t.define a name v) := by
  refine ⟨.define t a name v, hn.define ha v, ?_⟩
  intro hx b hb other ho
  rcases Store.has_frame_define _ ho with ⟨rfl, rfl⟩ | hold
  · exact hg hx hb
  · exact .inl hold

theorem Leads.define {a : Address} {name : String} {v : Value} (hs : t.Sound R)
    (hg : t.Grows R grown (t.define a name v)) (hv : v.Sound R (t.define a name v)) :
    t.Leads R grown (t.define a name v) := by
  refine .build hs hg rfl rfl ?_ fun _ _ _ h => .inl h
  intro b other w hw
  rcases Store.get?_frame_define _ hw with ⟨-, -, rfl⟩ | hold
  · exact .inr hv
  · exact .inl hold

theorem size_addFrame (t : Tracer) (site : Site) (b : Bindings Value) :
    (t.addFrame site b).size = t.size + 1 := by
  simp [Moment.size, Tracer.addFrame, Store.addFrame]

theorem frame_addFrame_self (t : Tracer) (site : Site) (b : Bindings Value) :
    (t.addFrame site b).frame t.size = b := Store.frame_addFrame_self _ b

theorem frame_addFrame_of_lt {a : Address} (h : a < t.size) (site : Site) (b : Bindings Value) :
    (t.addFrame site b).frame a = t.frame a := Store.frame_addFrame_of_ne _ (Nat.ne_of_lt h) b

theorem frame_of_size_le {a : Address} (h : t.size ≤ a) : t.frame a = [] :=
  Store.frame_of_size_le _ h

theorem Extends.addFrame (t : Tracer) (site : Site) (b : Bindings Value) :
    t.Extends (t.addFrame site b) where
  size := by rw [size_addFrame]; exact Nat.le_succ _
  identities := Nat.le_refl _
  site a ha := Function.update_of_ne (Nat.ne_of_lt ha) _ _
  origin _ _ := rfl
  names a name h := by
    by_cases ha : a < t.size
    · rwa [frame_addFrame_of_lt ha]
    · rw [frame_of_size_le (Nat.not_lt.mp ha)] at h
      cases h

theorem NamesFit.addFrame {site : Site} {b : Bindings Value} (hn : t.NamesFit R)
    (hb : R.exact → ∀ name, b.has name → name ∈ site.names) :
    (t.addFrame site b).NamesFit R := by
  intro hx a s ha name hname
  by_cases hnew : a = t.size
  · subst hnew
    rw [frame_addFrame_self] at hname
    simp only [Tracer.addFrame, Function.update_self, Option.some.injEq] at ha
    exact ha ▸ hb hx name hname
  · have ha' : t.site a = some s := by simpa [Tracer.addFrame, hnew] using ha
    have hframe : (t.addFrame site b).frame a = t.frame a := Store.frame_addFrame_of_ne _ hnew b
    exact hn hx a s ha' name (hframe ▸ hname)

theorem Leads.addFrame {site : Site} {b : Bindings Value} (hs : t.Sound R)
    (hb : R.exact → ∀ name, b.has name → name ∈ site.names)
    (hv : ∀ name v, b.get? name = some v → v.Sound R t) :
    t.Leads R grown (t.addFrame site b) := by
  have hg : t.Grows R grown (t.addFrame site b) := by
    refine ⟨.addFrame t site b, hs.names.addFrame hb, fun _ a ha name h => ?_⟩
    rw [frame_addFrame_of_lt ha] at h
    exact .inl h
  refine .build hs hg rfl rfl ?_ fun _ _ _ h => .inl h
  intro a name v h
  rcases Store.get?_frame_addFrame _ h with ⟨-, hnew⟩ | hold
  · exact .inr ((hv name v hnew).mono hg.extended hg.names)
  · exact .inl hold

/-- A frame that was just made is one of its scope. -/
theorem covered_addFrame {l : Layer} {b : Bindings Value}
    (hlower : R.safe → ∀ name, l.scope.get? name = some true → b.has name)
    (hupper : R.exact → ∀ name, b.has name → l.MayBind name) :
    l.Covered R (t.addFrame l.site b).toMoment t.size where
  allocated := by rw [size_addFrame]; exact Nat.lt_succ_self _
  made := Function.update_self _ _ _
  lower hs name h := by rw [frame_addFrame_self]; exact hlower hs name h
  upper hx name h := by rw [frame_addFrame_self] at h; exact hupper hx name h

theorem Extends.addClosure (t : Tracer) (p : Path) : t.Extends (t.addClosure p) where
  size := Nat.le_refl _
  identities := Nat.le_succ _
  site _ _ := rfl
  origin _ hi := Function.update_of_ne (Nat.ne_of_lt hi) _ _
  names _ _ h := h

theorem Leads.addClosure (hs : t.Sound R) (p : Path) : t.Leads R grown (t.addClosure p) :=
  .build hs ⟨.addClosure t p, hs.names, fun _ _ _ _ h => .inl h⟩ rfl rfl
    (fun _ _ _ h => .inl h) fun _ _ _ h => .inl h

/-- A step that changes neither frames nor functions, and whose fields are sound. -/
theorem Leads.machine {m : Machine} (hs : t.Sound R)
    (hframes : m.store.frames = t.machine.store.frames)
    (hidentities : t.machine.store.identities ≤ m.store.identities)
    (henv : m.environment = t.machine.environment)
    (hfields : ∀ o name v, (m.store.fields o).get? name = some v →
      (t.machine.store.fields o).get? name = some v ∨ v.Sound R t) :
    t.Leads R grown { t with machine := m } := by
  have hf : ∀ a, Moment.frame { t.toMoment with machine := m } a = t.frame a := fun a => by
    simp only [Moment.frame, Store.frame, hframes]
  have hg : t.Grows R grown { t with machine := m } := by
    refine ⟨⟨?_, hidentities, fun _ _ => rfl, fun _ _ => rfl, fun a name h => ?_⟩,
      fun hx a site ha name h => ?_, fun _ a _ name h => ?_⟩
    · simp only [Moment.size, hframes, Nat.le_refl]
    · rwa [hf a]
    · exact hs.names hx a site ha name (hf a ▸ h)
    · exact .inl (hf a ▸ h)
  refine .build hs hg henv rfl ?_ ?_
  · intro a name v h
    exact .inl (hf a ▸ h)
  · intro o name v h
    exact (hfields o name v h).imp_right fun hv => hv.mono hg.extended hg.names

theorem Sound.moved (hs : t.Sound R) (e : Environment) : (t.moved e).Sound R := by
  have he : t.Extends (t.moved e) :=
    ⟨Nat.le_refl _, Nat.le_refl _, fun _ _ => rfl, fun _ _ => rfl, fun _ _ h => h⟩
  exact ⟨hs.names, fun a name v h => (hs.values a name v h).mono he hs.names,
    fun o name v h => (hs.fields o name v h).mono he hs.names, hs.visits⟩

theorem Leads.moved {e : Environment} (h : (t.moved e).Leads R grown u) :
    t.Leads R grown (u.moved t.machine.environment) :=
  ⟨⟨⟨h.extended.size, h.extended.identities, h.extended.site, h.extended.origin,
    h.extended.names⟩, h.names, h.upper⟩, h.sound.moved _, rfl⟩

end Tracer
end LoxScript
