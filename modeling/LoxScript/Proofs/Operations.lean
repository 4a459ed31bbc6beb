import LoxScript.Proofs.Steps

/-!
The operations of a traced run keep tracers sound. Each has a law of its own here, from which those
of expressions, statements and calls are put together.
-/
namespace LoxScript

open Tracer

namespace Traced

/-- A step leads to a sound tracer, and to what `Q` says if it succeeds. In a safe regime it
fails only in permitted ways. -/
def Keeps {α : Type} (R : Regime) (grown : Address → String → Prop) (t : Tracer)
    (Q : α → Tracer → Prop) (c : Traced α) : Prop :=
  match c t with
  | .ok a t' => t.Leads R grown t' ∧ Q a t'
  | .error failure t' => t.Leads R grown t' ∧ (R.safe → failure.Permitted t'.applied)

namespace Keeps
variable {α β : Type} {R : Regime} {grown : Address → String → Prop} {t : Tracer}
  {Q : α → Tracer → Prop} {Q' : β → Tracer → Prop} {c : Traced α} {Γ : Context}

theorem ok {a : α} {u : Tracer} (hc : c t = .ok a u) (hl : t.Leads R grown u) (hq : Q a u) :
    Keeps R grown t Q c := by
  rw [Keeps, hc]
  exact ⟨hl, hq⟩

theorem pure {a : α} (hs : t.Sound R) (hq : Q a t) : Keeps R grown t Q (Pure.pure a) :=
  ⟨.refl hs, hq⟩

theorem throw {failure : Failure} (hs : t.Sound R) (hp : R.safe → failure.Permitted t.applied) :
    Keeps R grown t Q (MonadExcept.throw failure) :=
  ⟨.refl hs, hp⟩

theorem bind {k : α → Traced β} (hc : Keeps R grown t Q c)
    (hk : ∀ a u, t.Leads R grown u → Q a u → Keeps R grown u Q' (k a)) :
    Keeps R grown t Q' (c >>= k) := by
  simp only [Keeps, Bind.bind, EStateM.bind] at hc ⊢
  cases hct : c t with
  | error failure u =>
    rw [hct] at hc
    exact hc
  | ok a u =>
    rw [hct] at hc
    have h := hk a u hc.1 hc.2
    simp only [Keeps] at h ⊢
    cases hku : k a u with
    | ok b w =>
      rw [hku] at h
      exact ⟨hc.1.trans h.1, h.2⟩
    | error failure w =>
      rw [hku] at h
      exact ⟨hc.1.trans h.1, h.2⟩

theorem map {f : α → β} (hc : Keeps R grown t Q c) (hf : ∀ a u, Q a u → Q' (f a) u) :
    Keeps R grown t Q' (f <$> c) := by
  simp only [Keeps, Functor.map, EStateM.map] at hc ⊢
  cases hct : c t with
  | ok a u =>
    rw [hct] at hc
    exact ⟨hc.1, hf a u hc.2⟩
  | error failure u =>
    rw [hct] at hc
    exact hc

theorem imp {P : α → Tracer → Prop} (hc : Keeps R grown t Q c)
    (hq : ∀ a u, t.Leads R grown u → Q a u → P a u) : Keeps R grown t P c := by
  simp only [Keeps] at hc ⊢
  cases hct : c t with
  | ok a u =>
    rw [hct] at hc
    exact ⟨hc.1, hq a u hc.1 hc.2⟩
  | error failure u =>
    rw [hct] at hc
    exact hc

theorem weaken {grown' : Address → String → Prop} (hc : Keeps R grown t Q c)
    (hg : ∀ a < t.size, ∀ name, grown a name → grown' a name) : Keeps R grown' t Q c := by
  simp only [Keeps] at hc ⊢
  cases hct : c t with
  | ok a u =>
    rw [hct] at hc
    exact ⟨hc.1.weaken hg, hc.2⟩
  | error failure u =>
    rw [hct] at hc
    exact ⟨hc.1.weaken hg, hc.2⟩

theorem ofStill (hc : Keeps R still t Q c) : Keeps R grown t Q c :=
  hc.weaken fun _ _ _ h => h.elim

/-- A step in which nothing grows stays where it stands. -/
theorem standing (hc : Keeps R still t Q c) (hS : t.Stands R Γ) :
    Keeps R grown t (fun a u => Q a u ∧ u.Stands R Γ) c :=
  ofStill (hc.imp fun _ _ hl hq => ⟨hq, hl.stands hS fun _ _ _ h => h⟩)

theorem reading {k : Tracer → Traced β} (hk : Keeps R grown t Q' (k t)) :
    Keeps R grown t Q' (get >>= k) := hk

theorem ofExcept {r : Except Failure α} (hs : t.Sound R) (hok : ∀ a, r = .ok a → Q a t)
    (herr : ∀ failure, r = .error failure → R.safe → failure.Permitted t.applied) :
    Keeps R grown t Q (lift (Run.ofExcept r)) := by
  cases r with
  | ok a => exact ⟨.refl hs, hok a rfl⟩
  | error failure => exact ⟨.refl hs, herr failure rfl⟩

/-- A run comes to a node where the environment covers the context of the node. -/
theorem visitingFrom {p : Path} {n : Node (Option Nat)} (hS : t.Stands R Γ)
    (hn : R.holds ⟨p, Γ, n⟩)
    (hc : ∀ u, u.Stands R Γ → t.Leads R grown u → u.machine = t.machine → Keeps R grown u Q c) :
    Keeps R grown t Q (Traced.visiting p n c) := by
  have he : t.Extends { t with visits := ⟨t.toMoment, p, n⟩ :: t.visits } :=
    ⟨Nat.le_refl _, Nat.le_refl _, fun _ _ => rfl, fun _ _ => rfl, fun _ _ h => h⟩
  have hs : Tracer.Sound R { t with visits := ⟨t.toMoment, p, n⟩ :: t.visits } := by
    refine ⟨hS.sound.names, fun a name v h => (hS.sound.values a name v h).mono he hS.sound.names,
      fun o name v h => (hS.sound.fields o name v h).mono he hS.sound.names, ?_⟩
    intro v hv
    rcases List.mem_cons.mp hv with rfl | hold
    · exact ⟨Γ, hn, hS.covers⟩
    · exact hS.sound.visits v hold
  have hl : t.Leads R grown { t with visits := ⟨t.toMoment, p, n⟩ :: t.visits } :=
    ⟨⟨he, hs.names, fun _ _ _ _ h => .inl h⟩, hs, rfl⟩
  refine bind (Q := fun _ u => u.Stands R Γ ∧ t.Leads R grown u ∧ u.machine = t.machine)
    (ok rfl hl ⟨⟨hs, hS.covers⟩, hl, rfl⟩) fun _ u _ hu => hc u hu.1 hu.2.1 hu.2.2

theorem visiting {p : Path} {n : Node (Option Nat)} (hS : t.Stands R Γ) (hn : R.holds ⟨p, Γ, n⟩)
    (hc : ∀ u, u.Stands R Γ → u.machine = t.machine → Keeps R grown u Q c) :
    Keeps R grown t Q (Traced.visiting p n c) :=
  visitingFrom hS hn fun u hU _ hu => hc u hU hu

theorem inEnvironment {e : Environment} (hc : Keeps R grown (t.moved e) Q c)
    (hq : ∀ a u, Q a u → Q a (u.moved t.machine.environment)) :
    Keeps R grown t Q (Traced.inEnvironment e c) := by
  simp only [Keeps, Traced.inEnvironment] at hc ⊢
  cases hcu : c (t.moved e) with
  | ok a u =>
    rw [hcu] at hc
    simp only [Tracer.moved] at hcu
    rw [hcu]
    exact ⟨hc.1.moved, hq a u hc.2⟩
  | error failure u =>
    rw [hcu] at hc
    simp only [Tracer.moved] at hcu
    rw [hcu]
    exact ⟨hc.1.moved, hc.2⟩

end Keeps
end Traced

/-- Values in which there is no function. -/
def Value.isData : Value → Bool
  | .function _ => false
  | .klass _ => false
  | .object _ => false
  | _ => true

theorem Value.Sound.of_isData {R : Regime} {t : Tracer} {v : Value} (h : v.isData) :
    v.Sound R t := by
  cases v with
  | function f => cases h
  | klass c => cases h
  | object o => cases h
  | _ => trivial

theorem Value.isData_plus {token : Token} {a b v : Value} (h : Value.plus token a b = .ok v) :
    v.isData := by
  unfold Value.plus at h
  split at h
  · cases h; rfl
  · split at h
    · cases h; rfl
    · cases h

theorem Value.isData_arithmetic {token : Token} {k : Kind} {x y : Float} {v : Value}
    (h : Value.arithmetic token k x y = .ok v) : v.isData := by
  unfold Value.arithmetic at h
  repeat' split at h
  all_goals cases h
  all_goals rfl

theorem Value.isData_apply {token : Token} {k : Kind} {a b v : Value}
    (h : Value.apply token k a b = .ok v) : v.isData := by
  unfold Value.apply at h
  split at h
  · cases h; rfl
  · cases h; rfl
  · exact isData_plus h
  · split at h
    · exact isData_arithmetic h
    · cases h

theorem Value.permitted_plus {token : Token} {a b : Value} {failure : Failure}
    {applied : List Application} (h : Value.plus token a b = .error failure) :
    failure.Permitted applied := by
  unfold Value.plus at h
  split at h
  · cases h
  · split at h
    · cases h
    · cases h; trivial

theorem Value.permitted_percent {token : Token} {x y : Float} {failure : Failure}
    {applied : List Application} (h : Value.arithmetic token .percent x y = .error failure) :
    failure.Permitted (⟨.percent, .number x, .number y⟩ :: applied) := by
  simp only [Value.arithmetic] at h
  split at h
  next => cases h; trivial
  next hzero =>
    split at h
    next => cases h
    next hnone =>
      cases h
      unfold Number.remainder? at hnone
      repeat' split at hnone
      all_goals cases hnone
      exact ⟨_, rfl, x, y, rfl, by assumption, by assumption, hzero⟩

/-- An operator fails only in permitted ways. -/
theorem Value.permitted_apply {token : Token} {k : Kind} {a b : Value} {failure : Failure}
    {applied : List Application} (hk : k.isOperator)
    (h : Value.apply token k a b = .error failure) :
    failure.Permitted (⟨k, a, b⟩ :: applied) := by
  cases k with
  | equalEqual | bangEqual => cases h
  | plus => exact permitted_plus h
  | percent =>
    simp only [Value.apply] at h
    split at h
    · exact permitted_percent h
    · cases h; trivial
  | minus | star | slash | hat | greater | greaterEqual | less | lessEqual =>
    simp only [Value.apply] at h
    split at h
    · simp only [Value.arithmetic] at h
      repeat' split at h
      all_goals cases h
      all_goals trivial
    · cases h; trivial
  | _ => exact absurd hk (by decide)

/-- Where a context binds a name, so does the frame at that distance. -/
theorem Covers.has {R : Regime} {m : Moment} {e : Environment} {Γ : Context} {d : Nat}
    {name : String} (h : Covers R m e.chain Γ) (hs : R.safe) (hb : Γ.Binds d name) :
    ∃ a, e.frameAt d = .ok a ∧ (m.frame a).has name := by
  obtain ⟨l, hl, hget⟩ := hb
  obtain ⟨a, ha, hc⟩ := h.at hl
  exact ⟨a, by simp [Environment.frameAt, Environment.ancestor?, ha], hc.lower hs name hget⟩

theorem Covers.reaches {R : Regime} {m : Moment} {e : Environment} {Γ : Context} {d : Nat}
    (h : Covers R m e.chain Γ) (hd : d < Γ.length) : ∃ a, e.frameAt d = .ok a := by
  obtain ⟨a, ha, -⟩ := h.at (List.getElem?_eq_getElem hd)
  exact ⟨a, by simp [Environment.frameAt, Environment.ancestor?, ha]⟩

theorem Covers.getAt {R : Regime} {m : Moment} {e : Environment} {Γ : Context} {d : Nat}
    {name : String} (h : Covers R m e.chain Γ) (hs : R.safe) (hb : Γ.Binds d name) :
    ∃ v, m.machine.store.getAt e d name = .ok v := by
  obtain ⟨a, ha, hhas⟩ := h.has hs hb
  obtain ⟨v, hv⟩ := (Bindings.has_iff _ _).mp hhas
  refine ⟨v, ?_⟩
  rw [Moment.frame] at hv
  simp only [Store.getAt, ha, hv]

theorem Tracer.Sound.getAt {R : Regime} {t : Tracer} {e : Environment} {d : Nat} {name : String}
    {v : Value} (hs : t.Sound R) (h : t.machine.store.getAt e d name = .ok v) : v.Sound R t := by
  simp only [Store.getAt] at h
  repeat' split at h
  all_goals cases h
  next hv => exact hs.values _ _ _ hv

/-- What a call means keeps tracers sound. -/
def CallSound (R : Regime) (invoke : Value → List Value → Traced Value) : Prop :=
  ∀ t f vs, Tracer.Sound R t → f.Sound R t → (∀ v ∈ vs, v.Sound R t) →
    f.arity? = some vs.length → (invoke f vs).Keeps R still t fun v u => v.Sound R u

namespace Traced.Keeps
variable {R : Regime} {grown : Address → String → Prop} {t : Tracer} {Γ : Context}

/-- A read of a name. In a safe regime, a local name has been passed. -/
theorem lookUp {name : Token} {mark : Option Nat} (hS : t.Stands R Γ)
    (hr : R.safe → ∀ d, mark = some d → Γ.Binds d name.lexeme) :
    Keeps R grown t (fun v u => v.Sound R u) (lift (Run.lookUp name mark)) := by
  cases mark with
  | none =>
    change Keeps R grown t _ (lift (Run.ofExcept (t.machine.store.get .global name)))
    refine ofExcept hS.sound (fun v hv => ?_) fun failure hf _ => ?_
    · simp only [Store.get] at hv
      split at hv
      next w hw => cases hv; exact hS.sound.values _ _ _ hw
      next => cases hv
    · simp only [Store.get] at hf
      split at hf
      · cases hf
      · cases hf; trivial
  | some d =>
    change Keeps R grown t _
      (lift (Run.ofExcept (t.machine.store.getAt t.machine.environment d name.lexeme)))
    refine ofExcept hS.sound (fun v hv => hS.sound.getAt hv) fun failure hf hs => ?_
    obtain ⟨v, hv⟩ := hS.covers.getAt hs (hr hs d rfl)
    cases hv.symm.trans hf

theorem redefine {a : Address} {name : String} {v : Value} (hs : t.Sound R) (hv : v.Sound R t)
    (ha : R.exact → (t.frame a).has name) :
    Keeps R grown t (fun _ u => v.Sound R u) (lift (Run.defineIn a name v)) := by
  have hg : t.Grows R grown (t.define a name v) :=
    .define hs.names (fun hx _ _ => .inl (ha hx)) (fun hx _ => .inl (ha hx)) v
  have hv' := hv.mono hg.extended hg.names
  exact ok rfl (.define hs hg hv') hv'

theorem lift_assign (t : Tracer) (name : Token) (mark : Option Nat) (v : Value) :
    lift (Run.assign name mark v) t =
      match (match mark with
        | some d => t.machine.environment.frameAt d
        | none => t.machine.store.target .global name) with
      | .ok a => lift (Run.defineIn a name.lexeme v) t
      | .error failure => .error failure t := by
  have hget : (get : Run Machine) t.machine = .ok t.machine t.machine := rfl
  simp only [lift, Run.assign, Bind.bind, EStateM.bind, hget]
  cases mark with
  | none =>
    dsimp only
    cases t.machine.store.target .global name <;> rfl
  | some d =>
    dsimp only
    cases t.machine.environment.frameAt d <;> rfl

/-- A write of a name. In an exact regime, a local name has been passed. -/
theorem assign {name : Token} {mark : Option Nat} {v : Value} (hS : t.Stands R Γ)
    (hv : v.Sound R t) (hr : R.safe → ∀ d, mark = some d → d < Γ.length)
    (hx : R.exact → ∀ d, mark = some d → Γ.Binds d name.lexeme) :
    Keeps R grown t (fun _ u => v.Sound R u) (lift (Run.assign name mark v)) := by
  rw [Keeps, lift_assign]
  cases mark with
  | none =>
    by_cases hhas : (t.machine.store.frame Environment.global.frame).has name.lexeme
    · simp only [Store.target, hhas, if_true]
      exact redefine hS.sound hv fun _ => hhas
    · simp only [Store.target, hhas]
      exact ⟨.refl hS.sound, fun _ => trivial⟩
  | some d =>
    dsimp only
    cases hframe : t.machine.environment.frameAt d with
    | error failure =>
      refine ⟨.refl hS.sound, fun hs => ?_⟩
      obtain ⟨a, ha⟩ := hS.covers.reaches (hr hs d rfl)
      rw [ha] at hframe
      cases hframe
    | ok a =>
      refine redefine hS.sound hv fun hexact => ?_
      obtain ⟨b, hb, hhas⟩ := hS.covers.has (R.safe_of_exact hexact) (hx hexact d rfl)
      rw [hframe] at hb
      cases hb
      exact hhas

theorem apply {token : Token} {k : Kind} {a b : Value} (hs : t.Sound R)
    (hk : R.safe → k.isOperator) :
    Keeps R grown t (fun v u => v.Sound R u) (Traced.apply token k a b) := by
  have hg : t.Grows R grown { t with applied := ⟨k, a, b⟩ :: t.applied } :=
    ⟨⟨Nat.le_refl _, Nat.le_refl _, fun _ _ => rfl, fun _ _ => rfl, fun _ _ h => h⟩, hs.names,
      fun _ _ _ _ h => .inl h⟩
  have hl : t.Leads R grown { t with applied := ⟨k, a, b⟩ :: t.applied } :=
    .build hs hg rfl rfl (fun _ _ _ h => .inl h) fun _ _ _ h => .inl h
  refine bind (Q := fun _ u => u.applied = ⟨k, a, b⟩ :: t.applied) (ok rfl hl rfl)
    fun _ u hu happlied => ?_
  refine ofExcept hu.sound (fun v h => .of_isData (Value.isData_apply h)) fun failure h hsafe => ?_
  rw [happlied]
  exact Value.permitted_apply (hk hsafe) h

theorem assigned {operator : Option Token} {current value : Traced Value}
    (hc : operator.isSome → Keeps R grown t (fun v u => v.Sound R u) current)
    (hv : ∀ u, t.Leads R grown u → Keeps R grown u (fun v u => v.Sound R u) value)
    (hs : t.Sound R) (hsign : R.safe → ∀ sign, operator = some sign → sign.kind.compound?.isSome) :
    Keeps R grown t (fun v u => v.Sound R u) (Traced.assigned operator current value) := by
  cases operator with
  | none => exact hv t (.refl hs)
  | some sign =>
    refine bind (hc rfl) fun left u hl _ => ?_
    refine bind (Q := fun k _ => sign.kind.compound? = some k)
      (ofExcept hl.sound (fun k hk => ?_) fun failure hf hsafe => ?_) fun k w hm hk => ?_
    · simp only [underlying] at hk
      split at hk
      next hsome => cases hk; exact hsome
      next => cases hk
    · obtain ⟨k, hk⟩ := Option.isSome_iff_exists.mp (hsign hsafe sign rfl)
      simp only [underlying, hk] at hf
      cases hf
    · refine bind (hv w (hl.trans hm)) fun right x hr _ => ?_
      refine apply hr.sound fun _ => ?_
      revert hk
      cases sign.kind <;> simp only [Kind.compound?, reduceCtorEq, Option.some.injEq, false_implies]
      all_goals rintro rfl; rfl

theorem newClosure {p : Path} {name : Option String} {params : List Token}
    {body : List ResolvedStmt} {e : Environment} {isInitializer : Bool}
    {Q : Closure → Tracer → Prop} (hs : t.Sound R)
    (hq : Q ⟨t.machine.store.identities, name, params.map (·.lexeme), body, e, isInitializer⟩
      (t.addClosure p)) :
    Keeps R grown t Q (Traced.newClosure p name params body e isInitializer) :=
  ok rfl (.addClosure hs p) hq

/-- A method that is bound to a receiver is a function. -/
theorem bindMethod {method : Closure} {receiver : Value} (hs : t.Sound R)
    (hm : method.SoundMethod R t Γ) (hv : receiver.Sound R t) :
    Keeps R grown t (fun f u => f.Sound R u (.receiver (t.origin method.identity) :: Γ) ∧
      f.params = method.params) (Traced.bind method receiver) := by
  have hframe : t.Leads R grown
      (t.addFrame (.receiver (t.origin method.identity)) [(receiverName, receiver)]) := by
    refine .addFrame hs (fun _ name h => ?_) fun name v h => ?_
    · obtain ⟨v, h⟩ := (Bindings.has_iff _ _).mp h
      simp only [Bindings.get?] at h
      split at h
      next heq => simp [Site.receiver, heq]
      next => cases h
    · simp only [Bindings.get?] at h
      split at h
      · cases h; exact hv
      · cases h
  have hclosure := hframe.trans (.addClosure hframe.sound (t.origin method.identity))
  refine ok rfl hclosure ⟨⟨Nat.lt_succ_self _, ?_, ?_, ?_⟩, rfl⟩
  · have htail := hm.covers.sealed hclosure.extended hclosure.names
    rw [Context.sealed_sealed] at htail
    refine .inner (Layer.Covered.sealed (covered_addFrame ?_ ?_) (.addClosure _ _)
      hclosure.names) hm.covers.lt_size htail
    · intro _ name h
      simp only [Layer.receiver, Bindings.get?] at h
      split at h
      next heq => simp [Bindings.has, Bindings.get?, heq]
      next => cases h
    · intro _ name h
      obtain ⟨v, h⟩ := (Bindings.has_iff _ _).mp h
      simp only [Bindings.get?] at h
      split at h
      next heq => simp [Layer.MayBind, Layer.receiver, Site.receiver, heq]
      next => cases h
  · intro _
    exact ⟨_, rfl, by simp [Layer.receiver, Bindings.get?]⟩
  · simpa [Tracer.addClosure, Layer.sealed, Layer.receiver] using hm.fits

theorem getProperty {o : Object} {name : Token} (hs : t.Sound R) (ho : o.owner.Sound R t) :
    Keeps R grown t (fun v u => v.Sound R u) (Traced.getProperty o name) := by
  refine reading ?_
  cases hfield : (t.machine.store.fields o).get? name.lexeme with
  | some v => exact pure hs (hs.fields o _ v hfield)
  | none =>
    cases hmethod : o.owner.methods.get? name.lexeme with
    | none => exact throw hs fun _ => trivial
    | some method =>
      obtain ⟨Γ, hm⟩ := ho _ method hmethod
      have hobject : (Value.object o).Sound R t := ho
      exact bind (bindMethod hs hm hobject) fun f u hl hf =>
        pure hl.sound ⟨_, hf.1⟩

theorem newMethods {p : Path} {e : Environment} (ms : List ResolvedMethod) (i : Nat)
    {found : Bindings Closure} (hs : t.Sound R) (hc : Covers R t.toMoment e.chain Γ.sealed)
    (hfits : ∀ j m, ms[j]? = some m →
      BodyFits R ((i + j) :: p) (Γ.method ((i + j) :: p) m) m.body)
    (hfound : ∀ name f, found.get? name = some f → ∃ Γ, f.SoundMethod R t Γ) :
    Keeps R grown t (fun methods u => ∀ name f, methods.get? name = some f →
      ∃ Γ, f.SoundMethod R u Γ) (Traced.newMethods p e i ms found) := by
  induction ms generalizing t i found with
  | nil => exact pure hs hfound
  | cons m ms ih =>
    refine bind (newClosure (Q := fun f u => u = t.addClosure (i :: p) ∧ f =
      ⟨t.machine.store.identities, _, _, m.body, e, _⟩) hs ⟨rfl, rfl⟩) fun f u hl hf => ?_
    obtain ⟨rfl, rfl⟩ := hf
    have hcovers : Covers R (t.addClosure (i :: p)).toMoment e.chain Γ.sealed := by
      simpa using hc.sealed hl.extended hl.names
    refine ih (i + 1) hl.sound hcovers (fun j n hj => ?_) fun name f hf => ?_
    · have h := hfits (j + 1) n (by simpa using hj)
      rwa [show i + (j + 1) = i + 1 + j from by omega] at h
    · rw [Bindings.get?_set] at hf
      split at hf
      · cases hf
        refine ⟨Γ, Nat.lt_succ_self _, hcovers, ?_⟩
        simpa [Tracer.addClosure, Context.method] using hfits 0 m rfl
      · obtain ⟨Δ, hm⟩ := hfound name f hf
        exact ⟨Δ, hm.mono hl.extended hl.names⟩

theorem callAt {invoke : Value → List Value → Traced Value} {paren : Token} {f : Value}
    {vs : List Value} (hi : CallSound R invoke) (hs : t.Sound R) (hf : f.Sound R t)
    (hvs : ∀ v ∈ vs, v.Sound R t) :
    Keeps R grown t (fun v u => v.Sound R u) (Traced.callAt invoke paren f vs) := by
  unfold Traced.callAt
  cases ha : f.arity? with
  | none => exact throw hs fun _ => trivial
  | some arity =>
    by_cases hlen : vs.length = arity
    · simp only [hlen, if_true]
      exact (hi t f vs hs hf hvs (by rw [ha, hlen])).ofStill
    · simp only [hlen, if_false]
      exact throw hs fun _ => trivial

theorem grows_define {a : Address} {name : String} (hS : t.Stands R Γ)
    (ha : t.machine.environment.frame = a)
    (hname : R.exact → ∀ l, Γ.head? = some l → name ∈ l.site.names) (v : Value) :
    t.Grows R (growing a [name]) (t.define a name v) := by
  subst ha
  refine .define hS.sound.names (fun hx site hsite => .inr ?_) (fun _ _ => .inr ⟨rfl, by simp⟩) v
  have hc := hS.covers
  simp only [Moment.chain, Environment.chain] at hc
  generalize t.machine.environment.frame = b at hc hsite
  generalize t.machine.environment.enclosing = rest at hc
  cases hc with
  | global allocated untagged =>
    rw [untagged] at hsite
    cases hsite
  | inner head younger tail =>
    rw [head.made] at hsite
    cases hsite
    exact hname hx _ rfl

theorem covers_define {a : Address} {name : String} {v : Value} (hS : t.Stands R Γ)
    (ha : t.machine.environment.frame = a)
    (hg : t.Grows R (growing a [name]) (t.define a name v)) :
    Covers R (t.define a name v).toMoment t.chain (Γ.declare [name]) := by
  subst ha
  have hsize : t.machine.environment.frame < t.size :=
    hS.covers.lt_size _ (by simp [Moment.chain, Environment.chain])
  refine Covers.declare hS.covers hg fun _ _ other ho => ?_
  rw [List.mem_singleton.mp ho]
  have hframe : (t.define t.machine.environment.frame name v).frame t.machine.environment.frame =
      (t.frame t.machine.environment.frame).set name v := Store.frame_define_self _ hsize name v
  rw [hframe, Bindings.has_set]
  exact .inl rfl

theorem define {a : Address} {name : String} {v : Value} (hS : t.Stands R Γ)
    (ha : t.machine.environment.frame = a)
    (hname : R.exact → ∀ l, Γ.head? = some l → name ∈ l.site.names)
    (hv : v.Sound R (t.define a name v)) :
    Keeps R (growing a [name]) t (fun _ u => u.Stands R (Γ.declare [name]))
      (lift (Run.define name v)) := by
  subst ha
  have hg := grows_define hS rfl hname v
  have hl := Leads.define hS.sound hg hv
  exact ok rfl hl ⟨hl.sound, covers_define hS rfl hg⟩

end Traced.Keeps

def Signal.Sound (R : Regime) (t : Tracer) : Signal → Prop
  | .returnValue v => v.Sound R t
  | _ => True

theorem Traced.Keeps.loop {R : Regime} {grown : Address → String → Prop} {t : Tracer}
    {condition : Traced Bool} {body : Traced Signal} {increment : Traced Unit}
    {I : Tracer → Prop} (hI : ∀ u w, I u → u.Leads R grown w → I w)
    (hc : ∀ u, I u → Keeps R grown u (fun _ _ => True) condition)
    (hb : ∀ u, I u → Keeps R grown u (fun s w => s.Sound R w) body)
    (hn : ∀ u, I u → Keeps R grown u (fun _ _ => True) increment) (turns : Nat) (hs : t.Sound R)
    (ht : I t) :
    Keeps R grown t (fun s u => s.Sound R u ∧ I u) (Traced.loop condition body increment turns) := by
  induction turns generalizing t with
  | zero => exact throw hs fun _ => trivial
  | succ turns ih =>
    refine bind (hc t ht) fun go u hu _ => ?_
    have hIu := hI t u ht hu
    cases go with
    | false => exact pure hu.sound ⟨trivial, hIu⟩
    | true =>
      refine bind (hb u hIu) fun signal w hw hsignal => ?_
      have hIw := hI u w hIu hw
      cases signal with
      | breakLoop => exact pure hw.sound ⟨trivial, hIw⟩
      | returnValue v => exact pure hw.sound ⟨hsignal, hIw⟩
      | proceed => exact bind (hn w hIw) fun _ x hx _ => ih hx.sound (hI w x hIw hx)
      | continueLoop => exact bind (hn w hIw) fun _ x hx _ => ih hx.sound (hI w x hIw hx)

end LoxScript
