import LoxScript.Proofs.Operations

/-!
Runs keep tracers sound.

Expressions and statements are taken by induction over their structure, with one case for each
form; calls by induction on how deeply they may nest.
-/
namespace LoxScript

open Tracer

theorem Signal.Sound.mono {R : Regime} {t t' : Tracer} {s : Signal} (h : s.Sound R t)
    (he : t.Extends t') (hn : t'.NamesFit R) : s.Sound R t' := by
  cases s with
  | returnValue v => exact Value.Sound.mono h he hn
  | _ => trivial

/-- What a statement leaves behind: a sound signal and, if control goes on, a run that stands
in a context. -/
def Signal.Leaves (R : Regime) (Γ : Context) (signal : Signal) (t : Tracer) : Prop :=
  signal.Sound R t ∧ (signal = .proceed → t.Stands R Γ)

theorem Tracer.Extends.moved (t : Tracer) (e : Environment) : t.Extends (t.moved e) :=
  ⟨Nat.le_refl _, Nat.le_refl _, fun _ _ => rfl, fun _ _ => rfl, fun _ _ h => h⟩

theorem Covers.moved {R : Regime} {t : Tracer} {chain : List Address} {Γ : Context}
    (h : Covers R t.toMoment chain Γ) (e : Environment) :
    Covers R (t.moved e).toMoment chain Γ := by
  induction h with
  | global allocated untagged => exact .global allocated untagged
  | inner head younger tail ih =>
    exact .inner ⟨head.allocated, head.made, head.lower, head.upper⟩ younger ih

namespace Tracer
variable {R : Regime} {t u : Tracer} {Γ : Context}

/-- Where declarations can only matter to no one, a run goes on to stand where it stood. -/
theorem Leads.stands_free {a : Address} {names : List String}
    (h : t.Leads R (growing a names) u) (hS : t.Stands R Γ) (hn : R.safe → names = []) :
    u.Stands R Γ := by
  refine h.stands hS fun hx b name hg => ?_
  rw [hn (R.safe_of_exact hx)] at hg
  exact absurd hg.2 List.not_mem_nil

theorem Stands.declare_free {names : List String} (hS : t.Stands R Γ)
    (hn : R.safe → names = []) : t.Stands R (Γ.declare names) :=
  ⟨hS.sound, hS.covers.declare_free hn⟩

/-- The globals are covered whatever grows. -/
theorem Leads.stands_global {grown : Address → String → Prop} (h : t.Leads R grown u)
    (hS : t.Stands R []) : u.Stands R [] := by
  refine ⟨h.sound, ?_⟩
  have hc := hS.covers
  rw [Moment.chain, h.environment]
  rw [Moment.chain] at hc
  generalize t.machine.environment.chain = chain at hc
  cases hc with
  | global allocated untagged =>
    exact .global (h.extended.allocated allocated) ((h.extended.site 0 allocated).trans untagged)

end Tracer

namespace Traced.Keeps
variable {α : Type} {R : Regime} {grown : Address → String → Prop} {t : Tracer} {Γ : Context}
  {Q : α → Tracer → Prop} {c : Traced α}

/-- What grows in a frame that is still to be made is not seen from before. -/
theorem unseen (names : List String) (h : Keeps R (growing t.size names) t Q c) :
    Keeps R grown t Q c :=
  h.weaken fun _ ha _ hg => absurd hg.1 (Nat.ne_of_lt ha)

theorem newEnvironment {site : Site} {e : Environment} {b : Bindings Value} (hs : t.Sound R)
    (hb : R.exact → ∀ name, b.has name → name ∈ site.names)
    (hv : ∀ name v, b.get? name = some v → v.Sound R t) :
    Keeps R grown t (fun e' u => e' = e.inner t.size ∧ u = t.addFrame site b)
      (Traced.newEnvironment site e b) :=
  ok rfl (.addFrame hs hb hv) ⟨rfl, rfl⟩

/-- A step in the environment of a frame that was just made for a scope. -/
theorem inFrame {l : Layer} {e : Environment} {b : Bindings Value}
    (hl : t.Leads R grown (t.addFrame l.site b)) (hc : Covers R t.toMoment e.chain Γ)
    (hlower : R.safe → ∀ name, l.scope.get? name = some true → b.has name)
    (hupper : R.exact → ∀ name, b.has name → l.MayBind name)
    (hstep : ∀ u, u.Stands R (l :: Γ) → u.machine.environment.frame = t.size →
      Keeps R grown u Q c)
    (hq : ∀ a u e, u.NamesFit R → Q a u → Q a (u.moved e)) :
    Keeps R grown (t.addFrame l.site b) Q (Traced.inEnvironment (e.inner t.size) c) := by
  have hcovers : Covers R (t.addFrame l.site b).toMoment (e.inner t.size).chain (l :: Γ) := by
    have hgrows : t.Grows R LoxScript.still (t.addFrame l.site b) := by
      refine ⟨hl.extended, hl.names, fun _ a ha name h => .inl ?_⟩
      rwa [frame_addFrame_of_lt ha] at h
    exact .inner (covered_addFrame hlower hupper) hc.lt_size (hc.still hgrows fun _ _ _ _ h => h)
  have hin := hstep _ ⟨hl.sound.moved (e.inner t.size), hcovers.moved _⟩ rfl
  have hnames : Keeps R grown _ (fun a u => u.NamesFit R ∧ Q a u) c :=
    hin.imp fun a u hu hqa => ⟨hu.names, hqa⟩
  exact (inEnvironment hnames fun a u hu => ⟨hu.1, hq a u _ hu.1 hu.2⟩).imp fun _ _ _ h => h.2

/-- A write of a field. -/
theorem setField {o : Object} {name : String} {v : Value} (hs : t.Sound R) (hv : v.Sound R t) :
    Keeps R grown t (fun (w : Value) u => w.Sound R u) (do
      lift (Run.setField o name v)
      return v) := by
  have hl : t.Leads R grown
      { t with machine := { t.machine with store := t.machine.store.setField o name v } } := by
    refine .machine hs rfl (Nat.le_refl _) rfl fun o' name' w hw => ?_
    rcases Store.get?_fields_setField _ hw with rfl | hold
    · exact .inr hv
    · exact .inl hold
  exact ok rfl hl (hv.mono hl.extended hl.names)

/-- A function literal with a name finds itself in a frame of its own. -/
theorem namedLiteral {p : Path} {name : Token} {params : List Token} {body : List ResolvedStmt}
    (hS : t.Stands R Γ) (hfits : BodyFits R p (Γ.literal p (some name) params body) body) :
    Keeps R grown t (fun (v : Value) u => v.Sound R u) (do
      let inner ← Traced.newEnvironment (.literalName p name.lexeme) (← lift Run.current) []
      let f ← Traced.newClosure p (some name.lexeme) params body inner false
      lift (Run.defineIn inner.frame name.lexeme (.function f))
      return Value.function f) := by
  refine unseen [name.lexeme] ?_
  have hframe : t.Leads R (growing t.size [name.lexeme])
      (t.addFrame (.literalName p name.lexeme) []) :=
    .addFrame hS.sound (fun _ _ h => by cases h) fun _ _ h => by cases h
  have hclosure := hframe.trans (.addClosure hframe.sound p)
  have hsite : (t.addFrame (.literalName p name.lexeme) []).site t.size =
      some (.literalName p name.lexeme) := Function.update_self _ _ _
  let f : Closure := ⟨t.machine.store.identities, some name.lexeme, params.map (·.lexeme), body,
    t.machine.environment.inner t.size, false⟩
  let u := ((t.addFrame (.literalName p name.lexeme) []).addClosure p).define t.size name.lexeme
    (.function f)
  have hgrow : ((t.addFrame (.literalName p name.lexeme) []).addClosure p).Grows R
      (growing t.size [name.lexeme]) u := by
    refine .define hclosure.names (fun _ site h => .inr ?_) (fun _ _ => .inr ⟨rfl, by simp⟩) _
    cases hsite.symm.trans h
    simp [Site.literalName]
  have hall := hclosure.toGrows.trans hgrow
  have hsize : t.size < (t.addFrame (.literalName p name.lexeme) []).size := by
    rw [size_addFrame]
    exact Nat.lt_succ_self _
  have hempty := frame_addFrame_self t (.literalName p name.lexeme) []
  have hdefined : u.frame t.size =
      ((t.addFrame (.literalName p name.lexeme) []).frame t.size).set name.lexeme (.function f) :=
    Store.frame_define_self _ hsize _ _
  have hhas : ∀ other, (u.frame t.size).has other ↔ other = name.lexeme := fun other => by
    rw [hdefined, hempty, Bindings.has_set]
    simp [Bindings.has, Bindings.get?]
  have hf : f.Sound R u (.literalName p name.lexeme :: Γ) := by
    refine ⟨Nat.lt_succ_self _, ?_, fun h => (by cases h), ?_⟩
    · refine .inner ⟨?_, hsite, fun _ other h => ?_, fun _ other h => ?_⟩ hS.covers.lt_size
        (hS.covers.sealed hall.extended hall.names)
      · exact hgrow.extended.allocated hsize
      · simp only [Layer.sealed, Layer.literalName, Bindings.get?] at h
        split at h
        next heq => exact (hhas other).mpr heq.symm
        next => cases h
      · have hother := (hhas other).mp h
        simp [Layer.literalName, Site.literalName, hother]
    · rw [show u.origin f.identity = p from Function.update_self _ _ _]
      exact hfits
  exact ok rfl (hclosure.trans (.define hclosure.sound hgrow ⟨_, hf⟩)) ⟨_, hf⟩

theorem current {k : Environment → Traced α} (hk : Keeps R grown t Q (k t.machine.environment)) :
    Keeps R grown t Q (lift Run.current >>= k) := hk

/-- A function literal without a name. -/
theorem literal {p : Path} {params : List Token} {body : List ResolvedStmt}
    (hS : t.Stands R Γ) (hfits : BodyFits R p (Γ.literal p none params body) body) :
    Keeps R grown t (fun (v : Value) u => v.Sound R u) (do
      return Value.function
        (← Traced.newClosure p none params body (← lift Run.current) false)) := by
  refine current (bind (newClosure (Q := fun f u => f.Sound R u Γ) hS.sound ?_) fun f u hl hf =>
    pure hl.sound ⟨Γ, hf⟩)
  have hl : t.Leads R still (t.addClosure p) := .addClosure hS.sound p
  refine ⟨Nat.lt_succ_self _, hS.covers.sealed hl.extended hl.names, fun h => (by cases h), ?_⟩
  rw [show (t.addClosure p).origin t.machine.store.identities = p from Function.update_self _ _ _]
  exact hfits

/-- A declared function can refer to itself. -/
theorem functionDecl {a : Address} {p : Path} {name : Token} {params : List Token}
    {body : List ResolvedStmt} (hS : t.Stands R Γ) (ha : t.machine.environment.frame = a)
    (hname : R.exact → ∀ l, Γ.head? = some l → name.lexeme ∈ l.site.names)
    (hfits : BodyFits R p
      (.body p (params.map (·.lexeme)) body :: (Γ.set name.lexeme true).sealed) body) :
    Keeps R (growing a [name.lexeme]) t (Signal.Leaves R (Γ.declare [name.lexeme])) (do
      let f ← Traced.newClosure p (some name.lexeme) params body (← lift Run.current) false
      lift (Run.define name.lexeme (.function f))
      return Signal.proceed) := by
  refine current (bind (newClosure (Q := fun f u => u = t.addClosure p ∧ f =
    ⟨t.machine.store.identities, _, _, body, t.machine.environment, false⟩) hS.sound ⟨rfl, rfl⟩)
    fun f u hl hf => ?_)
  obtain ⟨rfl, rfl⟩ := hf
  have hstill : t.Leads R still (t.addClosure p) := .addClosure hS.sound p
  have hU := hstill.stands hS fun _ _ _ h => h
  refine bind (define hU ha hname ⟨Γ.set name.lexeme true, ?_⟩) fun _ w hw hW =>
    pure hw.sound ⟨trivial, fun _ => hW⟩
  have hg := grows_define hU ha hname
  refine ⟨Nat.lt_succ_self _, ?_, fun h => (by cases h), ?_⟩
  · exact (covers_define hU ha (hg _)).sealed (.refl _) (hg _).names
  · rw [show (Tracer.define (t.addClosure p) a name.lexeme _).origin
      t.machine.store.identities = p from Function.update_self _ _ _]
    exact hfits

/-- A class is defined twice: as nil while its methods are made, and then as itself. -/
theorem classDecl {a : Address} {p : Path} {name : Token} {methods : List ResolvedMethod}
    (hS : t.Stands R Γ) (ha : t.machine.environment.frame = a)
    (hname : R.exact → ∀ l, Γ.head? = some l → name.lexeme ∈ l.site.names)
    (hfits : ∀ i m, methods[i]? = some m →
      BodyFits R (i :: p) ((Γ.set name.lexeme true).method (i :: p) m) m.body) :
    Keeps R (growing a [name.lexeme]) t (Signal.Leaves R (Γ.declare [name.lexeme])) (do
      lift (Run.define name.lexeme .nil)
      let methods ← Traced.newMethods p (← lift Run.current) 0 methods []
      let identity ← lift (Run.withStore Store.fresh)
      lift (Run.define name.lexeme (.klass ⟨identity, name.lexeme, methods⟩))
      return Signal.proceed) := by
  refine bind (define hS ha hname trivial) fun _ u hu hU => current ?_
  have hcovers := hU.covers.sealed (.refl u) hU.sound.names
  have hmethods : Keeps R still u (fun ms w => ∀ name f, ms.get? name = some f →
      ∃ Γ, f.SoundMethod R w Γ) (Traced.newMethods p u.machine.environment 0 methods []) := by
    refine newMethods methods 0 hU.sound hcovers (fun j m hj => ?_) fun _ _ h => by cases h
    rw [Nat.zero_add]
    exact hfits j m hj
  refine bind (hmethods.standing hU) fun ms w hw hW => ?_
  obtain ⟨hms, hW⟩ := hW
  have hfresh : w.Leads R still
      { w with machine := { w.machine with store := w.machine.store.fresh.2 } } :=
    .machine hW.sound rfl (Nat.le_succ _) rfl fun _ _ _ h => .inl h
  refine bind (Q := fun _ x => w.Leads R still x)
    (ok rfl (hfresh.weaken fun _ _ _ h => h.elim) hfresh) fun identity x _ hx => ?_
  have hX := hx.stands hW fun _ _ _ h => h
  have hframe : x.machine.environment.frame = a := by
    rw [hx.environment, hw.environment, hu.environment, ha]
  have hsites : ∀ l, (Γ.declare [name.lexeme]).head? = some l →
      ∃ k, Γ.head? = some k ∧ l.site = k.site := by
    intro l hl
    cases Γ with
    | nil => cases hl
    | cons k Γ => exact ⟨k, rfl, by cases hl; rfl⟩
  have hclass : Class.Sound R x ⟨identity, name.lexeme, ms⟩ := by
    intro method f hf
    obtain ⟨Δ, hm⟩ := hms method f hf
    exact ⟨Δ, hm.mono hx.extended hx.names⟩
  have hname' : R.exact → ∀ l, (Γ.declare [name.lexeme]).head? = some l →
      name.lexeme ∈ l.site.names := by
    intro hexact l hl
    obtain ⟨k, hk, hsite⟩ := hsites l hl
    exact hsite ▸ hname hexact k hk
  have hg := grows_define hX hframe hname' (.klass ⟨identity, name.lexeme, ms⟩)
  refine bind (define hX hframe hname' (Class.Sound.mono hclass hg.extended hg.names))
    fun _ y hy hY => pure hy.sound ⟨trivial, fun _ => ?_⟩
  have htwice : (Γ.declare [name.lexeme]).declare [name.lexeme] = Γ.declare [name.lexeme] := by
    cases Γ with
    | nil => rfl
    | cons k Γ => simp [Context.declare, Context.set]
  rwa [htwice] at hY

end Traced.Keeps

section Meaning

variable {R : Regime} {turns : Nat} {invoke : Value → List Value → Traced Value}

mutual

/-- An expression whose spots fit has a sound value, and lets no frame grow. -/
theorem Expr.trace_sound (hi : CallSound R invoke) {p : Path} {Γ : Context} {t : Tracer} :
    (e : ResolvedExpr) → Spot.Throughout R.holds ⟨p, Γ, .expr e⟩ → t.Stands R Γ →
      (e.trace turns invoke p).Keeps R still t fun v u => v.Sound R u
  | .literal value, h, hS => .visiting hS h.here fun u hU _ => by
    refine .pure hU.sound (.of_isData ?_)
    cases value <;> rfl
  | .grouping inner, h, hS => .visiting hS h.here fun u hU _ =>
    inner.trace_sound hi (h.part (by simp [Spot.parts])) hU
  | .unary operator right, h, hS => .visiting hS h.here fun u hU _ => by
    refine .bind (right.trace_sound hi (h.part (by simp [Spot.parts])) hU) fun v w hw hv => ?_
    split
    · refine .ofExcept hw.sound (fun b hb => ?_) fun failure hf _ => ?_
      · cases v <;> cases hb
        trivial
      · cases v <;> cases hf <;> trivial
    · exact .pure hw.sound trivial
  | .binary left operator right, h, hS => .visiting hS h.here fun u hU _ => by
    refine .bind ((left.trace_sound hi (h.part (by simp [Spot.parts])) hU).standing hU)
      fun a w hw hW => ?_
    refine .bind (right.trace_sound hi (h.part (by simp [Spot.parts])) hW.2) fun b x hx hb => ?_
    split
    · exact .pure hx.sound hb
    next hcomma =>
      exact .apply hx.sound fun hs => (R.safe_of_holds hs _ h.here).shaped.resolve_left hcomma
  | .logical left operator right, h, hS => .visiting hS h.here fun u hU _ => by
    refine .bind ((left.trace_sound hi (h.part (by simp [Spot.parts])) hU).standing hU)
      fun a w hw hW => ?_
    split
    · exact .pure hw.sound hW.1
    · exact right.trace_sound hi (h.part (by simp [Spot.parts])) hW.2
  | .variable name mark, h, hS => .visiting hS h.here fun u hU _ =>
    .lookUp hU fun hs d hd =>
      (R.safe_of_holds hs _ h.here).reads _ d (by simp [Spot.reference?, Node.referred?, hd]) rfl
  | .assign name operator value mark, h, hS => .visiting hS h.here fun u hU _ => by
    have hvalue : ∀ w, u.Leads R still w →
        (value.trace turns invoke (0 :: p)).Keeps R still w fun v x => v.Sound R x :=
      fun w hw => value.trace_sound hi (h.part (by simp [Spot.parts]))
        (hw.stands hU fun _ _ _ h => h)
    refine .bind (.assigned (fun hsome => .lookUp hU fun hs d hd => ?_) hvalue hU.sound
      fun hs sign hsign => ?_) fun v w hw hv => ?_
    · exact (R.safe_of_holds hs _ h.here).reads _ d (by simp [Spot.reference?, Node.referred?, hd]) hsome
    · subst hsign
      exact (R.safe_of_holds hs _ h.here).shaped
    refine .bind (.visitingFrom (hw.stands hU fun _ _ _ h => h) h.here fun x hX hx _ =>
      .assign hX (hv.mono hx.extended hx.names) (fun hs d hd => ?_) fun hx d hd => ?_)
      fun _ x hx hvx => .pure hx.sound hvx
    · exact (R.safe_of_holds hs _ h.here).reaches name.lexeme d (by simp [Spot.reference?, Node.referred?, hd])
    · exact (R.exact_of_holds hx _ h.here).found _ d (by simp [Spot.reference?, Node.referred?, hd])
  | .call callee paren arguments, h, hS => .visiting hS h.here fun u hU _ => by
    refine .bind ((callee.trace_sound hi (h.part (by simp [Spot.parts])) hU).standing hU)
      fun f w hw hW => ?_
    refine .bind (Expr.traceAll_sound hi 1 arguments (fun x hx => h.part (by simp [Spot.parts, hx]))
      hW.2) fun vs x hx hvs => ?_
    exact .callAt hi hx.sound (hW.1.mono hx.extended hx.names) hvs
  | .get object name, h, hS => .visiting hS h.here fun u hU _ => by
    refine .bind (object.trace_sound hi (h.part (by simp [Spot.parts])) hU) fun v w hw hv => ?_
    cases v with
    | object o => exact .getProperty hw.sound hv
    | _ => exact .throw hw.sound fun _ => trivial
  | .set object name operator value, h, hS => .visiting hS h.here fun u hU _ => by
    refine .bind ((object.trace_sound hi (h.part (by simp [Spot.parts])) hU).standing hU)
      fun v w hw hW => ?_
    cases v with
    | object o =>
      refine .bind (.assigned (fun _ => .getProperty hw.sound hW.1) (fun x hx => ?_) hw.sound
        fun hs sign hsign => ?_) fun v x hx hv => ?_
      · exact value.trace_sound hi (h.part (by simp [Spot.parts]))
          (hx.stands hW.2 fun _ _ _ h => h)
      · subst hsign
        exact (R.safe_of_holds hs _ h.here).shaped
      · exact .setField hx.sound hv
    | _ => exact .throw hw.sound fun _ => trivial
  | .this keyword mark, h, hS => .visiting hS h.here fun u hU _ =>
    .lookUp hU fun hs d hd =>
      (R.safe_of_holds hs _ h.here).reads _ d (by simp [Spot.reference?, Node.referred?, hd]) rfl
  | .function none params body, h, hS => .visiting hS h.here fun u hU _ =>
    .literal hU (h.body (by simp [Spot.bodies]))
  | .function (some name) params body, h, hS => .visiting hS h.here fun u hU _ =>
    .namedLiteral hU (h.body (by simp [Spot.bodies]))

theorem Expr.traceAll_sound (hi : CallSound R invoke) {p : Path} {Γ : Context} {t : Tracer}
    (i : Nat) : (es : List ResolvedExpr) → (∀ x ∈ Spot.exprs p i Γ es, x.Throughout R.holds) →
      t.Stands R Γ →
      (Expr.traceAll turns invoke p i es).Keeps R still t fun vs u => ∀ v ∈ vs, v.Sound R u
  | [], _, hS => .pure hS.sound fun _ h => by cases h
  | e :: es, h, hS => by
    refine .bind ((e.trace_sound hi (h _ List.mem_cons_self) hS).standing hS) fun v u hu hU => ?_
    refine .bind (Expr.traceAll_sound hi (i + 1) es (fun x hx => h x (List.mem_cons_of_mem _ hx))
      hU.2) fun vs w hw hvs => .pure hw.sound ?_
    intro v' hv'
    rcases List.mem_cons.mp hv' with rfl | hold
    · exact hU.1.mono hw.extended hw.names
    · exact hvs v' hold

end

mutual

/-- A statement whose spots fit defines at most the names that it declares, and has defined them
if control goes on. -/
theorem Stmt.trace_sound (hi : CallSound R invoke) {a : Address} {p : Path} {Γ : Context}
    {t : Tracer} : (s : ResolvedStmt) → Spot.Throughout R.holds ⟨p, Γ, .stmt s⟩ →
      t.Stands R Γ → t.machine.environment.frame = a →
      (s.trace turns invoke p).Keeps R (growing a s.declares) t (Signal.Leaves R (Γ.declare s.declares))
  | .expression value, h, hS, _ => .visiting hS h.here fun u hU _ => by
    refine .bind ((value.trace_sound hi (h.part (by simp [Spot.parts])) hU).standing hU)
      fun v w hw hW => ?_
    exact .pure hw.sound ⟨trivial, fun _ => hW.2⟩
  | .print value, h, hS, _ => .visiting hS h.here fun u hU _ => by
    refine .bind ((value.trace_sound hi (h.part (by simp [Spot.parts])) hU).standing hU)
      fun v w hw hW => ?_
    have hl : w.Leads R still { w with machine := { w.machine with
        output := (v.display ++ "\n") :: w.machine.output } } :=
      .machine hW.2.sound rfl (Nat.le_refl _) rfl fun _ _ _ h => .inl h
    exact .ok rfl (hl.weaken fun _ _ _ h => h.elim)
      ⟨trivial, fun _ => hl.stands hW.2 fun _ _ _ h => h⟩
  | .varDecl name none, h, hS, ha => .visiting hS h.here fun u hU hu => by
    refine .bind (.define hU (hu ▸ ha) (fun hx l hl => ?_) trivial) fun _ w hw hW =>
      .pure hw.sound ⟨trivial, fun _ => hW⟩
    exact ((R.exact_of_holds hx _ h.here).fresh _ rfl l hl).2.1
  | .varDecl name (some value), h, hS, ha => .visiting hS h.here fun u hU hu => by
    have hfresh : R.exact → ∀ l, Γ.head? = some l →
        l.active ∧ name.lexeme ∈ l.site.names ∧ l.scope.get? name.lexeme = none :=
      fun hx => (R.exact_of_holds hx _ h.here).fresh _ rfl
    have hpending : u.Stands R (Γ.set name.lexeme false) :=
      ⟨hU.sound, hU.covers.pending fun hx l hl => (hfresh hx l hl).2.2⟩
    refine .bind ((value.trace_sound hi (h.part (by simp [Spot.parts])) hpending).standing hU)
      fun v w hw hW => ?_
    have hname : R.exact → ∀ l, Γ.head? = some l → name.lexeme ∈ l.site.names :=
      fun hx l hl => (hfresh hx l hl).2.1
    have hframe : w.machine.environment.frame = a := by rw [hw.environment, hu, ha]
    have hg := Traced.Keeps.grows_define hW.2 hframe hname v
    refine .bind (.define hW.2 hframe hname (hW.1.mono hg.extended hg.names)) fun _ x hx hX =>
      .pure hx.sound ⟨trivial, fun _ => hX⟩
  | .block body, h, hS, ha => .visiting hS h.here fun u hU hu => by
    -- What the body defines, it defines in a frame that is not there yet.
    refine .imp (.unseen (declared body) (.current (.bind (.newEnvironment hU.sound
      (fun _ _ h => by cases h) fun _ _ h => by cases h) fun e w hw he => ?_)))
      fun signal w hw hsignal => ⟨hsignal, fun _ => hw.stands_free hU fun _ => rfl⟩
    obtain ⟨rfl, rfl⟩ := he
    refine .inFrame (l := .block p body) hw hU.covers (fun _ _ h => by cases h)
      (fun _ _ h => by cases h) (fun x hX hx => ?_) fun signal x e hn hs => hs.mono (.moved x e) hn
    exact (Stmt.traceAll_sound hi 0 body (h.body (by simp [Spot.bodies])) hX hx).imp
      fun _ _ _ hs => hs.1
  | .ifElse condition yes none, h, hS, ha => .visiting hS h.here fun u hU hu => by
    have hfree : R.safe → yes.declares = [] :=
      fun hs => (R.safe_of_holds hs _ h.here).shaped.1
    refine .bind ((condition.trace_sound hi (h.part (by simp [Spot.parts])) hU).standing hU)
      fun v w hw hW => ?_
    split
    · exact yes.trace_sound hi (h.part (by simp [Spot.parts])) hW.2 (by rw [hw.environment, hu, ha])
    · exact .pure hw.sound ⟨trivial, fun _ => hW.2.declare_free hfree⟩
  | .ifElse condition yes (some no), h, hS, ha => .visiting hS h.here fun u hU hu => by
    have hyes : R.safe → yes.declares = [] :=
      fun hs => (R.safe_of_holds hs _ h.here).shaped.1
    have hno : R.safe → no.declares = [] :=
      fun hs => (R.safe_of_holds hs _ h.here).shaped.2 no rfl
    refine .bind ((condition.trace_sound hi (h.part (by simp [Spot.parts])) hU).standing hU)
      fun v w hw hW => ?_
    have hframe : w.machine.environment.frame = a := by rw [hw.environment, hu, ha]
    have hboth : R.safe → (Stmt.ifElse condition yes (some no)).declares = [] :=
      fun hs => by simp [Stmt.declares, hyes hs, hno hs]
    split
    · refine .imp (.weaken (yes.trace_sound hi (h.part (by simp [Spot.parts])) hW.2 hframe)
        fun b _ name hg => ⟨hg.1, by simp [Stmt.declares, hg.2]⟩) fun signal x hx hs => ?_
      exact ⟨hs.1, fun _ => (hx.stands_free hW.2 hboth).declare_free hboth⟩
    · refine .imp (.weaken (no.trace_sound hi (h.part (by simp [Spot.parts]))
        (hW.2.declare_free hyes) hframe)
        fun b _ name hg => ⟨hg.1, by simp [Stmt.declares, hg.2]⟩) fun signal x hx hs => ?_
      exact ⟨hs.1, fun _ => (hx.stands_free hW.2 hboth).declare_free hboth⟩
  | .loop condition body none, h, hS, ha => .visiting hS h.here fun u hU hu => by
    have hfree : R.safe → body.declares = [] :=
      fun hs => (R.safe_of_holds hs _ h.here).shaped
    refine .imp (.loop (I := fun w => w.Stands R Γ ∧ w.machine.environment.frame = a)
      (fun w x hw hx => ⟨hx.stands_free hw.1 hfree, by rw [hx.environment, hw.2]⟩)
      (fun w hw => ?_) (fun w hw => ?_) (fun w hw => .pure hw.1.sound trivial) turns hU.sound
      ⟨hU, by rw [hu, ha]⟩) fun signal w _ hs => ⟨hs.1, fun _ => hs.2.1.declare_free hfree⟩
    · exact .map (.ofStill (condition.trace_sound hi (h.part (by simp [Spot.parts])) hw.1))
        fun _ _ _ => trivial
    · exact (body.trace_sound hi (h.part (by simp [Spot.parts])) hw.1 hw.2).imp
        fun _ _ _ hs => hs.1
  | .loop condition body (some increment), h, hS, ha => .visiting hS h.here fun u hU hu => by
    have hfree : R.safe → body.declares = [] :=
      fun hs => (R.safe_of_holds hs _ h.here).shaped
    refine .imp (.loop (I := fun w => w.Stands R Γ ∧ w.machine.environment.frame = a)
      (fun w x hw hx => ⟨hx.stands_free hw.1 hfree, by rw [hx.environment, hw.2]⟩)
      (fun w hw => ?_) (fun w hw => ?_) (fun w hw => ?_) turns hU.sound
      ⟨hU, by rw [hu, ha]⟩) fun signal w _ hs => ⟨hs.1, fun _ => hs.2.1.declare_free hfree⟩
    · exact .map (.ofStill (condition.trace_sound hi (h.part (by simp [Spot.parts])) hw.1))
        fun _ _ _ => trivial
    · exact (body.trace_sound hi (h.part (by simp [Spot.parts])) hw.1 hw.2).imp
        fun _ _ _ hs => hs.1
    · exact .map (.ofStill (increment.trace_sound hi (h.part (by simp [Spot.parts]))
        (hw.1.declare_free hfree))) fun _ _ _ => trivial
  | .breakLoop _, h, hS, _ => .visiting hS h.here fun u hU _ =>
    .pure hU.sound ⟨trivial, fun h => by cases h⟩
  | .continueLoop _, h, hS, _ => .visiting hS h.here fun u hU _ =>
    .pure hU.sound ⟨trivial, fun h => by cases h⟩
  | .returnFrom _ none, h, hS, _ => .visiting hS h.here fun u hU _ =>
    .pure hU.sound ⟨trivial, fun h => by cases h⟩
  | .returnFrom _ (some value), h, hS, _ => .visiting hS h.here fun u hU _ => by
    refine .ofStill (.bind (value.trace_sound hi (h.part (by simp [Spot.parts])) hU)
      fun v w hw hv => ?_)
    exact .pure hw.sound ⟨hv, fun h => by cases h⟩
  | .functionDecl name params body, h, hS, ha => .visiting hS h.here fun u hU hu => by
    refine .functionDecl hU (hu ▸ ha) (fun hx l hl => ?_) (h.body (by simp [Spot.bodies]))
    exact ((R.exact_of_holds hx _ h.here).fresh _ rfl l hl).2.1
  | .classDecl name methods, h, hS, ha => .visiting hS h.here fun u hU hu => by
    refine .classDecl hU (hu ▸ ha) (fun hx l hl => ?_) fun i m hm => h.body ?_
    · exact ((R.exact_of_holds hx _ h.here).fresh _ rfl l hl).2.1
    · obtain ⟨hlt, rfl⟩ := List.getElem?_eq_some_iff.mp hm
      exact List.mem_mapIdx.mpr ⟨i, hlt, rfl⟩

theorem Stmt.traceAll_sound (hi : CallSound R invoke) {a : Address} {p : Path} {Γ : Context}
    {t : Tracer} (i : Nat) : (ss : List ResolvedStmt) →
      (∀ x ∈ Spot.stmts p i Γ ss, x.Throughout R.holds) → t.Stands R Γ →
      t.machine.environment.frame = a →
      (Stmt.traceAll turns invoke p i ss).Keeps R (growing a (declared ss)) t
        (Signal.Leaves R (Γ.declare (declared ss)))
  | [], _, hS, _ => .pure hS.sound ⟨trivial, fun _ => hS⟩
  | s :: ss, h, hS, ha => by
    refine .bind (.weaken (s.trace_sound hi (h _ List.mem_cons_self) hS ha)
      fun b _ name hg => ⟨hg.1, by simp [declared, hg.2]⟩) fun signal u hu hs => ?_
    cases signal with
    | proceed =>
      refine .imp (.weaken (Stmt.traceAll_sound hi (i + 1) ss
        (fun x hx => h x (List.mem_cons_of_mem _ hx)) (hs.2 rfl) (by rw [hu.environment, ha]))
        fun b _ name hg => ⟨hg.1, ?_⟩) fun signal w hw hleaves => ?_
      · exact List.mem_append_right _ hg.2
      · refine ⟨hleaves.1, fun hp => ?_⟩
        have := hleaves.2 hp
        rwa [← Context.declare_append] at this
    | _ => exact .pure hu.sound ⟨hs.1, fun h => by cases h⟩

end

theorem mem_of_get?_bindParams {params : List String} {vs : List Value} {name : String} {v : Value}
    (h : (bindParams params vs).get? name = some v) : name ∈ params ∧ v ∈ vs := by
  suffices hfold : ∀ (pairs : List (String × Value)) (b : Bindings Value),
      (pairs.foldl (fun b (x : String × Value) => b.set x.1 x.2) b).get? name = some v →
      (name, v) ∈ pairs ∨ b.get? name = some v by
    rcases hfold _ [] h with hmem | hnil
    · exact ⟨(List.of_mem_zip hmem).1, (List.of_mem_zip hmem).2⟩
    · cases hnil
  intro pairs
  induction pairs with
  | nil => exact fun b hb => .inr hb
  | cons pair pairs ih =>
    intro b hb
    rcases ih (b.set pair.1 pair.2) hb with hmem | hset
    · exact .inl (List.mem_cons_of_mem _ hmem)
    · rw [Bindings.get?_set] at hset
      split at hset
      next heq =>
        cases hset
        exact .inl (heq ▸ List.mem_cons_self)
      next => exact .inr hset

theorem has_bindParams {params : List String} {vs : List Value} {name : String}
    (hlen : vs.length = params.length) (h : name ∈ params) : (bindParams params vs).has name := by
  suffices hfold : ∀ (pairs : List (String × Value)) (b : Bindings Value),
      name ∈ pairs.map (·.1) ∨ b.has name →
      (pairs.foldl (fun b (x : String × Value) => b.set x.1 x.2) b).has name by
    refine hfold _ [] (.inl ?_)
    rw [List.map_fst_zip (Nat.le_of_eq hlen.symm)]
    exact h
  intro pairs
  induction pairs with
  | nil => exact fun b hb => hb.resolve_left (by simp)
  | cons pair pairs ih =>
    intro b hb
    refine ih _ ?_
    rcases hb with hmem | hold
    · rcases List.mem_cons.mp hmem with heq | htail
      · exact .inr ((Bindings.has_set _ _ _ _).mpr (.inl heq))
      · exact .inl htail
    · exact .inr ((Bindings.has_set _ _ _ _).mpr (.inr hold))

/-- A call of a function. Its body is run in a frame that binds its parameters. -/
theorem Closure.trace_sound (hi : CallSound R invoke) {t : Tracer} {f : Closure} {vs : List Value}
    {Γ : Context} (hs : t.Sound R) (hf : f.Sound R t Γ) (hvs : ∀ v ∈ vs, v.Sound R t)
    (hlen : vs.length = f.params.length) :
    (f.trace turns invoke vs).Keeps R still t fun v u => v.Sound R u := by
  have hparams : ∀ name, (bindParams f.params vs).has name → name ∈ f.params := by
    intro name h
    obtain ⟨v, hv⟩ := (Bindings.has_iff _ _).mp h
    exact (mem_of_get?_bindParams hv).1
  refine .unseen (declared f.body) (.reading (.bind (.newEnvironment hs
    (fun _ name h => List.mem_append_left _ (hparams name h))
    fun name v h => hvs v (mem_of_get?_bindParams h).2) fun e u hu he => ?_))
  obtain ⟨rfl, rfl⟩ := he
  refine .bind (Q := fun signal w => signal.Sound R w)
    (.inFrame (l := .body (t.origin f.identity) f.params f.body) hu hf.covers
      (fun _ name h => has_bindParams hlen ?_) (fun _ name h => ?_) (fun w hW hw => ?_)
      fun signal w e hn hs => hs.mono (.moved w e) hn) fun signal w hw hsignal => ?_
  · by_contra hn
    simp [Layer.body, definedNames, hn, Bindings.get?] at h
  · simp [Layer.MayBind, Layer.body, definedNames, hparams name h]
  · exact (Stmt.traceAll_sound hi 0 f.body hf.fits hW hw).imp fun _ _ _ hs => hs.1
  · have hfw := hf.mono (hu.extended.trans hw.extended) hw.names
    by_cases hinit : f.isInitializer
    · simp only [hinit, if_true]
      refine .reading (.ofExcept hw.sound (fun v hv => hw.sound.getAt hv) fun failure hfail hsafe => ?_)
      obtain ⟨l, hl, hget⟩ := hf.receiver hinit
      have hsealed : Γ.sealed[0]? = some l.sealed := by
        simp only [Context.sealed, List.getElem?_map, hl, Option.map_some]
      have hbinds : Γ.sealed.Binds 0 receiverName := ⟨l.sealed, hsealed, hget⟩
      obtain ⟨v, hv⟩ := hfw.covers.getAt hsafe hbinds
      cases hv.symm.trans hfail
    · simp only [hinit]
      cases signal with
      | returnValue v => exact .pure hw.sound hsignal
      | _ => exact .pure hw.sound trivial

/-- A new instance of a class, on which the initializer is called if there is one. -/
theorem Class.trace_sound (hi : CallSound R invoke) {t : Tracer} {c : Class} {vs : List Value}
    (hs : t.Sound R) (hc : c.Sound R t) (hvs : ∀ v ∈ vs, v.Sound R t)
    (hlen : ∀ f, c.methods.get? initializerName = some f → vs.length = f.params.length) :
    (c.trace turns invoke vs).Keeps R still t fun v u => v.Sound R u := by
  have hl : t.Leads R still
      { t with machine := { t.machine with store := (t.machine.store.addObject c).2 } } :=
    .machine hs rfl (Nat.le_refl _) rfl fun o name v h => .inl (Store.fields_addObject _ c o ▸ h)
  refine .bind (Q := fun o u => o.owner = c ∧ t.Leads R still u) (.ok rfl hl ⟨rfl, hl⟩)
    fun o u _ ho => ?_
  obtain ⟨rfl, hu⟩ := ho
  have hou := hc.mono hu.extended hu.names
  cases hm : o.owner.methods.get? initializerName with
  | none => exact .pure hu.sound hou
  | some method =>
    obtain ⟨Γ, hmethod⟩ := hou _ method hm
    have ho : (Value.object o).Sound R u := hou
    refine .bind (.bindMethod hu.sound hmethod ho) fun f w hw hf => ?_
    have hargs : ∀ v ∈ vs, v.Sound R w := fun v hv =>
      ((hvs v hv).mono hu.extended hu.names).mono hw.extended hw.names
    refine .bind (f.trace_sound hi hw.sound hf.1 hargs (by rw [hf.2, hlen method hm]))
      fun _ x hx _ => .pure hx.sound ?_
    exact (hou.mono hw.extended hw.names).mono hx.extended hx.names

end Meaning

/-- No function of a library gives a function back. -/
def Library.Plain (library : Library) : Prop :=
  ∀ name b calls vs, library.get? name = some b → (b.run calls vs).isData

theorem Traced.Keeps.answer {R : Regime} {grown : Address → String → Prop} {t : Tracer}
    {library : Library} (hlib : library.Plain) (hs : t.Sound R) (n : Native) (vs : List Value) :
    Keeps R grown t (fun v u => v.Sound R u) (lift (library.answer n vs)) := by
  refine ok rfl (.machine hs rfl (Nat.le_refl _) rfl fun _ _ _ h => .inl h) ?_
  cases hn : library.get? n.name with
  | none => trivial
  | some b => exact .of_isData (hlib _ _ _ _ hn)

/-- Calls keep tracers sound, however deeply they may nest. -/
theorem traceCall_sound {R : Regime} {library : Library} (hlib : library.Plain) (turns depth : Nat) :
    CallSound R (traceCall library turns depth) := by
  -- A body calls with one level less, however it came to what it calls.
  induction depth with
  | zero => exact fun t f vs hs _ _ _ => .throw hs fun _ => trivial
  | succ depth ih =>
    intro t f vs hs hf hvs ha
    cases f with
    | function f =>
      obtain ⟨Γ, hf⟩ := hf
      exact f.trace_sound ih hs hf hvs (by simpa [Value.arity?] using ha.symm)
    | klass c =>
      refine c.trace_sound ih hs hf hvs fun m hm => ?_
      simpa [Value.arity?, hm] using ha.symm
    | native n => exact .answer hlib hs n vs
    | _ => exact .pure hs trivial

/-- A program whose statements fit the empty context leaves a sound tracer behind. -/
theorem Host.traceProgram_sound {R : Regime} {h : Host} (hlib : h.library.Plain) {p : Path}
    {t : Tracer} (i : Nat) (program : List ResolvedStmt)
    (hfits : ∀ x ∈ Spot.stmts p i [] program, x.Throughout R.holds) (hS : t.Stands R []) :
    ∃ grown, (h.traceProgram p i program).Keeps R grown t fun _ u => u.Stands R [] := by
  refine ⟨fun _ _ => True, ?_⟩
  induction program generalizing t i with
  | nil => exact .pure hS.sound hS
  | cons s ss ih =>
    refine .bind (.weaken (s.trace_sound (traceCall_sound hlib h.turns h.depth)
      (hfits _ List.mem_cons_self) hS rfl) fun _ _ _ _ => trivial) fun _ u hu _ => ?_
    refine ih (i + 1) (fun x hx => hfits x (List.mem_cons_of_mem _ ?_)) (hu.stands_global hS)
    rwa [Context.declare_nil]
end LoxScript
