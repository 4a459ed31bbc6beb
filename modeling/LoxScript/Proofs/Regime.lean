import LoxScript.Proofs.Frames
import LoxScript.Proofs.Trace

/-!
What a run keeps.

An environment covers a context if its frames were made for the scopes of the context, one for
each, innermost first. A regime says what is known of the spots of the programs that are run, and
how much it tells about frames: in a safe regime a frame binds all names that its scope has passed,
in an exact one an active frame binds no others. A tracer is sound if all that it holds fits: its
values, and the visits that it has written down.
-/
namespace LoxScript

def Kind.isOperator (k : Kind) : Bool :=
  k ∈ [.equalEqual, .bangEqual, .plus, .minus, .star, .slash, .percent, .hat, .greater,
    .greaterEqual, .less, .lessEqual]

/-- Operators are operators, declarations stand in bodies only, and no variable has the name of the
receiver. -/
def Node.Shaped {ρ : Type} : Node ρ → Prop
  | .expr (.binary _ operator _) => operator.kind = .comma ∨ operator.kind.isOperator
  | .expr (.assign _ (some sign) _ _) => sign.kind.compound?.isSome
  | .expr (.set _ _ (some sign) _) => sign.kind.compound?.isSome
  | .expr (.this keyword _) => keyword.lexeme = receiverName
  | .stmt (.varDecl name _) => name.lexeme ≠ receiverName
  | .stmt (.ifElse _ yes no) => yes.declares = [] ∧ ∀ s ∈ no, s.declares = []
  | .stmt (.loop _ body _) => body.declares = []
  | _ => True

/-- The token with which a node refers to a name, and its distance. -/
def Node.referred? {ρ : Type} : Node ρ → Option (Token × ρ)
  | .expr (.variable name mark) => some (name, mark)
  | .expr (.assign name _ _ mark) => some (name, mark)
  | .expr (.this keyword mark) => some (keyword, mark)
  | _ => none

namespace Spot

/-- The name to which a node refers, and its distance. -/
def reference? (x : Spot) : Option (String × Option Nat) :=
  x.node.referred?.map fun (name, mark) => (name.lexeme, mark)

def declares? (x : Spot) : Option String :=
  match x.node with
  | .expr _ => none
  | .stmt s => s.declared?.map (·.lexeme)

/-- Whether a node reads the name to which it refers. -/
def reads (x : Spot) : Bool :=
  match x.node with
  | .expr (.variable _ _) => true
  | .expr (.assign _ operator _ _) => operator.isSome
  | .expr (.this _ _) => true
  | _ => false

/-- What a node reads in a scope around it has been passed there, and what it writes
has a scope. -/
structure Safe (x : Spot) : Prop where
  shaped : x.node.Shaped
  reads : ∀ name d, x.reference? = some (name, some d) → x.reads → x.context.Binds d name
  reaches : ∀ name d, x.reference? = some (name, some d) → d < x.context.length

/-- A name leads to the innermost scope whose frame may bind it, and a declared name is new. -/
structure Exact (x : Spot) : Prop where
  found : ∀ name d, x.reference? = some (name, some d) → x.context.Binds d name
  nearest : ∀ name d, x.reference? = some (name, some d) →
    ∀ i < d, ∀ l, x.context[i]? = some l → ¬ l.MayBind name
  global : ∀ name, x.reference? = some (name, none) → ∀ l ∈ x.context, ¬ l.MayBind name
  fresh : ∀ name, x.declares? = some name →
    ∀ l, x.context.head? = some l → l.active ∧ name ∈ l.site.names ∧ l.scope.get? name = none

end Spot

/-- What is known of the spots of the programs that are run. -/
structure Regime where
  holds : Spot → Prop
  safe : Prop
  exact : Prop
  safe_of_exact : exact → safe
  safe_of_holds : safe → ∀ x, holds x → x.Safe
  exact_of_holds : exact → ∀ x, holds x → x.Exact

/-- The remainder of an infinite number by a number that is not zero. -/
def Application.IsInfinite (a : Application) : Prop :=
  ∃ x y, a = ⟨.percent, .number x, .number y⟩ ∧ x.isInf ∧ ¬ y.isNaN ∧ ¬ y == 0

/-- The ways in which a safe run may end early, after some applications of operators. -/
def Failure.Permitted (applied : List Application) : Failure → Prop
  | .fault _ (.unknownOperator _) => False
  | .fault _ _ => True
  | .unbound _ => False
  | .noFrame => False
  | .infiniteRemainder => ∃ a, applied.head? = some a ∧ a.IsInfinite
  | _ => True

namespace Moment

def size (m : Moment) : Nat := m.machine.store.frames.size

def frame (m : Moment) (a : Address) : Bindings Value := m.machine.store.frame a

def chain (m : Moment) : List Address := m.machine.environment.chain

end Moment

/-- A frame was made for a scope, and binds what the regime says. -/
structure Layer.Covered (R : Regime) (m : Moment) (a : Address) (l : Layer) : Prop where
  allocated : a < m.size
  made : m.site a = some l.site
  lower : R.safe → ∀ name, l.scope.get? name = some true → (m.frame a).has name
  upper : R.exact → ∀ name, (m.frame a).has name → l.MayBind name

/-- The frames of a chain were made for the scopes of a context. The last one is the frame
of the globals, and inner frames are younger than outer ones. -/
inductive Covers (R : Regime) (m : Moment) : List Address → Context → Prop
  | global (allocated : 0 < m.size) (untagged : m.site 0 = none) : Covers R m [0] []
  | inner {a : Address} {l : Layer} {chain : List Address} {Γ : Context} (head : l.Covered R m a)
      (younger : ∀ b ∈ chain, b < a) (tail : Covers R m chain Γ) : Covers R m (a :: chain) (l :: Γ)

def BodyFits (R : Regime) (p : Path) (Γ : Context) (body : List ResolvedStmt) : Prop :=
  ∀ x ∈ Spot.stmts p 0 Γ body, x.Throughout R.holds

/-- A function stands in the environment for which its body was resolved. -/
structure Closure.Sound (R : Regime) (t : Tracer) (f : Closure) (Γ : Context) : Prop where
  given : f.identity < t.machine.store.identities
  covers : Covers R t.toMoment f.environment.chain Γ.sealed
  receiver : f.isInitializer → Γ.Binds 0 receiverName
  fits : BodyFits R (t.origin f.identity)
    (.body (t.origin f.identity) f.params f.body :: Γ.sealed) f.body

/-- A method is a function once the scope of its receiver is around it. -/
structure Closure.SoundMethod (R : Regime) (t : Tracer) (f : Closure) (Γ : Context) : Prop where
  given : f.identity < t.machine.store.identities
  covers : Covers R t.toMoment f.environment.chain Γ.sealed
  fits : BodyFits R (t.origin f.identity)
    (.body (t.origin f.identity) f.params f.body :: .receiver (t.origin f.identity) :: Γ.sealed)
    f.body

def Class.Sound (R : Regime) (t : Tracer) (c : Class) : Prop :=
  ∀ name f, c.methods.get? name = some f → ∃ Γ, f.SoundMethod R t Γ

def Value.Sound (R : Regime) (t : Tracer) : Value → Prop
  | .function f => ∃ Γ, f.Sound R t Γ
  | .klass c => c.Sound R t
  | .object o => o.owner.Sound R t
  | _ => True

/-- At a visit, the environment covers the context of the node. -/
def Visit.Sound (R : Regime) (v : Visit) : Prop :=
  ∃ Γ, R.holds ⟨v.path, Γ, v.node⟩ ∧ Covers R v.toMoment v.chain Γ

namespace Tracer

/-- In an exact regime, a frame binds only names of its scope. -/
def NamesFit (R : Regime) (t : Tracer) : Prop :=
  R.exact → ∀ a site, t.site a = some site → ∀ name, (t.frame a).has name → name ∈ site.names

/-- All that a tracer holds fits. -/
structure Sound (R : Regime) (t : Tracer) : Prop where
  names : t.NamesFit R
  values : ∀ a name v, (t.frame a).get? name = some v → v.Sound R t
  fields : ∀ o name v, (t.machine.store.fields o).get? name = some v → v.Sound R t
  visits : ∀ v ∈ t.visits, v.Sound R

/-- A later tracer has all that an earlier one has. -/
structure Extends (t t' : Tracer) : Prop where
  size : t.size ≤ t'.size
  identities : t.machine.store.identities ≤ t'.machine.store.identities
  site : ∀ a < t.size, t'.site a = t.site a
  origin : ∀ i < t.machine.store.identities, t'.origin i = t.origin i
  names : ∀ a name, (t.frame a).has name → (t'.frame a).has name

/-- A later tracer in which, in an exact regime, the frames that there were have come to bind only
what `grown` says. -/
structure Grows (R : Regime) (grown : Address → String → Prop) (t t' : Tracer) : Prop where
  extended : t.Extends t'
  names : t'.NamesFit R
  upper : R.exact → ∀ a < t.size, ∀ name, (t'.frame a).has name →
    (t.frame a).has name ∨ grown a name

/-- What a step does to a sound tracer: it grows, and goes back to its environment. -/
structure Leads (R : Regime) (grown : Address → String → Prop) (t t' : Tracer) : Prop
    extends Grows R grown t t' where
  sound : t'.Sound R
  environment : t'.machine.environment = t.machine.environment

/-- A sound tracer whose environment covers a context. -/
structure Stands (R : Regime) (t : Tracer) (Γ : Context) : Prop where
  sound : t.Sound R
  covers : Covers R t.toMoment t.chain Γ

end Tracer

/-- No frame comes to bind a further name. -/
def still : Address → String → Prop := fun _ _ => False

def growing (a : Address) (names : List String) : Address → String → Prop :=
  fun b name => b = a ∧ name ∈ names

open Tracer

theorem Tracer.Extends.refl (t : Tracer) : t.Extends t :=
  ⟨Nat.le_refl _, Nat.le_refl _, fun _ _ => rfl, fun _ _ => rfl, fun _ _ h => h⟩

theorem Tracer.Extends.trans {t u w : Tracer} (h : t.Extends u) (k : u.Extends w) :
    t.Extends w where
  size := Nat.le_trans h.size k.size
  identities := Nat.le_trans h.identities k.identities
  site a ha := (k.site a (Nat.lt_of_lt_of_le ha h.size)).trans (h.site a ha)
  origin i hi := (k.origin i (Nat.lt_of_lt_of_le hi h.identities)).trans (h.origin i hi)
  names a name hn := k.names a name (h.names a name hn)

@[simp]
theorem Layer.sealed_sealed (l : Layer) : l.sealed.sealed = l.sealed := rfl

@[simp]
theorem Layer.mayBind_sealed (l : Layer) (name : String) :
    l.sealed.MayBind name ↔ name ∈ l.site.names := by
  simp [Layer.MayBind, Layer.sealed]

@[simp]
theorem Context.sealed_cons (l : Layer) (Γ : Context) :
    Context.sealed (l :: Γ) = l.sealed :: Γ.sealed := rfl

@[simp]
theorem Context.sealed_sealed (Γ : Context) : Γ.sealed.sealed = Γ.sealed := by
  simp [Context.sealed, Function.comp_def]

theorem Tracer.Extends.allocated {t t' : Tracer} (h : t.Extends t') {a : Address}
    (ha : a < t.size) : a < t'.size := Nat.lt_of_lt_of_le ha h.size

@[simp]
theorem get?_defineAll (names : List String) (b : Bindings Bool) (name : String) :
    (names.foldl (fun b n => b.set n true) b).get? name =
      if name ∈ names then some true else b.get? name := by
  induction names generalizing b with
  | nil => simp
  | cons first rest ih =>
    rw [List.foldl_cons, ih, Bindings.get?_set]
    by_cases hf : name = first <;> by_cases hr : name ∈ rest <;> simp [hf, hr]

@[simp]
theorem Context.declare_nil (names : List String) : Context.declare [] names = [] := by
  induction names with
  | nil => rfl
  | cons name names ih => exact ih

theorem Context.declare_cons (l : Layer) (Γ : Context) (names : List String) :
    Context.declare (l :: Γ) names =
      { l with scope := names.foldl (fun b n => b.set n true) l.scope } :: Γ := by
  induction names generalizing l with
  | nil => rfl
  | cons name names ih => exact ih { l with scope := l.scope.set name true }

theorem Context.declare_append (Γ : Context) (names others : List String) :
    Γ.declare (names ++ others) = (Γ.declare names).declare others :=
  List.foldl_append

section Covers
variable {R : Regime} {t t' : Tracer} {Γ : Context} {chain : List Address}

theorem Covers.at {m : Moment} (h : Covers R m chain Γ) {d : Nat} {l : Layer}
    (hl : Γ[d]? = some l) : ∃ a, chain[d]? = some a ∧ l.Covered R m a := by
  induction h generalizing d with
  | global => simp at hl
  | @inner a k chain Γ head younger tail ih =>
    cases d with
    | zero =>
      obtain rfl : k = l := by simpa using hl
      exact ⟨a, rfl, head⟩
    | succ d =>
      obtain ⟨b, hb, hc⟩ := ih (by simpa using hl)
      exact ⟨b, by simpa using hb, hc⟩

theorem Covers.lt_size {m : Moment} (h : Covers R m chain Γ) : ∀ a ∈ chain, a < m.size := by
  induction h with
  | global allocated => simpa using allocated
  | inner head younger tail ih =>
    intro a ha
    rcases List.mem_cons.mp ha with rfl | hold
    · exact head.allocated
    · exact ih a hold

/-- A sealed layer stays covered, as it does not say what its frame does not bind. -/
theorem Layer.Covered.sealed {l : Layer} {a : Address} (h : l.Covered R t.toMoment a)
    (he : t.Extends t') (hn : t'.NamesFit R) : l.sealed.Covered R t'.toMoment a where
  allocated := he.allocated h.allocated
  made := (he.site a h.allocated).trans h.made
  lower hs name hb := he.names a name (h.lower hs name hb)
  upper hx name hb := by
    have hsite := (he.site a h.allocated).trans h.made
    exact (l.mayBind_sealed name).mpr (hn hx a _ hsite name hb)

theorem Covers.sealed (h : Covers R t.toMoment chain Γ) (he : t.Extends t')
    (hn : t'.NamesFit R) : Covers R t'.toMoment chain Γ.sealed := by
  induction h with
  | global allocated untagged =>
    exact .global (he.allocated allocated) ((he.site 0 allocated).trans untagged)
  | inner head younger tail ih => exact .inner (head.sealed he hn) younger ih

theorem Closure.Sound.mono {f : Closure} (h : f.Sound R t Γ) (he : t.Extends t')
    (hn : t'.NamesFit R) : f.Sound R t' Γ where
  given := Nat.lt_of_lt_of_le h.given he.identities
  covers := by simpa using h.covers.sealed he hn
  receiver := h.receiver
  fits := by simpa only [he.origin _ h.given] using h.fits

theorem Closure.SoundMethod.mono {f : Closure} (h : f.SoundMethod R t Γ) (he : t.Extends t')
    (hn : t'.NamesFit R) : f.SoundMethod R t' Γ where
  given := Nat.lt_of_lt_of_le h.given he.identities
  covers := by simpa using h.covers.sealed he hn
  fits := by simpa only [he.origin _ h.given] using h.fits

theorem Class.Sound.mono {c : Class} (h : c.Sound R t) (he : t.Extends t')
    (hn : t'.NamesFit R) : c.Sound R t' := by
  intro name f hf
  obtain ⟨Γ, hm⟩ := h name f hf
  exact ⟨Γ, hm.mono he hn⟩

theorem Value.Sound.mono {v : Value} (h : v.Sound R t) (he : t.Extends t')
    (hn : t'.NamesFit R) : v.Sound R t' := by
  cases v with
  | function f =>
    obtain ⟨Γ, hf⟩ := h
    exact ⟨Γ, hf.mono he hn⟩
  | klass c => exact Class.Sound.mono h he hn
  | object o => exact Class.Sound.mono h he hn
  | _ => trivial

/-- Frames that come to bind nothing further go on to cover what they covered. -/
theorem Covers.still {grown : Address → String → Prop} (h : Covers R t.toMoment chain Γ)
    (hg : t.Grows R grown t') (hstill : R.exact → ∀ a ∈ chain, ∀ name, ¬ grown a name) :
    Covers R t'.toMoment chain Γ := by
  induction h with
  | global allocated untagged =>
    exact .global (hg.extended.allocated allocated)
      ((hg.extended.site 0 allocated).trans untagged)
  | @inner a l chain Γ head younger tail ih =>
    refine .inner ?_ younger (ih fun hx b hb => hstill hx b (List.mem_cons_of_mem _ hb))
    refine ⟨hg.extended.allocated head.allocated,
      (hg.extended.site a head.allocated).trans head.made,
      fun hs name hb => hg.extended.names a name (head.lower hs name hb), fun hx name hb => ?_⟩
    rcases hg.upper hx a head.allocated name hb with hold | hnew
    · exact head.upper hx name hold
    · exact absurd hnew (hstill hx a List.mem_cons_self name)

/-- A chain whose innermost frame comes to bind some names covers the context behind their
declarations. -/
theorem Covers.declare {a : Address} {names : List String} (h : Covers R t.toMoment (a :: chain) Γ)
    (hg : t.Grows R (growing a names) t')
    (hd : R.safe → Γ ≠ [] → ∀ name ∈ names, (t'.frame a).has name) :
    Covers R t'.toMoment (a :: chain) (Γ.declare names) := by
  cases h with
  | global allocated untagged =>
    rw [Context.declare_nil]
    exact .global (hg.extended.allocated allocated)
      ((hg.extended.site 0 allocated).trans untagged)
  | @inner _ l _ Γ head younger tail =>
    rw [Context.declare_cons]
    have hsite := (hg.extended.site a head.allocated).trans head.made
    -- Outer frames are older than the innermost one, so they are others and do not grow.
    refine .inner ⟨hg.extended.allocated head.allocated, hsite, ?_, ?_⟩ younger
      (tail.still hg fun _ b hb _ hgrown => absurd hgrown.1 (Nat.ne_of_lt (younger b hb)))
    · intro hs name hb
      simp only [get?_defineAll] at hb
      by_cases hn : name ∈ names
      · exact hd hs (by simp) name hn
      · exact hg.extended.names a name (head.lower hs name (by simpa [hn] using hb))
    · intro hx name hb
      simp only [Layer.MayBind, get?_defineAll]
      split
      next hactive =>
        by_cases hn : name ∈ names
        · simp [hn]
        · rcases hg.upper hx a head.allocated name hb with hold | hnew
          · simpa [Layer.MayBind, hactive, hn] using head.upper hx name hold
          · exact absurd hnew.2 hn
      next => exact hg.names hx a _ hsite name hb

/-- Declarations do not matter where a regime says nothing of frames, or where there are none. -/
theorem Covers.declare_free {m : Moment} {names : List String} (h : Covers R m chain Γ)
    (hn : R.safe → names = []) : Covers R m chain (Γ.declare names) := by
  by_cases hs : R.safe
  · rw [hn hs]
    exact h
  · cases h with
    | global allocated untagged =>
      rw [Context.declare_nil]
      exact .global allocated untagged
    | inner head younger tail =>
      rw [Context.declare_cons]
      exact .inner ⟨head.allocated, head.made, fun h => absurd h hs,
        fun hx => absurd (R.safe_of_exact hx) hs⟩ younger tail

theorem Covers.pending {m : Moment} {name : String} (h : Covers R m chain Γ)
    (hnew : R.exact → ∀ l, Γ.head? = some l → l.scope.get? name = none) :
    Covers R m chain (Γ.set name false) := by
  cases h with
  | global allocated untagged => exact .global allocated untagged
  | @inner a l chain Γ head younger tail =>
    refine .inner ⟨head.allocated, head.made, ?_, ?_⟩ younger tail
    · intro hs other hb
      rw [Bindings.get?_set] at hb
      split at hb
      · cases hb
      · exact head.lower hs other hb
    · intro hx other hb
      have hold := head.upper hx other hb
      simp only [Layer.MayBind] at hold ⊢
      split at hold
      next hactive =>
        have hne : other ≠ name := by
          rintro rfl
          rw [hnew hx l rfl] at hold
          cases hold
        rw [if_pos hactive, Bindings.get?_set_of_ne _ _ hne]
        exact hold
      next hactive => rwa [if_neg hactive]

end Covers
end LoxScript
