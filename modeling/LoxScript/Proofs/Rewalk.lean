import LoxScript.Proofs.Likeness
import LoxScript.Proofs.Trees

/-!
Walks over programs that are alike.

A program that is like a resolved one is resolved already: a walk over it records the distances
that it has, and finds the same faults. A name may stand for another only in the scopes where it is
replaced, so this asks that no two names of the first program become one.
-/
namespace LoxScript

open Resolve Scope

namespace Bindings.Alike
variable {α β : Type} {names : String → String → Prop} {related : α → β → Prop}
  {x : Bindings α} {y : Bindings β}

theorem exists_of_has_right (h : Alike names related x y) {b : String} (hb : y.has b) :
    ∃ a, names a b ∧ x.has a := by
  induction h with
  | nil => cases hb
  | @cons p q x y hpq _ ih =>
    obtain ⟨k, v⟩ := p
    obtain ⟨k', v'⟩ := q
    by_cases hk : k' = b
    · exact ⟨k, hk ▸ hpq.1, by simp [Bindings.has, Bindings.get?]⟩
    · have hrest : Bindings.has y b := by simpa [Bindings.has, Bindings.get?, hk] using hb
      obtain ⟨a, ha, hhas⟩ := ih hrest
      refine ⟨a, ha, ?_⟩
      by_cases hka : k = a <;> simp_all [Bindings.has, Bindings.get?]

theorem exists_of_has_left (h : Alike names related x y) {a : String} (ha : x.has a) :
    ∃ b, names a b ∧ y.has b := by
  have hflip : Alike (flip names) (flip related) y x := List.Forall₂.flip h
  exact hflip.exists_of_has_right ha

end Bindings.Alike

/-- Names that are known, and that stay apart whatever frames they are in. -/
structure Likeness.Apart (L : Likeness) (known : String → Prop) : Prop where
  eq : ∀ {l l' a b c}, known a → known c → L.names l a b → L.names l' c b → a = c
  receiver : known receiverName
  receiver_eq : ∀ {l b}, L.names l receiverName b → b = receiverName

/-- Scopes alike, where the frames that they stand for have labels. The last label is that of the
globals, which have no scope. -/
inductive Likeness.Scopes (L : Likeness) (known : String → Prop) :
    List L.Label → List (Bindings Bool) → List (Bindings Bool) → Prop
  | global : L.Scopes known [L.plain] [] []
  | inner {l Γ b b' ss ss'} (scope : Bindings.Alike (fun x y => known x ∧ L.names l x y) Eq b b')
      (outer : L.Scopes known Γ ss ss') : L.Scopes known (l :: Γ) (b :: ss) (b' :: ss')

section
variable {L : Likeness} {known : String → Prop} {Γ : List L.Label} {ss ss' : List (Bindings Bool)}

theorem Likeness.known_unique {l : L.Label} : ∀ {a b c d : String},
    (known a ∧ L.names l a b) → (known c ∧ L.names l c d) → (a = c ↔ b = d) :=
  fun h k => L.names_unique h.2 k.2

theorem distance?_cons (b : Bindings Bool) (ss : List (Bindings Bool)) (name : String) :
    distance? (b :: ss) name = if b.has name then some 0 else (distance? ss name).map (· + 1) :=
  List.findIdx?_cons

namespace Likeness

theorem Declares.plain {t u : Token} (h : u.lexeme = t.lexeme) : L.Declares (L.plain :: Γ) t u := by
  rintro l ⟨⟩
  exact (L.names_plain _ _).mpr h.symm

theorem Refers.outer {l : L.Label} {distance : Option Nat} {t u : Token}
    (h : L.Refers (l :: Γ) (distance.map (· + 1)) t u) : L.Refers Γ distance t u := by
  cases distance with
  | none => exact h
  | some d => exact fun l' hl' => h l' hl'

namespace Scopes

/-- The names of corresponding references correspond under some label. -/
theorem names (h : L.Scopes known Γ ss ss') {t u : Token} {name : String}
    (ht : L.Refers Γ (distance? ss name) t u) : ∃ l, L.names l t.lexeme u.lexeme := by
  induction h with
  | global => exact ⟨L.plain, (L.names_plain _ _).mpr (L.lexeme_eq ht).symm⟩
  | @inner l Γ b b' ss ss' scope outer ih =>
    rw [distance?_cons] at ht
    by_cases hb : b.has name
    · rw [if_pos hb] at ht
      exact ⟨l, ht l rfl⟩
    · rw [if_neg hb] at ht
      exact ih ht.outer

/-- A reference has the distance of the one to which it corresponds, and is in its own initializer
if that one is. -/
theorem refer_eq (hL : L.Apart known) (h : L.Scopes known Γ ss ss') {t u : Token}
    (hknown : known t.lexeme) (ht : L.Refers Γ (distance? ss t.lexeme) t u) :
    distance? ss' u.lexeme = distance? ss t.lexeme ∧
      isPending ss' u.lexeme = isPending ss t.lexeme := by
  induction h with
  | global => exact ⟨rfl, rfl⟩
  | @inner l Γ b b' ss ss' scope outer ih =>
    rw [distance?_cons] at ht
    rw [distance?_cons, distance?_cons]
    by_cases hb : b.has t.lexeme
    · rw [if_pos hb] at ht
      have hn : known t.lexeme ∧ L.names l t.lexeme u.lexeme := ⟨hknown, ht l rfl⟩
      have hb' : b'.has u.lexeme := (scope.has known_unique hn).trans hb
      have hget := scope.get? known_unique hn
      rw [if_pos hb, if_pos hb']
      refine ⟨rfl, ?_⟩
      simp only [isPending]
      generalize b.get? t.lexeme = found at hget
      generalize b'.get? u.lexeme = other at hget
      cases hget with
      | none => rfl
      | some heq => rw [heq]
    · rw [if_neg hb] at ht
      -- A name of the second scope that were found too early would be that of another name.
      have hb' : ¬ b'.has u.lexeme := by
        intro hfound
        obtain ⟨a, ⟨ha, hname⟩, hhas⟩ := scope.exists_of_has_right hfound
        obtain ⟨l', hl'⟩ := outer.names ht.outer
        exact hb (hL.eq ha hknown hname hl' ▸ hhas)
      rw [if_neg hb, if_neg hb', (ih ht.outer).1]
      have hnone : b.get? t.lexeme = none := by simpa [Bindings.has] using hb
      have hnone' : b'.get? u.lexeme = none := by simpa [Bindings.has] using hb'
      exact ⟨rfl, by rw [isPending, isPending, hnone, hnone']⟩

theorem receiver_eq (hL : L.Apart known) (h : L.Scopes known Γ ss ss') :
    distance? ss' receiverName = distance? ss receiverName := by
  induction h with
  | global => rfl
  | @inner l Γ b b' ss ss' scope outer ih =>
    have hhas : b'.has receiverName ↔ b.has receiverName := by
      constructor
      · intro hb'
        obtain ⟨a, ⟨ha, hname⟩, hhas⟩ := scope.exists_of_has_right hb'
        have hplain := (L.names_plain receiverName receiverName).mpr rfl
        exact hL.eq ha hL.receiver hname hplain ▸ hhas
      · intro hb
        obtain ⟨b, ⟨-, hname⟩, hhas⟩ := scope.exists_of_has_left hb
        exact hL.receiver_eq hname ▸ hhas
    rw [distance?_cons, distance?_cons, ih]
    simp only [hhas]

theorem ne_nil (h : L.Scopes known Γ ss ss') : Γ ≠ [] := by cases h <;> exact List.cons_ne_nil _ _

theorem tail {l : L.Label} (h : L.Scopes known (l :: Γ) ss ss') (hΓ : Γ ≠ []) :
    L.Scopes known Γ ss.tail ss'.tail := by
  cases h with
  | global => exact absurd rfl hΓ
  | inner scope outer => exact outer

end Scopes
end Likeness

/-- What a walk records of a reference, but for its token. -/
def Scope.Reference.place (r : Reference) : Form × Nat := (r.form, r.distance)

/-- Walks alike, of which the second has recorded the references of the first after some others. -/
structure Scope.Walk.Alike (L : Likeness) (known : String → Prop) (earlier : List (Form × Nat))
    (Γ : List L.Label) (w w' : Walk) : Prop where
  scopes : L.Scopes known Γ w.scopes w'.scopes
  role : w'.role = w.role
  inClass : w'.inClass = w.inClass
  loops : w'.loops = w.loops
  faults : w'.faults.map (·.cause) = w.faults.map (·.cause)
  references : w'.references.map (·.place) = w.references.map (·.place) ++ earlier

/-- The walk at the start of the body of a function. -/
def Scope.Walk.inFunction (w : Walk) (role : Role) (params : List Token) : Walk :=
  (declareAll params { w with role := role, loops := 0, scopes := [] :: w.scopes }).2

/-- The walk at the first method of a class. -/
def Scope.Walk.inClassOf (w : Walk) (name : Token) : Walk :=
  let w' := (define name (declare name { w with inClass := true }).2).2
  { w' with scopes := [(receiverName, true)] :: w'.scopes }

/-- The walk after a check, which reports a fault if `q` holds. -/
def Scope.Walk.checked (w : Walk) (q : Walk → Prop) [DecidablePred q] (t : Token) (cause : Cause) :
    Walk := { w with faults := if q w then ⟨t, cause⟩ :: w.faults else w.faults }

namespace Resolve

theorem check_eq {α : Type} (q : Walk → Prop) [DecidablePred q] (t : Token) (cause : Cause)
    (k : Resolve α) (w : Walk) :
    (do if q (← get) then report t cause
        k : Resolve α) w = k (w.checked q t cause) := by
  simp only [Bind.bind, StateT.bind, get, getThe, MonadStateOf.get, StateT.get, Pure.pure,
    Walk.checked]
  split <;> rfl

/-- A step of a second walk that gives a result, while a step of the first keeps the walks alike. -/
structure Copies {α β : Type} (L : Likeness) (known : String → Prop) (earlier : List (Form × Nat))
    (Γ : List L.Label) (w w' : Walk) (c : Resolve α) (c' : Resolve β) (b : β) : Prop where
  result : (c' w').1 = b
  walk : Walk.Alike L known earlier Γ (c w).2 (c' w').2

namespace Copies
variable {α β γ δ : Type} {earlier : List (Form × Nat)} {w w' : Walk} {c : Resolve α}
  {c' : Resolve β} {b : β} {l : L.Label} {t u : Token}

theorem pure {a : α} (hw : Walk.Alike L known earlier Γ w w') :
    Copies L known earlier Γ w w' (Pure.pure a) (Pure.pure b) b := ⟨rfl, hw⟩

theorem bind {k : α → Resolve γ} {k' : β → Resolve δ} {d : δ}
    (hc : Copies L known earlier Γ w w' c c' b)
    (hk : Walk.Alike L known earlier Γ (c w).2 (c' w').2 →
      Copies L known earlier Γ (c w).2 (c' w').2 (k (c w).1) (k' b) d) :
    Copies L known earlier Γ w w' (c >>= k) (c' >>= k') d := by
  have h := hk hc.walk
  rw [← hc.result] at h
  exact ⟨h.result, h.walk⟩

theorem declare (hw : Walk.Alike L known earlier Γ w w') (hknown : known t.lexeme)
    (ht : L.Declares Γ t u) :
    Copies L known earlier Γ w w' (Resolve.declare t) (Resolve.declare u) () := by
  refine ⟨rfl, ?_⟩
  obtain ⟨ss, _⟩ := w
  obtain ⟨ss', _⟩ := w'
  obtain ⟨scopes, role, inClass, loops, faults, references⟩ := hw
  cases scopes with
  | global => exact ⟨.global, role, inClass, loops, faults, references⟩
  | @inner l Γ b b' ss ss' scope outer =>
    have hn : known t.lexeme ∧ L.names l t.lexeme u.lexeme := ⟨hknown, ht l rfl⟩
    have hset := scope.set Likeness.known_unique hn (v := false) rfl
    have hhas := scope.has Likeness.known_unique hn
    simp only [Resolve.declare, Bind.bind, StateT.bind, get, getThe, MonadStateOf.get, StateT.get,
      Pure.pure, hhas]
    split
    · refine ⟨.inner hset outer, role, inClass, loops, ?_, references⟩
      exact congrArg (Cause.alreadyDeclared :: ·) faults
    · exact ⟨.inner hset outer, role, inClass, loops, faults, references⟩

theorem define (hw : Walk.Alike L known earlier Γ w w') (hknown : known t.lexeme)
    (ht : L.Declares Γ t u) :
    Copies L known earlier Γ w w' (Resolve.define t) (Resolve.define u) () := by
  refine ⟨rfl, ?_⟩
  obtain ⟨ss, _⟩ := w
  obtain ⟨ss', _⟩ := w'
  obtain ⟨scopes, role, inClass, loops, faults, references⟩ := hw
  cases scopes with
  | global => exact ⟨.global, role, inClass, loops, faults, references⟩
  | @inner l Γ b b' ss ss' scope outer =>
    have hn : known t.lexeme ∧ L.names l t.lexeme u.lexeme := ⟨hknown, ht l rfl⟩
    have hset := scope.set Likeness.known_unique hn (v := true) rfl
    exact ⟨.inner hset outer, role, inClass, loops, faults, references⟩

theorem declareAll (hw : Walk.Alike L known earlier (l :: Γ) w w') {ts us : List Token}
    (hknown : ∀ t ∈ ts, known t.lexeme) (ht : L.Params l ts us) :
    Copies L known earlier (l :: Γ) w w' (Resolve.declareAll ts) (Resolve.declareAll us) () := by
  induction ht generalizing w w' with
  | nil => exact pure hw
  | @cons t u ts us hn _ ih =>
    obtain ⟨hhead, htail⟩ := List.forall_mem_cons.mp hknown
    have hdeclares : L.Declares (l :: Γ) t u := by
      rintro l' ⟨⟩
      exact hn
    exact bind (declare hw hhead hdeclares) fun hw => bind (define hw hhead hdeclares) fun hw =>
      ih hw htail

theorem refer_of_eq (form : Form) (t u : Token) {name name' : String}
    (hw : Walk.Alike L known earlier Γ w w')
    (h : distance? w'.scopes name' = distance? w.scopes name) :
    Copies L known earlier Γ w w' (Resolve.refer form t name) (Resolve.refer form u name')
      (distance? w.scopes name) := by
  refine ⟨(refer_run form u name' w').1.trans h, ?_⟩
  simp only [Resolve.refer, Bind.bind, StateT.bind, get, getThe, MonadStateOf.get, StateT.get,
    Pure.pure, h]
  cases distance? w.scopes name with
  | none => exact hw
  | some d => exact { hw with references := congrArg ((form, d) :: ·) hw.references }

/-- A reference that corresponds to another is recorded with the same distance. -/
theorem refer (hL : L.Apart known) (hw : Walk.Alike L known earlier Γ w w') {form : Form}
    (hknown : known t.lexeme) (ht : L.Refers Γ (distance? w.scopes t.lexeme) t u) :
    Copies L known earlier Γ w w' (Resolve.refer form t t.lexeme) (Resolve.refer form u u.lexeme)
      (distance? w.scopes t.lexeme) :=
  refer_of_eq form t u hw (hw.scopes.refer_eq hL hknown ht).1

theorem check {q r : Walk → Prop} [DecidablePred q] [DecidablePred r] {cause : Cause}
    {k : Resolve α} {k' : Resolve β} (hw : Walk.Alike L known earlier Γ w w') (hq : r w' ↔ q w)
    (hk : Walk.Alike L known earlier Γ (w.checked q t cause) (w'.checked r u cause) →
      Copies L known earlier Γ (w.checked q t cause) (w'.checked r u cause) k k' b) :
    Copies L known earlier Γ w w' (do
        if q (← get) then report t cause
        k) (do
        if r (← get) then report u cause
        k') b := by
  have hfaults : (w'.checked r u cause).faults.map (·.cause) =
      (w.checked q t cause).faults.map (·.cause) := by
    simp only [Walk.checked, hq]
    split
    · exact congrArg (cause :: ·) hw.faults
    · exact hw.faults
  have h := hk { hw with faults := hfaults }
  exact ⟨by rw [check_eq]; exact h.result, by rw [check_eq, check_eq]; exact h.walk⟩

theorem inScope {names names' : Bindings Bool}
    (hnames : Bindings.Alike (fun x y => known x ∧ L.names l x y) Eq names names')
    (hw : Walk.Alike L known earlier Γ w w')
    (hc : Walk.Alike L known earlier (l :: Γ) { w with scopes := names :: w.scopes }
        { w' with scopes := names' :: w'.scopes } →
      Copies L known earlier (l :: Γ) { w with scopes := names :: w.scopes }
        { w' with scopes := names' :: w'.scopes } c c' b) :
    Copies L known earlier Γ w w' (Resolve.inScope names c) (Resolve.inScope names' c') b := by
  have h := hc { hw with scopes := .inner hnames hw.scopes }
  exact ⟨h.result, { h.walk with scopes := h.walk.scopes.tail hw.scopes.ne_nil }⟩

theorem inLoop (hw : Walk.Alike L known earlier Γ w w')
    (hc : Walk.Alike L known earlier Γ { w with loops := w.loops + 1 }
        { w' with loops := w'.loops + 1 } →
      Copies L known earlier Γ { w with loops := w.loops + 1 } { w' with loops := w'.loops + 1 }
        c c' b) :
    Copies L known earlier Γ w w' (Resolve.inLoop c) (Resolve.inLoop c') b := by
  have h := hc { hw with loops := congrArg (· + 1) hw.loops }
  exact ⟨h.result, { h.walk with loops := congrArg (· - 1) h.walk.loops }⟩

theorem inFunction {role : Role} {ts us : List Token} (hw : Walk.Alike L known earlier Γ w w')
    (hknown : ∀ t ∈ ts, known t.lexeme) (ht : L.Params l ts us)
    (hc : Walk.Alike L known earlier (l :: Γ) (w.inFunction role ts) (w'.inFunction role us) →
      Copies L known earlier (l :: Γ) (w.inFunction role ts) (w'.inFunction role us) c c' b) :
    Copies L known earlier Γ w w' (Resolve.inFunction role ts c) (Resolve.inFunction role us c')
      b := by
  have h : Copies L known earlier Γ { w with role := role, loops := 0 }
      { w' with role := role, loops := 0 }
      (Resolve.inScope [] do
        Resolve.declareAll ts
        c)
      (Resolve.inScope [] do
        Resolve.declareAll us
        c') b :=
    inScope .nil { hw with role := rfl, loops := rfl } fun hw => bind (declareAll hw hknown ht) hc
  exact ⟨h.result, { h.walk with role := hw.role, loops := hw.loops }⟩

theorem inClass (hL : L.Apart known) (hw : Walk.Alike L known earlier Γ w w')
    (hknown : known t.lexeme) (ht : L.Declares Γ t u)
    (hc : Walk.Alike L known earlier (L.plain :: Γ) (w.inClassOf t) (w'.inClassOf u) →
      Copies L known earlier (L.plain :: Γ) (w.inClassOf t) (w'.inClassOf u) c c' b) :
    Copies L known earlier Γ w w' (Resolve.inClass t c) (Resolve.inClass u c') b := by
  have hreceiver : Bindings.Alike (fun x y => known x ∧ L.names L.plain x y) Eq
      [(receiverName, true)] [(receiverName, true)] :=
    .cons ⟨⟨hL.receiver, (L.names_plain _ _).mpr rfl⟩, rfl⟩ .nil
  have h : Copies L known earlier Γ { w with inClass := true } { w' with inClass := true }
      (do
        Resolve.declare t
        Resolve.define t
        Resolve.inScope [(receiverName, true)] c)
      (do
        Resolve.declare u
        Resolve.define u
        Resolve.inScope [(receiverName, true)] c') b :=
    bind (declare { hw with inClass := rfl } hknown ht) fun hw =>
      bind (define hw hknown ht) fun hw => inScope hreceiver hw hc
  exact ⟨h.result, { h.walk with inClass := hw.inClass }⟩

theorem this (hL : L.Apart known) (hw : Walk.Alike L known earlier Γ w w') (mark mark' : Unit) :
    Copies L known earlier Γ w w' (Expr.this t mark).resolve (Expr.this u mark').resolve
      (.this u (if w.inClass then distance? w.scopes receiverName else none)) := by
  have hrun (t : Token) (mark : Unit) (w : Walk) : (Expr.this t mark).resolve w =
      (if w.inClass then do return .this t (← Resolve.refer .this t receiverName)
        else do
          report t .thisOutsideClass
          return .this t none : Resolve ResolvedExpr) w := rfl
  have hreceiver := hw.scopes.receiver_eq hL
  refine ⟨?_, ?_⟩
  · rw [(Expr.resolve_this u mark' w').1, hw.inClass, hreceiver]
  · rw [hrun, hrun, hw.inClass]
    split
    · exact (refer_of_eq .this t u hw hreceiver).walk
    · exact { hw with faults := congrArg (Cause.thisOutsideClass :: ·) hw.faults }

end Copies
end Resolve

open Resolve.Copies

variable {N : Token → Prop} {earlier : List (Form × Nat)}

mutual

/-- A tree that is like a resolved one is resolved to itself. -/
theorem Expr.copies (hL : L.Apart known) : (e : RawExpr) → e.Words (known ·.lexeme) N → ∀ {Γ : List L.Label}
    {w w' : Walk} {e' : ResolvedExpr}, Expr.Alike L Γ (e.resolve w).1 e' →
      Walk.Alike L known earlier Γ w w' →
      Copies L known earlier Γ w w' e.resolve e'.raw.resolve e'
  | .literal _, _, _, _, _, _, h, hw => by
    cases h
    exact pure hw
  | .grouping e, hx, _, _, _, _, h, hw => by
    cases h with
    | grouping h => exact bind (e.copies hL hx h hw) pure
  | .unary _ e, hx, _, _, _, _, h, hw => by
    cases h with
    | unary _ h => exact bind (e.copies hL hx.2 h hw) pure
  | .binary a _ b, hx, _, _, _, _, h, hw => by
    cases h with
    | binary ha _ hb =>
      exact bind (a.copies hL hx.1 ha hw) fun hw => bind (b.copies hL hx.2.2 hb hw) pure
  | .logical a _ b, hx, _, _, _, _, h, hw => by
    cases h with
    | logical ha _ hb =>
      exact bind (a.copies hL hx.1 ha hw) fun hw => bind (b.copies hL hx.2.2 hb hw) pure
  | .variable t mark, hx, Γ, w, w', e', h, hw => by
    rw [(Expr.resolve_variable t mark w).1] at h
    cases h with
    | «variable» ht =>
      have hpending := (hw.scopes.refer_eq hL hx ht).2
      exact check (q := fun w => isPending w.scopes _) (r := fun w => isPending w.scopes _) hw
        (Bool.coe_iff_coe.mpr hpending) fun hw => bind (refer hL hw hx ht) pure
  | .assign t none e mark, hx, Γ, w, w', e', h, hw => by
    have hrefer := (refer_run .assign t t.lexeme (e.resolve w).2).1
    have hrun : ((Expr.assign t none e mark).resolve w).1 = .assign t none (e.resolve w).1
        (distance? (e.resolve w).2.scopes t.lexeme) := hrefer ▸ rfl
    rw [hrun] at h
    cases h with
    | assign ht h => exact bind (e.copies hL hx.2.2 h hw) fun hw => bind (refer hL hw hx.1 ht) pure
  | .assign t (some s) e mark, hx, Γ, w, w', e', h, hw => by
    have hrefer := (refer_run .assign t t.lexeme (e.resolve w).2).1
    have hrun : ((Expr.assign t (some s) e mark).resolve w).1 = .assign t (some s) (e.resolve w).1
        (distance? (e.resolve w).2.scopes t.lexeme) := hrefer ▸ rfl
    rw [hrun] at h
    cases h with
    | compound ht _ h => exact bind (e.copies hL hx.2.2 h hw) fun hw => bind (refer hL hw hx.1 ht) pure
  | .call f _ es, hx, _, _, _, _, h, hw => by
    cases h with
    | call hf _ hes =>
      exact bind (f.copies hL hx.1 hf hw) fun hw => bind (Expr.copiesAll hL es hx.2.2 hes hw) pure
  | .get o _, hx, _, _, _, _, h, hw => by
    cases h with
    | get h => exact bind (o.copies hL hx.1 h hw) pure
  | .set o _ none e, hx, _, _, _, _, h, hw => by
    cases h with
    | set ho _ he =>
      exact bind (e.copies hL hx.2.2.2 he hw) fun hw => bind (o.copies hL hx.1 ho hw) pure
  | .set o _ (some _) e, hx, _, _, _, _, h, hw => by
    cases h with
    | compoundSet ho _ _ he =>
      exact bind (e.copies hL hx.2.2.2 he hw) fun hw => bind (o.copies hL hx.1 ho hw) pure
  | .this t mark, _, Γ, w, w', e', h, hw => by
    rw [(Expr.resolve_this t mark w).1] at h
    cases h with
    | this _ => exact this hL hw mark ()
  | .function none _ body, hx, _, _, _, _, h, hw => by
    cases h with
    | @function _ l _ us _ b' hts _ hb =>
      rw [show (Expr.function none us b').raw = .function none us (Stmt.rawAll b') by simp]
      exact bind (inFunction hw (fun t ht => (hx.2.1 t ht).1) hts (Stmt.copiesAll hL body hx.2.2 hb))
        pure
  | .function (some t) _ body, hx, _, _, _, _, h, hw => by
    cases h with
    | @namedFunction _ l _ u _ us _ b' ht hts _ hb =>
      rw [show (Expr.function (some u) us b').raw = .function (some u) us (Stmt.rawAll b') by simp]
      have hknown : known t.lexeme := (hx.1 t rfl).1
      exact bind (inScope .nil hw fun hw => bind (declare hw hknown (.plain ht)) fun hw =>
        bind (define hw hknown (.plain ht)) fun hw =>
          inFunction hw (fun t ht => (hx.2.1 t ht).1) hts (Stmt.copiesAll hL body hx.2.2 hb)) pure

theorem Expr.copiesAll (hL : L.Apart known) : (es : List RawExpr) → Expr.AllWords (known ·.lexeme) N es →
    ∀ {Γ : List L.Label} {w w' : Walk} {es' : List ResolvedExpr},
      Expr.AllAlike L Γ (Expr.resolveAll es w).1 es' → Walk.Alike L known earlier Γ w w' →
      Copies L known earlier Γ w w' (Expr.resolveAll es) (Expr.resolveAll (Expr.rawAll es')) es'
  | [], _, _, _, _, _, h, hw => by
    cases h
    exact pure hw
  | e :: es, hx, _, _, _, _, h, hw => by
    cases h with
    | cons he hes =>
      exact bind (e.copies hL hx.1 he hw) fun hw => bind (Expr.copiesAll hL es hx.2 hes hw) pure

theorem Stmt.copies (hL : L.Apart known) : (s : RawStmt) → s.Words (known ·.lexeme) N → ∀ {Γ : List L.Label}
    {w w' : Walk} {s' : ResolvedStmt}, Stmt.Alike L Γ (s.resolve w).1 s' →
      Walk.Alike L known earlier Γ w w' →
      Copies L known earlier Γ w w' s.resolve s'.raw.resolve s'
  | .expression e, hx, _, _, _, _, h, hw => by
    cases h with
    | expression h => exact bind (e.copies hL hx h hw) pure
  | .print e, hx, _, _, _, _, h, hw => by
    cases h with
    | print h => exact bind (e.copies hL hx h hw) pure
  | .varDecl _ none, hx, _, _, _, _, h, hw => by
    cases h with
    | varDecl ht => exact bind (declare hw hx.1 ht) fun hw => bind (define hw hx.1 ht) pure
  | .varDecl _ (some e), hx, _, _, _, _, h, hw => by
    cases h with
    | varDeclWith ht h =>
      exact bind (declare hw hx.1.1 ht) fun hw => bind (e.copies hL hx.2 h hw) fun hw =>
        bind (define hw hx.1.1 ht) pure
  | .block body, hx, _, _, _, _, h, hw => by
    cases h with
    | block hb => exact bind (inScope .nil hw (Stmt.copiesAll hL body hx hb)) pure
  | .ifElse c yes none, hx, _, _, _, _, h, hw => by
    cases h with
    | ifElse hc hyes =>
      exact bind (c.copies hL hx.1 hc hw) fun hw => bind (yes.copies hL hx.2 hyes hw) pure
  | .ifElse c yes (some no), hx, _, _, _, _, h, hw => by
    cases h with
    | ifElseBoth hc hyes hno =>
      exact bind (c.copies hL hx.1 hc hw) fun hw => bind (yes.copies hL hx.2.1 hyes hw) fun hw =>
        bind (no.copies hL hx.2.2 hno hw) pure
  | .loop c body none, hx, _, _, _, _, h, hw => by
    cases h with
    | loop hc hb =>
      exact bind (c.copies hL hx.1 hc hw) fun hw => bind (inLoop hw (body.copies hL hx.2 hb)) pure
  | .loop c body (some n), hx, _, _, _, _, h, hw => by
    cases h with
    | loopWith hc hb hn =>
      exact bind (c.copies hL hx.1 hc hw) fun hw => bind (inLoop hw (body.copies hL hx.2.1 hb)) fun hw =>
        bind (n.copies hL hx.2.2 hn hw) pure
  | .breakLoop t, _, _, w, _, _, h, hw => by
    rw [Stmt.resolve_breakLoop t w] at h
    cases h with
    | breakLoop =>
      exact check (q := (·.loops = 0)) (r := (·.loops = 0)) hw (by rw [hw.loops]) pure
  | .continueLoop t, _, _, w, _, _, h, hw => by
    rw [Stmt.resolve_continueLoop t w] at h
    cases h with
    | continueLoop =>
      exact check (q := (·.loops = 0)) (r := (·.loops = 0)) hw (by rw [hw.loops]) pure
  | .returnFrom t none, _, _, w, _, _, h, hw => by
    rw [Stmt.resolve_returnNothing t w] at h
    cases h with
    | returnNothing =>
      exact check (q := (·.role = .topLevel)) (r := (·.role = .topLevel)) hw (by rw [hw.role])
        pure
  | .returnFrom t (some e), hx, _, w, _, _, h, hw => by
    have hrun : (Stmt.returnFrom t (some e)).resolve w =
        (do return .returnFrom t (some (← e.resolve)) : Resolve ResolvedStmt)
          ((w.checked (·.role = .topLevel) t .returnOutsideFunction).checked
            (·.role = .initializer) t .valueFromInitializer) :=
      (check_eq _ _ _ _ _).trans (check_eq (·.role = .initializer) _ _ _ _)
    rw [hrun] at h
    cases h with
    | returnValue h =>
      exact check (q := (·.role = .topLevel)) (r := (·.role = .topLevel)) hw (by rw [hw.role])
        fun hw => check (q := (·.role = .initializer)) (r := (·.role = .initializer)) hw
          (by rw [hw.role]) fun hw => bind (e.copies hL hx.2 h hw) pure
  | .functionDecl _ _ body, hx, _, _, _, _, h, hw => by
    cases h with
    | @functionDecl _ l _ u _ us _ b' ht _ hts _ hb =>
      rw [show (Stmt.functionDecl u us b').raw = .functionDecl u us (Stmt.rawAll b') by simp]
      exact bind (declare hw hx.1.1 ht) fun hw => bind (define hw hx.1.1 ht) fun hw =>
        bind (inFunction hw (fun t ht => (hx.2.1 t ht).1) hts
          (Stmt.copiesAll hL body hx.2.2 hb)) pure
  | .classDecl t ms, hx, _, _, _, _, h, hw => by
    cases h with
    | classDecl ht _ hms =>
      exact bind (inClass hL hw hx.1.1 ht (Method.copiesAll hL ms hx.2 hms)) pure

theorem Stmt.copiesAll (hL : L.Apart known) : (ss : List RawStmt) → Stmt.AllWords (known ·.lexeme) N ss →
    ∀ {Γ : List L.Label} {w w' : Walk} {ss' : List ResolvedStmt},
      Stmt.AllAlike L Γ (Stmt.resolveAll ss w).1 ss' → Walk.Alike L known earlier Γ w w' →
      Copies L known earlier Γ w w' (Stmt.resolveAll ss) (Stmt.resolveAll (Stmt.rawAll ss')) ss'
  | [], _, _, _, _, _, h, hw => by
    cases h
    exact pure hw
  | s :: ss, hx, _, _, _, _, h, hw => by
    cases h with
    | cons hs hss =>
      exact bind (s.copies hL hx.1 hs hw) fun hw => bind (Stmt.copiesAll hL ss hx.2 hss hw) pure

theorem Method.copiesAll (hL : L.Apart known) : (ms : List RawMethod) → Method.AllWords (known ·.lexeme) N ms →
    ∀ {Γ : List L.Label} {w w' : Walk} {ms' : List ResolvedMethod},
      Method.AllAlike L Γ (Method.resolveAll ms w).1 ms' →
      Walk.Alike L known earlier (L.plain :: Γ) w w' →
      Copies L known earlier (L.plain :: Γ) w w' (Method.resolveAll ms)
        (Method.resolveAll (Method.rawAll ms')) ms'
  | [], _, _, _, _, _, h, hw => by
    cases h
    exact pure hw
  | .mk t _ body :: ms, hx, _, _, _, _, h, hw => by
    cases h with
    | @cons _ l _ u _ us _ b' _ ms' ht hts _ hb hms =>
      rw [show Method.rawAll (.mk u us b' :: ms') = .mk u us (Stmt.rawAll b') :: Method.rawAll ms'
        by simp]
      refine bind (b := .mk u us b') ?_ fun hw => bind (Method.copiesAll hL ms hx.2 hms hw) pure
      -- A method has the role of the one to which it corresponds, since they have one name.
      have hrole : methodRole u.lexeme = methodRole t.lexeme := congrArg methodRole ht
      rw [show (Method.mk u us (Stmt.rawAll b')).resolve = (do
        let body ← Resolve.inFunction (methodRole u.lexeme) us (Stmt.resolveAll (Stmt.rawAll b'))
        return .mk u us body) from rfl, hrole]
      exact bind (inFunction hw (fun t ht => (hx.1.2.1 t ht).1) hts
        (Stmt.copiesAll hL body hx.1.2.2 hb)) pure

end
end
end LoxScript
