import LoxScript.Proofs.Bookkeeping
import LoxScript.Proofs.PaddedWalk
import LoxScript.Proofs.StaticRules

/-!
What scope resolution reports.

A walk at a place has the registers of the place, and its innermost scope has the names that were
declared there. Each construct keeps this and reports the faults of its own occurrences, so a walk
over a program reports what the rules of structure forbid, and besides the reads of variables in
their own initializers. Of those it finds only the names by themselves: a compound assignment is
resolved as an assignment.
-/
namespace LoxScript

open Resolve Scope

namespace Place

def role (p : Place) : Role :=
  match p.function? with
  | none => .topLevel
  | some none => .function
  | some (some name) => methodRole name

/-- The names that a scope has from its beginning. -/
def given : Place → List String
  | .methods :: _ => [receiverName]
  | _ => []

/-- A place that is in no initializer and in the scope of no receiver. -/
structure Plain (p : Place) : Prop where
  initialized : p.initialized? = none
  given : p.scope.given = []

theorem scope_cons_of_opens {s : Nesting} (hs : s.opens) (p : Place) :
    Place.scope (s :: p) = s :: p := by
  simp [scope, hs]

theorem initialized?_cons_of_opens {s : Nesting} (hs : s.opens) (p : Place) :
    Place.initialized? (s :: p) = none := by
  simp [initialized?, hs]

theorem inClass_cons {s : Nesting} (hs : s ≠ .methods) (p : Place) :
    Place.InClass (s :: p) ↔ p.InClass := by
  simp [InClass, Ne.symm hs]

theorem inLoop_cons {s : Nesting} (hs : s.function? = none) (hloop : s ≠ .loopBody) (p : Place) :
    Place.InLoop (s :: p) ↔ p.InLoop := by
  simp [InLoop, hs, Ne.symm hloop]

theorem inLoop_loopBody (p : Place) : Place.InLoop (.loopBody :: p) := by
  simp [InLoop, Nesting.function?]

theorem not_inLoop_body (method : Option String) (p : Place) :
    ¬ Place.InLoop (.body method :: p) := by
  simp [InLoop, Nesting.function?]

theorem length_scope_le (p : Place) : p.scope.length ≤ p.length :=
  (List.dropWhile_suffix _).length_le

/-- What stands inside a scope is not directly in a scope around it. -/
theorem scope_ne_of_suffix {s : Nesting} {p q : Place} (hs : s.opens) (h : s :: p <:+ q) :
    q.scope ≠ p.scope := by
  obtain ⟨front, rfl⟩ := h
  have hle : (s :: p).length ≤ (Place.scope (front ++ s :: p)).length := by
    have hsuffix : s :: p <:+ Place.scope (front ++ s :: p) := by
      induction front with
      | nil => simp [scope_cons_of_opens hs]
      | cons s' front ih =>
        by_cases hs' : s'.opens
        · rw [List.cons_append, scope_cons_of_opens hs']
          exact (List.suffix_append front _).trans (List.suffix_cons _ _)
        · simpa [scope, hs'] using ih
    exact hsuffix.length_le
  intro heq
  have hp := length_scope_le p
  rw [heq] at hle
  simp at hle
  omega

end Place

/-! ### Occurrences under a place -/

/-- All of some occurrences are at a place or inside it. -/
def Place.Above (p : Place) (xs : List Occurrence) : Prop := ∀ x ∈ xs, p <:+ x.place

/-- None of some occurrences is at a place or inside it. -/
def Place.Ahead (before : List Occurrence) (p : Place) : Prop := ∀ x ∈ before, ¬ p <:+ x.place

namespace Place
variable {p q : Place} {s s' : Nesting} {before xs ys : List Occurrence}

theorem Above.nil : p.Above [] := List.forall_mem_nil _

theorem Above.here (usage : Usage) (t : Token) : p.Above [⟨p, usage, t⟩] :=
  List.forall_mem_singleton.mpr (List.suffix_refl p)

theorem Above.append (hx : p.Above xs) (hy : p.Above ys) : p.Above (xs ++ ys) :=
  List.forall_mem_append.mpr ⟨hx, hy⟩

theorem Above.inner (h : Place.Above (s :: p) xs) : p.Above xs :=
  fun x hx => (List.suffix_cons s p).trans (h x hx)

theorem Above.declarations (ts : List Token) : p.Above (ts.map (⟨p, .declaration, ·⟩)) := by
  intro x hx
  obtain ⟨t, -, rfl⟩ := List.mem_map.mp hx
  exact List.suffix_refl p

theorem Ahead.inner (h : Ahead before p) (s : Nesting) : Ahead before (s :: p) :=
  fun x hx hsuffix => h x hx ((List.suffix_cons s p).trans hsuffix)

/-- What stands in one part of a node is not in another one. -/
theorem Ahead.behind (h : Ahead before (s' :: p)) (hx : Place.Above (s :: p) xs) (hs : s ≠ s') :
    Ahead (before ++ xs) (s' :: p) := by
  refine List.forall_mem_append.mpr ⟨h, fun x hmem hsuffix => hs ?_⟩
  have heq := List.suffix_of_suffix_length_le (hx x hmem) hsuffix (Nat.le_refl _)
  exact (List.cons.inj (heq.eq_of_length rfl)).1

/-- What stands at a place is not in a part of it. -/
theorem Ahead.below (h : Ahead before (s :: p)) (hx : ∀ x ∈ xs, x.place = p) :
    Ahead (before ++ xs) (s :: p) := by
  refine List.forall_mem_append.mpr ⟨h, fun x hmem hsuffix => ?_⟩
  have hlength := hsuffix.length_le
  rw [hx x hmem, List.length_cons] at hlength
  omega

end Place

section Above
variable {ρ : Type}
open Place

mutual

theorem Expr.above : (e : Expr ρ) → (p : Place) → p.Above (e.occurrences p)
  | .literal _, _ => .nil
  | .grouping e, _ => (e.above _).inner
  | .unary _ e, _ => (e.above _).inner
  | .binary a _ b, _ => (a.above _).inner.append (b.above _).inner
  | .logical a _ b, _ => (a.above _).inner.append (b.above _).inner
  | .variable t _, _ => .here _ t
  | .assign _ none e _, _ => (e.above _).inner
  | .assign t (some _) e _, _ => (e.above _).inner.append (.here _ t)
  | .call f _ es, p => (f.above _).inner.append (Expr.aboveAll es p 1)
  | .get o _, _ => (o.above _).inner
  | .set o _ _ e, _ => (e.above _).inner.append (o.above _).inner
  | .this t _, _ => .here _ t
  | .function none ts body, _ => ((Above.declarations ts).append (Stmt.aboveAll body _ 0)).inner
  | .function (some t) ts body, _ =>
    ((Above.here _ t).append ((Above.declarations ts).append (Stmt.aboveAll body _ 0)).inner).inner

theorem Expr.aboveAll : (es : List (Expr ρ)) → (p : Place) → (i : Nat) →
    p.Above (Expr.occurrencesAll p i es)
  | [], _, _ => .nil
  | e :: es, p, i => (e.above _).inner.append (Expr.aboveAll es p (i + 1))

theorem Stmt.above : (s : Stmt ρ) → (p : Place) → p.Above (s.occurrences p)
  | .expression e, _ => (e.above _).inner
  | .print e, _ => (e.above _).inner
  | .varDecl t none, _ => .here _ t
  | .varDecl t (some e), _ => (Above.here _ t).append (e.above _).inner
  | .block body, _ => (Stmt.aboveAll body _ 0).inner
  | .ifElse c yes none, _ => (c.above _).inner.append (yes.above _).inner
  | .ifElse c yes (some no), _ =>
    (c.above _).inner.append ((yes.above _).inner.append (no.above _).inner)
  | .loop c body none, _ => (c.above _).inner.append (body.above _).inner
  | .loop c body (some n), _ =>
    (c.above _).inner.append ((body.above _).inner.append (n.above _).inner)
  | .breakLoop t, _ => .here _ t
  | .continueLoop t, _ => .here _ t
  | .returnFrom t none, _ => .here _ t
  | .returnFrom t (some e), _ => (Above.here _ t).append (e.above _).inner
  | .functionDecl t ts body, _ =>
    (Above.here _ t).append ((Above.declarations ts).append (Stmt.aboveAll body _ 0)).inner
  | .classDecl t ms, _ => (Above.here _ t).append (Method.aboveAll ms _ 0).inner

theorem Stmt.aboveAll : (ss : List (Stmt ρ)) → (p : Place) → (i : Nat) →
    p.Above (Stmt.occurrencesAll p i ss)
  | [], _, _ => .nil
  | s :: ss, p, i => (s.above _).inner.append (Stmt.aboveAll ss p (i + 1))

theorem Method.aboveAll : (ms : List (Method ρ)) → (p : Place) → (i : Nat) →
    p.Above (Method.occurrencesAll p i ms)
  | [], _, _ => .nil
  | .mk _ ts body :: ms, p, i =>
    ((Above.declarations ts).append (Stmt.aboveAll body _ 0)).inner.inner.append
      (Method.aboveAll ms p (i + 1))

end

theorem Stmt.above_body (ts : List Token) (body : List (Stmt ρ)) (p : Place) :
    p.Above (ts.map (⟨p, .declaration, ·⟩) ++ Stmt.occurrencesAll p 0 body) :=
  (Above.declarations ts).append (Stmt.aboveAll body p 0)

end Above

/-! ### Walks -/

namespace Place

theorem role_eq_topLevel {p : Place} : p.role = .topLevel ↔ p.function? = none := by
  unfold role methodRole
  split
  next h => simp [h]
  next h => simp [h]
  next h => split <;> simp [h]

theorem role_eq_initializer {p : Place} :
    p.role = .initializer ↔ p.function? = some (some initializerName) := by
  unfold role methodRole
  split
  next h => simp [h]
  next h => simp [h]
  next h => split <;> simp_all

end Place

/-- The innermost of some scopes, which stands around a place, has the names that were declared in
it. A name is still to be defined in its own initializer only. -/
def Place.Shows (before : List Occurrence) (p : Place) : List (Bindings Bool) → Prop
  | [] => p.scope = []
  | b :: _ => p.scope ≠ [] ∧ ∀ name,
      (b.has name ↔ name ∈ p.scope.given ∨ ∃ x ∈ before, x.Declares p.scope name) ∧
      (b.get? name = some false ↔ p.initialized? = some name)

/-- The fault that a walk finds at an occurrence. -/
def Occurrence.fault? (before : List Occurrence) (x : Occurrence) : Option Cause :=
  if x.usage = .read ∧ x.ReadsItself then some .readInInitializer else x.violation? before

def faultsAmong (before : List Occurrence) : List Occurrence → List Scope.Fault
  | [] => []
  | x :: xs => (x.fault? before).toList.map (⟨x.token, ·⟩) ++ faultsAmong (before ++ [x]) xs

namespace Scope.Walk

/-- A walk is at a place, behind some occurrences. -/
structure At (before : List Occurrence) (p : Place) (w : Walk) : Prop where
  scopes : p.Shows before w.scopes
  role : w.role = p.role
  inClass : w.inClass ↔ p.InClass
  loops : w.loops = 0 ↔ ¬ p.InLoop

/-- A walk has passed some occurrences at a place, and has reported their faults. -/
structure Passes (before xs : List Occurrence) (p : Place) (w w' : Walk) : Prop where
  scopes : p.Shows (before ++ xs) w'.scopes
  outer : w'.scopes.tail = w.scopes.tail
  role : w'.role = w.role
  inClass : w'.inClass = w.inClass
  loops : w'.loops = w.loops
  faults : w'.faults = (faultsAmong before xs).reverse ++ w.faults

end Scope.Walk

theorem faultsAmong_append (before xs ys : List Occurrence) : faultsAmong before (xs ++ ys) =
    faultsAmong before xs ++ faultsAmong (before ++ xs) ys := by
  induction xs generalizing before with
  | nil => simp [faultsAmong]
  | cons x xs ih => simp [faultsAmong, ih]

namespace Place
variable {p : Place} {s : Nesting} {before : List Occurrence} {ss : List (Bindings Bool)} {t : Token}

/-- A fresh scope has no names but those that are given. -/
theorem shows_fresh (hs : s.opens) (h : Ahead before (s :: p)) (b : Bindings Bool)
    (hb : ∀ name, (b.has name ↔ name ∈ Place.given (s :: p)) ∧ b.get? name ≠ some false) :
    Place.Shows before (s :: p) (b :: ss) := by
  refine ⟨by rw [scope_cons_of_opens hs]; exact List.cons_ne_nil _ _, fun name => ⟨?_, ?_⟩⟩
  · rw [scope_cons_of_opens hs, (hb name).1]
    refine ⟨.inl, fun hname => hname.resolve_right ?_⟩
    rintro ⟨x, hx, -, hscope, -⟩
    exact h x hx (hscope ▸ List.dropWhile_suffix _)
  · rw [initialized?_cons_of_opens hs]
    exact iff_of_false (hb name).2 nofun

theorem shows_append {xs : List Occurrence} (h : ∀ x ∈ xs, ∀ name, ¬ x.Declares p.scope name) :
    p.Shows (before ++ xs) ss ↔ p.Shows before ss := by
  have hdeclares (name : String) : (∃ x ∈ before ++ xs, x.Declares p.scope name) ↔
      ∃ x ∈ before, x.Declares p.scope name := by
    refine ⟨?_, fun ⟨x, hx, hname⟩ => ⟨x, List.mem_append_left _ hx, hname⟩⟩
    rintro ⟨x, hx, hname⟩
    exact ⟨x, (List.mem_append.mp hx).resolve_right fun hx => h x hx name hname, hname⟩
  cases ss with
  | nil => rfl
  | cons b ss => simp only [Shows, hdeclares]

/-- What a part in a scope of its own declares is not seen around the scope. -/
theorem shows_outside {xs : List Occurrence} (hs : s.opens) (hxs : Place.Above (s :: p) xs) :
    p.Shows (before ++ xs) ss ↔ p.Shows before ss :=
  shows_append fun x hx _ hname => scope_ne_of_suffix hs (hxs x hx) hname.2.1

theorem exists_declares_append (x : Occurrence) (scope : Place) (name : String) :
    (∃ y ∈ before ++ [x], y.Declares scope name) ↔
      (∃ y ∈ before, y.Declares scope name) ∨ x.Declares scope name := by
  simp [or_and_right, exists_or]

/-- A declared name is in the scope, and is still to be defined. -/
theorem shows_declare (hp : p.Plain) (h : p.Shows before ss) :
    Place.Shows (before ++ [⟨p, .declaration, t⟩]) (.initializer t.lexeme :: p)
      (ss.modifyHead (·.set t.lexeme false)) := by
  cases ss with
  | nil => exact h
  | cons b ss =>
    refine ⟨h.1, fun name => ?_⟩
    obtain ⟨hhas, hpending⟩ := h.2 name
    have hscope : Place.scope (.initializer t.lexeme :: p) = p.scope := rfl
    have hvariable : Place.initialized? (.initializer t.lexeme :: p) = some t.lexeme := rfl
    have hdeclares : Occurrence.Declares ⟨p, .declaration, t⟩ p.scope name ↔ name = t.lexeme :=
      ⟨fun h => h.2.2.symm, fun h => ⟨rfl, rfl, h.symm⟩⟩
    rw [hp.initialized] at hpending
    constructor
    · rw [hscope, Bindings.has_set, hhas, exists_declares_append, hdeclares]
      exact or_comm.trans or_assoc
    · rw [Bindings.get?_set, hvariable]
      by_cases hname : name = t.lexeme
      · simp [hname]
      · simpa [hname, Ne.symm hname] using hpending

/-- Once it is defined, a name is in no initializer. -/
theorem shows_define (hp : p.Plain) (ht : ∃ x ∈ before, x.Declares p.scope t.lexeme)
    (h : Place.Shows before (.initializer t.lexeme :: p) ss) :
    p.Shows before (ss.modifyHead (·.set t.lexeme true)) := by
  cases ss with
  | nil => exact h
  | cons b ss =>
    refine ⟨h.1, fun name => ?_⟩
    obtain ⟨hhas, hpending⟩ := h.2 name
    have hscope : Place.scope (.initializer t.lexeme :: p) = p.scope := rfl
    have hvariable : Place.initialized? (.initializer t.lexeme :: p) = some t.lexeme := rfl
    rw [hscope] at hhas
    rw [hvariable] at hpending
    constructor
    · rw [Bindings.has_set, hhas]
      refine ⟨fun hname => hname.elim (fun hname => .inr (hname ▸ ht)) id, .inr⟩
    · rw [Bindings.get?_set, hp.initialized]
      by_cases hname : name = t.lexeme
      · simp [hname]
      · simpa [hname, Ne.symm hname] using hpending

end Place

namespace Scope.Walk
variable {p : Place} {s : Nesting} {before xs ys : List Occurrence} {w w' w'' : Walk} {t : Token}

theorem At.after (h : w.At before p) (hw : w.Passes before xs p w') : w'.At (before ++ xs) p where
  scopes := hw.scopes
  role := hw.role.trans h.role
  inClass := hw.inClass ▸ h.inClass
  loops := hw.loops ▸ h.loops

theorem Passes.trans (h : w.Passes before xs p w') (k : w'.Passes (before ++ xs) ys p w'') :
    w.Passes before (xs ++ ys) p w'' where
  scopes := List.append_assoc before xs ys ▸ k.scopes
  outer := k.outer.trans h.outer
  role := k.role.trans h.role
  inClass := k.inClass.trans h.inClass
  loops := k.loops.trans h.loops
  faults := by rw [k.faults, h.faults, faultsAmong_append, List.reverse_append, List.append_assoc]

/-- A part in a scope of its own has been passed when the walk has left the scope. -/
theorem Passes.leave {u u' : Walk} (h : u.Passes before xs (s :: p) u') (hs : s.opens)
    (hxs : Place.Above (s :: p) xs) (hw : p.Shows before w.scopes) (hscopes : u.scopes.tail = w.scopes)
    (hfaults : u.faults = w.faults) : w.Passes before xs p
      { u' with scopes := u'.scopes.tail, role := w.role, inClass := w.inClass, loops := w.loops } where
  scopes := (Place.shows_outside hs hxs).mpr (h.outer.trans hscopes ▸ hw)
  outer := congrArg List.tail (h.outer.trans hscopes)
  role := rfl
  inClass := rfl
  loops := rfl
  faults := h.faults.trans (congrArg _ hfaults)

/-- A name is read in its own initializer if it is still to be defined in the innermost scope. -/
theorem At.pending (h : w.At before p) (name : String) :
    isPending w.scopes name ↔ p.scope ≠ [] ∧ p.initialized? = some name := by
  have hscopes := h.scopes
  cases hw : w.scopes with
  | nil =>
    rw [hw] at hscopes
    exact iff_of_false nofun fun h => h.1 hscopes
  | cons b ss =>
    rw [hw] at hscopes
    have hpending : isPending (b :: ss) name ↔ b.get? name = some false := beq_iff_eq
    rw [hpending, (hscopes.2 name).2]
    exact ⟨fun h => ⟨hscopes.1, h⟩, And.right⟩

/-- The fault of a declaration. -/
theorem At.faults_declare (h : w.At before p) (hp : p.Plain) : (declare t w).2.faults =
    (faultsAmong before [⟨p, .declaration, t⟩]).reverse ++ w.faults := by
  have hrepeated : w.scopes.head?.any (·.has t.lexeme) ↔
      p.scope ≠ [] ∧ ∃ y ∈ before, y.Declares p.scope t.lexeme := by
    have hscopes := h.scopes
    cases hw : w.scopes with
    | nil =>
      rw [hw] at hscopes
      exact iff_of_false nofun fun h => h.1 hscopes
    | cons b ss =>
      rw [hw] at hscopes
      have hhas := (hscopes.2 t.lexeme).1
      rw [hp.given] at hhas
      exact ⟨fun hb => ⟨hscopes.1, (hhas.mp hb).resolve_left List.not_mem_nil⟩,
        fun hy => hhas.mpr (.inr hy.2)⟩
  have hfault : Occurrence.fault? before ⟨p, .declaration, t⟩ =
      if w.scopes.head?.any (·.has t.lexeme) then some .alreadyDeclared else none := by
    simp only [Occurrence.fault?, Occurrence.violation?, hrepeated]
    rfl
  simp only [declare_run, Walk.checked, faultsAmong, hfault]
  split <;> rfl

theorem At.declared (h : w.At before p) (hp : p.Plain) :
    w.Passes before [⟨p, .declaration, t⟩] p (define t (declare t w).2).2 := by
  have hshows := Place.shows_define hp
    ⟨_, List.mem_append_right _ (List.mem_singleton.mpr rfl), rfl, rfl, rfl⟩
    (Place.shows_declare (t := t) hp h.scopes)
  have hfaults := h.faults_declare (t := t) hp
  rw [define_run, declare_run] at *
  refine ⟨hshows, ?_, rfl, rfl, rfl, hfaults⟩
  cases w.scopes <;> rfl

end Scope.Walk
namespace Resolve
open Place

/-- A step of a walk at a place reports the faults of some occurrences. -/
def Reports {α : Type} (before xs : List Occurrence) (p : Place) (c : Resolve α) : Prop :=
  ∀ w : Walk, w.At before p → w.Passes before xs p (c w).2

namespace Reports
variable {α β : Type} {before xs ys : List Occurrence} {p : Place} {s : Nesting} {c : Resolve α}
  {t : Token} {usage : Usage} {names : Bindings Bool}

/-- A step that does nothing but record references. -/
theorem quiet (h : ∀ w, ∃ references, (c w).2 = { w with references := references }) :
    Reports before [] p c := by
  intro w hw
  obtain ⟨references, hc⟩ := h w
  rw [hc]
  exact ⟨(List.append_nil before).symm ▸ hw.scopes, rfl, rfl, rfl, rfl, rfl⟩

theorem pure (a : α) : Reports before [] p (Pure.pure a) := quiet fun w => ⟨w.references, rfl⟩

theorem refer (form : Form) (t : Token) (name : String) :
    Reports before [] p (Resolve.refer form t name) := quiet fun w => ⟨_, by rw [refer_eq]⟩

theorem bind {k : α → Resolve β} (hc : Reports before xs p c)
    (hk : ∀ a, Reports (before ++ xs) ys p (k a)) : Reports before (xs ++ ys) p (c >>= k) :=
  fun w hw => (hc w hw).trans (hk _ _ (hw.after (hc w hw)))

/-- A step behind which there is nothing more to report. -/
theorem last {k : α → Resolve β} (hc : Reports before xs p c)
    (hk : ∀ a, Reports (before ++ xs) [] p (k a)) : Reports before xs p (c >>= k) :=
  List.append_nil xs ▸ hc.bind hk

/-- A part in no scope of its own. -/
theorem part {i : Nat} (hc : Reports before xs (.part i :: p) c) : Reports before xs p c := by
  intro w hw
  have hclass := inClass_cons (s := .part i) nofun p
  have hloops := inLoop_cons (s := .part i) rfl nofun p
  have h := hc w ⟨hw.scopes, hw.role, hw.inClass.trans hclass.symm,
    hw.loops.trans (not_congr hloops.symm)⟩
  exact ⟨h.scopes, h.outer, h.role, h.inClass, h.loops, h.faults⟩

/-- The fault of an occurrence that declares nothing is found before what is behind it. -/
theorem note {q : Walk → Walk} (husage : usage ≠ .declaration)
    (hq : ∀ w, w.At before p → q w = { w with faults :=
      ((Occurrence.fault? before ⟨p, usage, t⟩).toList.map (⟨t, ·⟩)) ++ w.faults })
    (hc : Reports (before ++ [⟨p, usage, t⟩]) xs p c) :
    Reports before (⟨p, usage, t⟩ :: xs) p fun w => c (q w) := by
  intro w hw
  have hshows : p.Shows (before ++ [⟨p, usage, t⟩]) w.scopes :=
    (shows_append (List.forall_mem_singleton.mpr fun _ h => husage h.1)).mpr hw.scopes
  have hnoted : w.Passes before [⟨p, usage, t⟩] p (q w) := by
    rw [hq w hw]
    refine ⟨hshows, rfl, rfl, rfl, rfl, ?_⟩
    cases hfault : Occurrence.fault? before ⟨p, usage, t⟩ <;> simp [faultsAmong, hfault]
  exact hnoted.trans (hc _ (hw.after hnoted))

/-- An occurrence that is no fault. -/
theorem silent (husage : usage ≠ .declaration)
    (hfault : Occurrence.fault? before ⟨p, usage, t⟩ = none)
    (hc : Reports (before ++ [⟨p, usage, t⟩]) xs p c) : Reports before (⟨p, usage, t⟩ :: xs) p c :=
  hc.note (q := id) husage fun w _ => by rw [hfault]; rfl

theorem congr {d : Resolve α} (hd : Reports before xs p d) (h : ∀ w : Walk, w.At before p → c w = d w) :
    Reports before xs p c := fun w hw => h w hw ▸ hd w hw

theorem check {q : Walk → Prop} [DecidablePred q] {cause : Cause} (husage : usage ≠ .declaration)
    (hq : ∀ w, w.At before p →
      Occurrence.fault? before ⟨p, usage, t⟩ = if q w then some cause else none)
    (hc : Reports (before ++ [⟨p, usage, t⟩]) xs p c) :
    Reports before (⟨p, usage, t⟩ :: xs) p (do
      if q (← get) then report t cause
      c) := by
  have hnote := hc.note (q := fun w => w.checked q t cause) husage fun w hw => by
    rw [hq w hw, Walk.checked]
    split <;> rfl
  exact hnote.congr fun w _ => check_eq q t cause c w

theorem declareDefine (hp : p.Plain) (hc : Reports (before ++ [⟨p, .declaration, t⟩]) xs p c) :
    Reports before (⟨p, .declaration, t⟩ :: xs) p (do
      declare t
      define t
      c) := by
  intro w hw
  have hdeclared := hw.declared (t := t) hp
  exact hdeclared.trans (hc _ (hw.after hdeclared))

theorem declareAll (hp : p.Plain) (ts : List Token) :
    Reports before (ts.map (⟨p, .declaration, ·⟩)) p (Resolve.declareAll ts) := by
  induction ts generalizing before with
  | nil => exact pure ()
  | cons t ts ih => exact declareDefine hp ih

/-- The initializer of a variable stands between its declaration and its definition. -/
theorem initializer {f : α → β} (hp : p.Plain)
    (hc : Reports (before ++ [⟨p, .declaration, t⟩]) xs (.initializer t.lexeme :: p) c) :
    Reports before (⟨p, .declaration, t⟩ :: xs) p (do
      declare t
      let a ← c
      define t
      return f a) := by
  intro w hw
  have hdeclare : (declare t w).2.At (before ++ [⟨p, .declaration, t⟩])
      (.initializer t.lexeme :: p) := by
    have hclass := inClass_cons (s := .initializer t.lexeme) nofun p
    have hloops := inLoop_cons (s := .initializer t.lexeme) rfl nofun p
    rw [declare_run]
    exact ⟨shows_declare hp hw.scopes, hw.role, hw.inClass.trans hclass.symm,
      hw.loops.trans (not_congr hloops.symm)⟩
  have hvalue := hc _ hdeclare
  have hshows := shows_define hp
    ⟨_, List.mem_append_left _ (List.mem_append_right _ (List.mem_singleton.mpr rfl)), rfl, rfl, rfl⟩
    hvalue.scopes
  have hrun : ((do
      declare t
      let a ← c
      define t
      return f a : Resolve β) w).2 = (define t (c (declare t w).2).2).2 := rfl
  have hfaults := hw.faults_declare (t := t) hp
  have hend := hvalue.faults
  have houter := hvalue.outer
  have hrole := hvalue.role
  have hclass := hvalue.inClass
  have hloops := hvalue.loops
  rw [hrun, define_run]
  rw [hfaults] at hend
  rw [declare_run] at *
  refine ⟨by simpa using hshows, ?_, hrole, hclass, hloops, ?_⟩
  · rw [List.tail_modifyHead, houter, List.tail_modifyHead]
  · rw [hend, ← List.append_assoc, ← List.reverse_append, ← faultsAmong_append, List.singleton_append]

/-- A step in a scope of its own, which belongs to no function and to no class. -/
theorem inScope (hs : s = .block ∨ s = .ownName) (h : Ahead before (s :: p)) (hxs : Above (s :: p) xs)
    (hc : Reports before xs (s :: p) c) : Reports before xs p (Resolve.inScope [] c) := by
  have hopens : s.opens := by rcases hs with rfl | rfl <;> rfl
  have hrole : Place.role (s :: p) = p.role := by rcases hs with rfl | rfl <;> rfl
  have hclass : Place.InClass (s :: p) ↔ p.InClass := by
    rcases hs with rfl | rfl <;> exact inClass_cons (by decide) p
  have hloops : Place.InLoop (s :: p) ↔ p.InLoop := by
    rcases hs with rfl | rfl <;> exact inLoop_cons rfl (by decide) p
  have hgiven : Place.given (s :: p) = [] := by rcases hs with rfl | rfl <;> rfl
  intro w hw
  have hfresh : Place.Shows before (s :: p) ([] :: w.scopes) :=
    shows_fresh hopens h [] fun name => by simp [hgiven, Bindings.has, Bindings.get?]
  have hinner := hc { w with scopes := [] :: w.scopes }
    ⟨hfresh, hw.role.trans hrole.symm, hw.inClass.trans hclass.symm,
      hw.loops.trans (not_congr hloops.symm)⟩
  have houter := hinner.leave hopens hxs hw.scopes rfl rfl
  exact ⟨houter.scopes, houter.outer, hinner.role, hinner.inClass, hinner.loops, houter.faults⟩

theorem inLoop (hc : Reports before xs (.loopBody :: p) c) : Reports before xs p (Resolve.inLoop c) := by
  intro w hw
  have hclass := inClass_cons (s := .loopBody) nofun p
  have h := hc { w with loops := w.loops + 1 } ⟨hw.scopes, hw.role, hw.inClass.trans hclass.symm,
    iff_of_false (Nat.succ_ne_zero _) (not_not_intro (inLoop_loopBody p))⟩
  exact ⟨h.scopes, h.outer, h.role, h.inClass, congrArg (· - 1) h.loops, h.faults⟩

/-- The parameters and the body of a function are in one scope. -/
theorem inFunction {ts : List Token} {method : Option String}
    (h : Ahead before (.body method :: p)) (hxs : Above (.body method :: p) xs)
    (hc : Reports (before ++ ts.map (⟨.body method :: p, .declaration, ·⟩)) xs (.body method :: p) c) :
    Reports before (ts.map (⟨.body method :: p, .declaration, ·⟩) ++ xs) p
      (Resolve.inFunction (Place.role (.body method :: p)) ts c) := by
  intro w hw
  have hclass := inClass_cons (s := .body method) nofun p
  have hfresh : Place.Shows before (.body method :: p) ([] :: w.scopes) :=
    shows_fresh rfl h [] fun name => by simp [Place.given, Bindings.has, Bindings.get?]
  have hbody := (declareAll ⟨rfl, rfl⟩ ts).bind (fun _ => hc)
    { w with scopes := [] :: w.scopes, role := Place.role (.body method :: p), loops := 0 }
    ⟨hfresh, rfl, hw.inClass.trans hclass.symm, iff_of_true rfl (not_inLoop_body method p)⟩
  have houter := hbody.leave rfl ((Above.declarations ts).append hxs) hw.scopes rfl rfl
  exact ⟨houter.scopes, houter.outer, rfl, hbody.inClass, rfl, houter.faults⟩

theorem inClass (hp : p.Plain) (h : Ahead (before ++ [⟨p, .declaration, t⟩]) (.methods :: p))
    (hxs : Above (.methods :: p) xs)
    (hc : Reports (before ++ [⟨p, .declaration, t⟩]) xs (.methods :: p) c) :
    Reports before (⟨p, .declaration, t⟩ :: xs) p (Resolve.inClass t c) := by
  intro w hw
  have hdeclared := hw.declared (t := t) hp
  have hat := hw.after hdeclared
  have hfresh : Place.Shows (before ++ [⟨p, .declaration, t⟩]) (.methods :: p)
      ([(receiverName, true)] :: (define t (declare t w).2).2.scopes) :=
    shows_fresh rfl h _ fun name => by
      simp [Place.given, Bindings.has, Bindings.get?, eq_comm, apply_ite]
  have hloops := inLoop_cons (s := .methods) rfl (by decide) p
  have hinner := hc (w.inClassOf t) (by
    rw [inClassOf_eq]
    exact ⟨hfresh, hat.role, iff_of_true rfl List.mem_cons_self,
      hat.loops.trans (not_congr hloops.symm)⟩)
  have hscopes : (w.inClassOf t).scopes.tail = (define t (declare t w).2).2.scopes := by
    rw [inClassOf_eq]
    rfl
  have hfaults : (w.inClassOf t).faults = (define t (declare t w).2).2.faults := by rw [inClassOf_eq]
  have houter := hinner.leave rfl hxs hat.scopes hscopes hfaults
  have hrole : (w.inClassOf t).role = w.role := by
    rw [inClassOf_eq]
    exact hdeclared.role
  have hdepth : (w.inClassOf t).loops = w.loops := by
    rw [inClassOf_eq]
    exact hdeclared.loops
  have hclosed := hdeclared.trans houter
  exact ⟨hclosed.scopes, hclosed.outer, hinner.role.trans hrole, rfl, hinner.loops.trans hdepth,
    hclosed.faults⟩

end Reports
end Resolve
/-! ### Trees -/

namespace Place
variable {p : Place}

theorem Plain.part (h : p.Plain) (i : Nat) : Place.Plain (.part i :: p) := ⟨h.initialized, h.given⟩

theorem Plain.loopBody (h : p.Plain) : Place.Plain (.loopBody :: p) := ⟨h.initialized, h.given⟩

theorem plain_block (p : Place) : Place.Plain (.block :: p) := ⟨rfl, rfl⟩

theorem plain_body (method : Option String) (p : Place) : Place.Plain (.body method :: p) :=
  ⟨rfl, rfl⟩

end Place

section
open Place Resolve Reports

theorem Place.Ahead.body {before : List Occurrence} {method : Option String} {p : Place}
    (h : Ahead before (.body method :: p)) (ts : List Token) (j : Nat) (_ : 0 ≤ j) :
    Ahead (before ++ ts.map (⟨.body method :: p, .declaration, ·⟩)) (.part j :: .body method :: p) := by
  refine (h.inner (.part j)).below fun x hx => ?_
  obtain ⟨t, -, rfl⟩ := List.mem_map.mp hx
  rfl

theorem Place.Ahead.declared {before : List Occurrence} {p : Place} (h : Ahead before p) (t : Token)
    (s : Nesting) : Ahead (before ++ [⟨p, .declaration, t⟩]) (s :: p) :=
  (h.inner s).below (List.forall_mem_singleton.mpr rfl)

theorem Expr.reports_variable (t : Token) (mark : Unit) (p : Place) (before : List Occurrence) :
    Reports before [⟨p, .read, t⟩] p (Expr.variable t mark).resolve := by
  refine check (q := fun w => isPending w.scopes t.lexeme) (by decide) (fun w hw => ?_)
    ((Reports.refer .variable t t.lexeme).last fun _ => pure _)
  have hreads : (Occurrence.mk p .read t).ReadsItself ↔ isPending w.scopes t.lexeme := by
    rw [hw.pending]
    exact ⟨And.right, fun h => ⟨.inl rfl, h⟩⟩
  simp only [Occurrence.fault?, Occurrence.violation?, hreads, true_and]

theorem Expr.reports_this (t : Token) (mark : Unit) (p : Place) (before : List Occurrence) :
    Reports before [⟨p, .receiver, t⟩] p (Expr.this t mark).resolve := by
  have hrun (w : Walk) : (Expr.this t mark).resolve w =
      (if w.inClass then do return .this t (← Resolve.refer .this t receiverName)
        else do
          report t .thisOutsideClass
          return .this t none : Resolve ResolvedExpr) w := rfl
  by_cases hclass : p.InClass
  · have hfault : Occurrence.fault? before ⟨p, .receiver, t⟩ = none := if_pos hclass
    refine (silent (by decide) hfault ((Reports.refer .this t receiverName).last fun d =>
      pure (Expr.this t d))).congr fun w hw => ?_
    rw [hrun, if_pos (hw.inClass.mpr hclass)]
  · have hfault : Occurrence.fault? before ⟨p, .receiver, t⟩ = some .thisOutsideClass :=
      if_neg hclass
    refine (note (q := fun w => { w with faults := ⟨t, .thisOutsideClass⟩ :: w.faults })
      (by decide) (fun w _ => by rw [hfault]; rfl) (pure (Expr.this t none))).congr fun w hw => ?_
    rw [hrun, if_neg fun h => hclass (hw.inClass.mp h)]
    rfl

/-- A value must not leave an initializer, and nothing must leave the top level. -/
theorem Stmt.reports_return {t : Token} {p : Place} {before xs : List Occurrence}
    {c : Resolve ResolvedStmt} (hc : Reports (before ++ [⟨p, .returnFrom true, t⟩]) xs p c) :
    Reports before (⟨p, .returnFrom true, t⟩ :: xs) p (do
      if (← get).role = .topLevel then report t .returnOutsideFunction
      if (← get).role = .initializer then report t .valueFromInitializer
      c) := by
  refine (hc.note (q := fun w => (w.checked (·.role = .topLevel) t .returnOutsideFunction).checked
    (·.role = .initializer) t .valueFromInitializer) (by decide) fun w hw => ?_).congr fun w _ =>
      (check_eq (·.role = .topLevel) t _ _ w).trans (check_eq (·.role = .initializer) t _ c _)
  have hrole := hw.role
  cases hfunction : p.function? with
  | none =>
    rw [Place.role_eq_topLevel.mpr hfunction] at hrole
    simp [Walk.checked, hrole, Occurrence.fault?, Occurrence.violation?, hfunction]
  | some method =>
    have htop : w.role ≠ .topLevel := by
      rw [hrole, Ne, Place.role_eq_topLevel, hfunction]
      exact Option.some_ne_none method
    have hinit : w.role = .initializer ↔ method = some initializerName := by
      rw [hrole, Place.role_eq_initializer, hfunction, Option.some.injEq]
    simp only [Walk.checked, if_neg htop, hinit, Occurrence.fault?, Occurrence.violation?, hfunction]
    split <;> simp_all

mutual

theorem Expr.reports : (e : RawExpr) → {p : Place} → {before : List Occurrence} →
    Ahead before p → Reports before (e.occurrences p) p e.resolve
  | .literal _, _, _, _ => pure _
  | .grouping e, _, _, h => (part (e.reports (h.inner _))).last fun _ => pure _
  | .unary _ e, _, _, h => (part (e.reports (h.inner _))).last fun _ => pure _
  | .binary a _ b, _, _, h =>
    (part (a.reports (h.inner _))).bind fun _ =>
      (part (b.reports ((h.inner _).behind (a.above _) (by decide)))).last fun _ => pure _
  | .logical a _ b, _, _, h =>
    (part (a.reports (h.inner _))).bind fun _ =>
      (part (b.reports ((h.inner _).behind (a.above _) (by decide)))).last fun _ => pure _
  | .variable t mark, p, before, _ => Expr.reports_variable t mark p before
  | .assign t none e _, _, _, h =>
    (part (e.reports (h.inner _))).last fun _ =>
      (Reports.refer .assign t t.lexeme).last fun _ => pure _
  | .assign t (some _) e _, _, _, h =>
    (part (e.reports (h.inner _))).bind fun _ =>
      silent (by decide) rfl ((Reports.refer .assign t t.lexeme).last fun _ => pure _)
  | .call f _ es, _, _, h =>
    (part (f.reports (h.inner _))).bind fun _ =>
      (Expr.reportsAll es fun j hj =>
        (h.inner _).behind (f.above _) (by simp; omega)).last fun _ => pure _
  | .get o _, _, _, h => (part (o.reports (h.inner _))).last fun _ => pure _
  | .set o _ _ e, _, _, h =>
    (part (e.reports (h.inner _))).bind fun _ =>
      (part (o.reports ((h.inner _).behind (e.above _) (by decide)))).last fun _ => pure _
  | .this t mark, p, before, _ => Expr.reports_this t mark p before
  | .function none ts body, p, _, h =>
    (Reports.inFunction (h.inner _) (Stmt.aboveAll body _ 0)
      (Stmt.reportsAll body (plain_body none p) ((h.inner _).body ts))).last fun _ => pure _
  | .function (some t) ts body, p, _, h => by
    have hname : Ahead _ (.body none :: .ownName :: p) := (h.inner .ownName).declared t (.body none)
    have hbody := Reports.inFunction hname (Stmt.aboveAll body _ 0)
      (Stmt.reportsAll body (plain_body none _) (hname.body ts))
    have habove := (Above.here .declaration t).append
      (Stmt.above_body ts body (.body none :: .ownName :: p)).inner
    exact (Reports.inScope (.inr rfl) (h.inner _) habove
      (declareDefine ⟨rfl, rfl⟩ hbody)).last fun _ => pure _

theorem Expr.reportsAll : (es : List RawExpr) → {p : Place} → {i : Nat} →
    {before : List Occurrence} → (∀ j, i ≤ j → Ahead before (.part j :: p)) →
      Reports before (Expr.occurrencesAll p i es) p (Expr.resolveAll es)
  | [], _, _, _, _ => pure _
  | e :: es, _, i, _, h =>
    (part (e.reports (h i (Nat.le_refl _)))).bind fun _ => (Expr.reportsAll es fun j hj =>
      (h j (by omega)).behind (e.above _) (by simp; omega)).last fun _ => pure _

theorem Stmt.reports : (s : RawStmt) → {p : Place} → p.Plain → {before : List Occurrence} →
    Ahead before p → Reports before (s.occurrences p) p s.resolve
  | .expression e, _, _, _, h => (part (e.reports (h.inner _))).last fun _ => pure _
  | .print e, _, _, _, h => (part (e.reports (h.inner _))).last fun _ => pure _
  | .varDecl _ none, _, hp, _, _ => declareDefine hp (pure _)
  | .varDecl t (some e), _, hp, _, h =>
    Reports.initializer hp (e.reports (h.declared t (.initializer t.lexeme)))
  | .block body, p, _, _, h =>
    (Reports.inScope (.inl rfl) (h.inner _) (Stmt.aboveAll body _ 0) (Stmt.reportsAll body
      (plain_block p) fun j _ => (h.inner _).inner _)).last fun _ => pure _
  | .ifElse c yes none, _, hp, _, h =>
    (part (c.reports (h.inner _))).bind fun _ =>
      (part (yes.reports (hp.part 1) ((h.inner _).behind (c.above _) (by decide)))).last
        fun _ => pure _
  | .ifElse c yes (some no), _, hp, _, h =>
    (part (c.reports (h.inner _))).bind fun _ =>
      (part (yes.reports (hp.part 1) ((h.inner _).behind (c.above _) (by decide)))).bind fun _ =>
        (part (no.reports (hp.part 2) (((h.inner _).behind (c.above _) (by decide)).behind
          (yes.above _) (by decide)))).last fun _ => pure _
  | .loop c body none, _, hp, _, h =>
    (part (c.reports (h.inner _))).bind fun _ =>
      (Reports.inLoop (body.reports hp.loopBody ((h.inner _).behind (c.above _) (by decide)))).last
        fun _ => pure _
  | .loop c body (some n), _, hp, _, h =>
    (part (c.reports (h.inner _))).bind fun _ =>
      (Reports.inLoop (body.reports hp.loopBody ((h.inner _).behind (c.above _) (by decide)))).bind
        fun _ => (part (n.reports (((h.inner _).behind (c.above _) (by decide)).behind
          (body.above _) (by decide)))).last fun _ => pure _
  | .breakLoop _, _, _, _, _ => check (q := (·.loops = 0)) (by decide) (fun w hw => by
      simp only [Occurrence.fault?, Occurrence.violation?, hw.loops, ite_not]
      rfl) (pure _)
  | .continueLoop _, _, _, _, _ => check (q := (·.loops = 0)) (by decide) (fun w hw => by
      simp only [Occurrence.fault?, Occurrence.violation?, hw.loops, ite_not]
      rfl) (pure _)
  | .returnFrom _ none, p, _, _, _ => check (q := (·.role = .topLevel)) (by decide) (fun w hw => by
      simp only [hw.role, Place.role_eq_topLevel, Occurrence.fault?, Occurrence.violation?]
      cases p.function? <;> simp) (pure _)
  | .returnFrom _ (some e), _, _, _, h => Stmt.reports_return ((part (e.reports
      ((h.inner _).below (List.forall_mem_singleton.mpr rfl)))).last fun _ => pure _)
  | .functionDecl t ts body, p, hp, _, h => by
    have hbody := h.declared t (.body none)
    exact declareDefine hp ((Reports.inFunction hbody (Stmt.aboveAll body _ 0)
      (Stmt.reportsAll body (plain_body none p) (hbody.body ts))).last fun _ => pure _)
  | .classDecl t ms, _, hp, _, h => by
    have hmethods := h.declared t .methods
    exact (Reports.inClass hp hmethods (Method.aboveAll ms _ 0)
      (Method.reportsAll ms fun j _ => hmethods.inner _)).last fun _ => pure _

theorem Stmt.reportsAll : (ss : List RawStmt) → {p : Place} → p.Plain → {i : Nat} →
    {before : List Occurrence} → (∀ j, i ≤ j → Ahead before (.part j :: p)) →
      Reports before (Stmt.occurrencesAll p i ss) p (Stmt.resolveAll ss)
  | [], _, _, _, _, _ => pure _
  | s :: ss, _, hp, i, _, h =>
    (part (s.reports (hp.part i) (h i (Nat.le_refl _)))).bind fun _ => (Stmt.reportsAll ss hp fun j hj =>
      (h j (by omega)).behind (s.above _) (by simp; omega)).last fun _ => pure _

theorem Method.reportsAll : (ms : List RawMethod) → {p : Place} → {i : Nat} →
    {before : List Occurrence} → (∀ j, i ≤ j → Ahead before (.part j :: p)) →
      Reports before (Method.occurrencesAll p i ms) p (Method.resolveAll ms)
  | [], _, _, _, _ => pure _
  | .mk t ts body :: ms, p, i, _, h => by
    have hat := (h i (Nat.le_refl _)).inner (.body (some t.lexeme))
    have hbody := Reports.inFunction hat (Stmt.aboveAll body _ 0)
      (Stmt.reportsAll body (plain_body (some t.lexeme) _) (hat.body ts))
    have habove := (Stmt.above_body ts body (.body (some t.lexeme) :: .part i :: p)).inner
    exact (part (hbody.last fun b => pure (Method.mk t ts b))).bind fun _ =>
      (Method.reportsAll ms fun j hj =>
        (h j (by omega)).behind habove (by simp; omega)).last fun _ => pure _

end
end

/-! ### Programs -/

theorem resolve_faultsAmong (program : List RawStmt) : (resolve program).diagnostics =
    (faultsAmong [] (Stmt.occurrencesAll [] 0 program)).map (·.diagnostic) := by
  have hstart : Walk.start.At [] [] := ⟨rfl, rfl, by decide, by decide⟩
  have hpasses := Stmt.reportsAll program ⟨rfl, rfl⟩ (i := 0) (fun _ _ => List.forall_mem_nil _)
    .start hstart
  have hfaults : (Stmt.resolveAll program .start).2.faults =
      (faultsAmong [] (Stmt.occurrencesAll [] 0 program)).reverse ++ [] := hpasses.faults
  show ((Stmt.resolveAll program .start).2.faults.reverse).map _ = _
  rw [hfaults, List.append_nil, List.reverse_reverse]

namespace Occurrence
variable {before : List Occurrence} {x : Occurrence}

theorem violation?_ne : x.violation? before ≠ some .readInInitializer := by
  unfold violation?
  repeat' split
  all_goals simp

theorem fault?_of_read (h : x.usage = .read ∧ x.ReadsItself) :
    x.fault? before = some .readInInitializer ∧ x.violation? before = none := by
  refine ⟨if_pos h, ?_⟩
  rw [violation?, h.1]

theorem fault?_of_not_read (h : ¬ (x.usage = .read ∧ x.ReadsItself)) :
    x.fault? before = x.violation? before := if_neg h

end Occurrence

theorem filter_faultsAmong_ne (before xs : List Occurrence) :
    (faultsAmong before xs).filter (·.cause ≠ .readInInitializer) = violations before xs := by
  induction xs generalizing before with
  | nil => rfl
  | cons x xs ih =>
    rw [faultsAmong, violations, List.filter_append, ih]
    by_cases hread : x.usage = .read ∧ x.ReadsItself
    · simp [Occurrence.fault?_of_read hread]
    · rw [Occurrence.fault?_of_not_read hread]
      cases hcause : x.violation? before with
      | none => rfl
      | some cause =>
        have hne : cause ≠ .readInInitializer :=
          fun h => Occurrence.violation?_ne (hcause.trans (congrArg some h))
        simp [hne]

theorem filter_faultsAmong_eq (before xs : List Occurrence) :
    (faultsAmong before xs).filter (·.cause = .readInInitializer) =
      (xs.filter fun x => x.usage = .read ∧ x.ReadsItself).map (⟨·.token, .readInInitializer⟩) := by
  induction xs generalizing before with
  | nil => rfl
  | cons x xs ih =>
    rw [faultsAmong, List.filter_append, ih, List.filter_cons]
    by_cases hread : x.usage = .read ∧ x.ReadsItself
    · simp [Occurrence.fault?_of_read hread, hread]
    · rw [Occurrence.fault?_of_not_read hread, if_neg (by simpa using hread)]
      cases hcause : x.violation? before with
      | none => rfl
      | some cause =>
        have hne : cause ≠ .readInInitializer :=
          fun h => Occurrence.violation?_ne (hcause.trans (congrArg some h))
        simp [hne]

theorem Scope.Cause.message_eq_read (c : Cause) :
    c.message = Cause.readInInitializer.message ↔ c = .readInInitializer := by
  cases c <;> decide

/-- Besides reads of variables in their own initializers, scope resolution reports the violations of
the rules of structure, each once and in the order in which they are met. -/
theorem resolve_violations (program : List RawStmt) :
    (resolve program).diagnostics.filter (·.message ≠ Cause.readInInitializer.message) =
      (violations [] (Stmt.occurrencesAll [] 0 program)).map (·.diagnostic) := by
  rw [resolve_faultsAmong, ← filter_faultsAmong_ne, List.filter_map]
  congr 2
  funext f
  simp [Scope.Fault.diagnostic, Scope.Cause.message_eq_read]

/-- The parameters and the body of a function are one scope, and no loop around it is its own. -/
example :
    let source := "while (true) \x7b fun f(a) \x7b var a; break; \x7b var a; \x7d \x7d " ++
      "var f; break; \x7d"
    (violations [] (Stmt.occurrencesAll [] 0 (programOf source))).map (·.cause) =
      [.alreadyDeclared, .breakOutsideLoop, .alreadyDeclared] := by
  decide +kernel

/-- The reads of variables in their own initializers that scope resolution reports are those of
names by themselves. A program with such a read is not run. -/
theorem resolve_own_reads (program : List RawStmt) :
    (resolve program).diagnostics.filter (·.message = Cause.readInInitializer.message) =
      ((Stmt.occurrencesAll [] 0 program).filter fun x => x.usage = .read ∧ x.ReadsItself).map
        (⟨.token ·.token, Cause.readInInitializer.message⟩) ∧
    ∀ (s : Session) (source path : String), programOf source = program →
      (∃ x ∈ Stmt.occurrencesAll [] 0 program, x.usage = .read ∧ x.ReadsItself) →
      ∃ s', Session.run source path s = .ok .dataError s' ∧ s'.machine = s.machine := by
  have hreads : (resolve program).diagnostics.filter
      (·.message = Cause.readInInitializer.message) =
        ((Stmt.occurrencesAll [] 0 program).filter fun x => x.usage = .read ∧ x.ReadsItself).map
          (⟨.token ·.token, Cause.readInInitializer.message⟩) := by
    have hcauses := congrArg (List.map (·.diagnostic))
      (filter_faultsAmong_eq [] (Stmt.occurrencesAll [] 0 program))
    rw [List.map_map] at hcauses
    rw [resolve_faultsAmong, List.filter_map]
    refine Eq.trans ?_ hcauses
    congr 2
    funext f
    simp [Scope.Fault.diagnostic, Scope.Cause.message_eq_read]
  refine ⟨hreads, ?_⟩
  rintro s source path rfl ⟨x, hx, hread⟩
  have hrejected : ¬ Accepted source := by
    intro h
    rw [h.resolved, List.filter_nil] at hreads
    have hmem : x ∈ (Stmt.occurrencesAll [] 0 (programOf source)).filter
        fun x => x.usage = .read ∧ x.ReadsItself := List.mem_filter.mpr ⟨hx, by simpa using hread⟩
    rw [List.map_eq_nil_iff.mp hreads.symm] at hmem
    cases hmem
  obtain ⟨ds, -, hrun⟩ := Session.run_refused hrejected
  exact ⟨_, hrun s path, rfl⟩

/-- The read is inside a call that is the initializer. -/
theorem resolve_own_reads_argument :
    let source := "\x7b var x = clock(x); \x7d"
    let s := Session.start (.standard Nat.toFloat) (.start true false) true
    (resolve (programOf source)).diagnostics.map (·.plain) =
        ["[line 1] Error at 'x': Can't read local variable in its own initializer."] ∧
      ∃ s', Session.run source promptPath s = .ok .dataError s' ∧ s'.machine = s.machine := by
  intro source s
  exact ⟨by decide +kernel,
    (resolve_own_reads (programOf source)).2 s source promptPath rfl (by decide +kernel)⟩

/-- A compound assignment in the initializer of its own variable reads it, is not reported, and
fails when the program is run: the variable has no value yet. -/
theorem own_update_not_reported :
    let source := "\x7b var x = x += 1; \x7d"
    let s := Session.start (.standard Nat.toFloat) (.start true false) true
    (∃ x ∈ Stmt.occurrencesAll [] 0 (programOf source), x.ReadsItself) ∧
      (resolve (programOf source)).diagnostics = [] ∧
      s.ending (Session.run source promptPath) = .error (.unknown "KeyError" "'x'") := by
  decide +kernel

end LoxScript
