import LoxScript.Proofs.Simulation
import LoxScript.Proofs.Sightings

/-!
What resolution says of signals. A statement in which a walk finds no fault ends with `break` or
`continue` only if the walk came to it inside a loop, with `return` only inside a function, and
with a value other than nil not inside an initializer.
-/
namespace LoxScript

open Resolve Scope

/-- The signals that may come from where a walk has some loops and a function around it. -/
def Signal.Permitted (role : Role) (loops : Nat) : Signal → Prop
  | .proceed => True
  | .breakLoop => 0 < loops
  | .continueLoop => 0 < loops
  | .returnValue v => role ≠ .topLevel ∧ (role = .initializer → v = .nil)

mutual

/-- Statements whose own jumps are permitted. What functions inside them do is not looked at. -/
def Stmt.Licensed (role : Role) : Nat → ResolvedStmt → Prop
  | loops, .block body => Stmt.AllLicensed role loops body
  | loops, .ifElse _ yes none => yes.Licensed role loops
  | loops, .ifElse _ yes (some no) => yes.Licensed role loops ∧ no.Licensed role loops
  | loops, .loop _ body _ => body.Licensed role (loops + 1)
  | loops, .breakLoop _ => 0 < loops
  | loops, .continueLoop _ => 0 < loops
  | _, .returnFrom _ none => role ≠ .topLevel
  | _, .returnFrom _ (some _) => role ≠ .topLevel ∧ role ≠ .initializer
  | _, _ => True

def Stmt.AllLicensed (role : Role) : Nat → List ResolvedStmt → Prop
  | _, [] => True
  | loops, s :: ss => s.Licensed role loops ∧ Stmt.AllLicensed role loops ss

end

namespace Run

/-- All that a step can give is as `P` says. -/
def Gives {α : Type} (P : α → Prop) (c : Run α) : Prop := ∀ m a m', c m = .ok a m' → P a

namespace Gives
variable {α β : Type} {P : α → Prop} {Q : β → Prop} {c : Run α}

theorem pure {a : α} (ha : P a) : Gives P (Pure.pure a) := by
  intro m b m' h
  cases h
  exact ha

theorem throw (failure : Failure) : @Gives α P (MonadExcept.throw failure) := by
  intro m b m' h
  cases h

theorem bind {k : α → Run β} (hc : Gives P c) (hk : ∀ a, P a → Gives Q (k a)) :
    Gives Q (c >>= k) := by
  intro m b m' h
  simp only [Bind.bind, EStateM.bind] at h
  cases hcm : c m with
  | error failure u =>
    rw [hcm] at h
    cases h
  | ok a u =>
    rw [hcm] at h
    exact hk a (hc m a u hcm) u b m' h

theorem bind_congr {k k' : α → Run β} (hc : Gives P c) (hk : ∀ a, P a → k a = k' a) :
    c >>= k = c >>= k' := by
  funext m
  simp only [Bind.bind, EStateM.bind]
  cases hcm : c m with
  | error failure u => rfl
  | ok a u => exact congrFun (hk a (hc m a u hcm)) u

/-- A step that comes after another one, of which nothing is known. -/
theorem after {k : α → Run β} (hk : ∀ a, Gives Q (k a)) : Gives Q (c >>= k) :=
  bind (P := fun _ => True) (fun _ _ _ _ => trivial) fun a _ => hk a

theorem imp {P' : α → Prop} (hc : Gives P c) (h : ∀ a, P a → P' a) : Gives P' c :=
  fun m a m' hm => h a (hc m a m' hm)

theorem ite {q : Prop} [Decidable q] {d : Run α} (hc : Gives P c) (hd : Gives P d) :
    Gives P (if q then c else d) := by
  split
  · exact hc
  · exact hd

theorem inEnvironment {e : Environment} (hc : Gives P c) : Gives P (Run.inEnvironment e c) := by
  intro m a m' h
  simp only [Run.inEnvironment] at h
  cases hcm : c { m with environment := e } with
  | ok b u =>
    rw [hcm] at h
    cases h
    exact hc _ _ _ hcm
  | error failure u =>
    rw [hcm] at h
    cases h

/-- A loop keeps `break` and `continue` to itself, and returns what its body returns. -/
theorem loop {P : Signal → Prop} {condition : Run Bool} {body : Run Signal} {increment : Run Unit}
    (hb : Gives P body) (turns : Nat) :
    Gives (fun s => s = .proceed ∨ ∃ v, s = .returnValue v ∧ P s)
      (Run.loop condition body increment turns) := by
  induction turns with
  | zero => exact throw _
  | succ turns ih =>
    refine after fun go => ite ?_ (pure (.inl rfl))
    refine bind hb fun signal hsignal => ?_
    cases signal with
    | breakLoop => exact pure (.inl rfl)
    | returnValue v => exact pure (.inr ⟨v, rfl, hsignal⟩)
    | proceed => exact after fun _ => ih
    | continueLoop => exact after fun _ => ih

end Gives
end Run

/-- What a loop lets out is permitted around it if it is inside it. -/
theorem Signal.Permitted.outside {role : Role} {loops others : Nat} {signal : Signal}
    (h : signal = .proceed ∨ ∃ v, signal = .returnValue v ∧ signal.Permitted role loops) :
    signal.Permitted role others := by
  rcases h with rfl | ⟨v, rfl, hv⟩
  · trivial
  · exact hv

section Meaning
variable {turns : Nat} {inv : Invoke} {role : Role}

open Run.Gives

mutual

theorem Stmt.exec_permitted {loops : Nat} : (s : ResolvedStmt) → s.Licensed role loops →
    (s.exec turns inv).Gives (Signal.Permitted role loops)
  | .expression _, _ => after fun _ => .pure trivial
  | .print _, _ => after fun _ => after fun _ => .pure trivial
  | .varDecl _ none, _ => after fun _ => .pure trivial
  | .varDecl _ (some _), _ => after fun _ => after fun _ => .pure trivial
  | .block body, h => after fun _ => after fun _ => inEnvironment (Stmt.execAll_permitted body h)
  | .ifElse _ yes none, h => after fun _ => ite (yes.exec_permitted h) (.pure trivial)
  | .ifElse _ yes (some no), h =>
    after fun _ => ite (yes.exec_permitted h.1) (no.exec_permitted h.2)
  | .loop _ body none, h => (Run.Gives.loop (body.exec_permitted h) turns).imp fun _ => .outside
  | .loop _ body (some _), h => (Run.Gives.loop (body.exec_permitted h) turns).imp fun _ => .outside
  | .breakLoop _, h => .pure h
  | .continueLoop _, h => .pure h
  | .returnFrom _ none, h => .pure ⟨h, fun _ => rfl⟩
  | .returnFrom _ (some _), h => after fun _ => .pure ⟨h.1, fun hrole => absurd hrole h.2⟩
  | .functionDecl _ _ _, _ => after fun _ => after fun _ => after fun _ => .pure trivial
  | .classDecl _ _, _ =>
    after fun _ => after fun _ => after fun _ => after fun _ => after fun _ => .pure trivial

theorem Stmt.execAll_permitted {loops : Nat} : (ss : List ResolvedStmt) →
    Stmt.AllLicensed role loops ss →
      (Stmt.execAll turns inv ss).Gives (Signal.Permitted role loops)
  | [], _ => .pure trivial
  | s :: ss, h => by
    refine .bind (s.exec_permitted h.1) fun signal hsignal => ?_
    cases signal with
    | proceed => exact Stmt.execAll_permitted ss h.2
    | _ => exact .pure hsignal

end

theorem Stmt.exec_loop_gives (condition : ResolvedExpr) (body : ResolvedStmt)
    (increment : Option ResolvedExpr) : ((Stmt.loop condition body increment).exec turns inv).Gives
      fun signal => signal = .proceed ∨ ∃ v, signal = .returnValue v := by
  have hbody : (body.exec turns inv).Gives fun _ => True := fun _ _ _ _ => trivial
  have hends (signal : Signal) (h : signal = .proceed ∨ ∃ v, signal = .returnValue v ∧ True) :
      signal = .proceed ∨ ∃ v, signal = .returnValue v := by simpa using h
  cases increment with
  | none => exact (Run.Gives.loop hbody turns).imp hends
  | some n => exact (Run.Gives.loop hbody turns).imp hends

end Meaning

namespace Scope.Walk

/-- What a step of a walk gives back as it found it. -/
structure Returns (w w' : Walk) : Prop where
  role : w'.role = w.role
  inClass : w'.inClass = w.inClass
  loops : w'.loops = w.loops
  depth : w'.scopes.length = w.scopes.length
  faults : w.faults <:+ w'.faults

theorem Returns.refl (w : Walk) : w.Returns w := ⟨rfl, rfl, rfl, rfl, List.suffix_refl _⟩

theorem Returns.trans {w w' w'' : Walk} (h : w.Returns w') (k : w'.Returns w'') : w.Returns w'' :=
  ⟨k.role.trans h.role, k.inClass.trans h.inClass, k.loops.trans h.loops, k.depth.trans h.depth,
    h.faults.trans k.faults⟩

end Scope.Walk

namespace Resolve

/-- A step of a walk gives back what it found, and if the walk has found no fault, the result is
as `P` says. -/
structure Yields {α : Type} (w : Walk) (P : α → Prop) (c : Resolve α) : Prop where
  returns : w.Returns (c w).2
  result : (c w).2.faults = [] → P (c w).1

namespace Yields
variable {α β : Type} {w : Walk} {P : α → Prop} {Q : β → Prop} {c : Resolve α}

theorem pure {a : α} (ha : P a) : Yields w P (Pure.pure a) := ⟨.refl w, fun _ => ha⟩

theorem bind {k : α → Resolve β} (hc : Yields w P c)
    (hk : ∀ a u, w.Returns u → Yields u (fun b => P a → Q b) (k a)) : Yields w Q (c >>= k) := by
  have h := hk (c w).1 (c w).2 hc.returns
  refine ⟨hc.returns.trans h.returns, fun hfaults => h.result hfaults (hc.result ?_)⟩
  -- Faults are only ever added, so if there are none at the end, there were none in between.
  have hsuffix := h.returns.faults
  rw [show (k (c w).1 (c w).2).2.faults = [] from hfaults] at hsuffix
  exact List.suffix_nil.mp hsuffix

theorem imp {P' : α → Prop} (hc : Yields w P c) (h : ∀ a, P a → P' a) : Yields w P' c :=
  ⟨hc.returns, fun hfaults => h _ (hc.result hfaults)⟩

/-- A check reports a fault unless it passes. -/
theorem check {q : Walk → Prop} [DecidablePred q] {token : Token} {cause : Cause} {k : Resolve β}
    (hk : ∀ u, w.Returns u → Yields u (fun b => ¬ q w → Q b) k) :
    Yields w Q (do
      if q (← get) then report token cause
      k) := by
  by_cases hq : q w
  · have hrun : (do if q (← get) then report token cause
                    k : Resolve β) w = k { w with faults := ⟨token, cause⟩ :: w.faults } := by
      simp only [Bind.bind, StateT.bind, get, getThe, MonadStateOf.get, StateT.get, Pure.pure, hq,
        if_true]
      rfl
    have hreturns : w.Returns { w with faults := ⟨token, cause⟩ :: w.faults } :=
      ⟨rfl, rfl, rfl, rfl, List.suffix_cons _ _⟩
    have h := hk _ hreturns
    refine ⟨hrun ▸ hreturns.trans h.returns, fun hfaults => ?_⟩
    rw [hrun] at hfaults
    have hsuffix := h.returns.faults
    rw [hfaults] at hsuffix
    cases List.suffix_nil.mp hsuffix
  · have hrun : (do if q (← get) then report token cause
                    k : Resolve β) w = k w := by
      simp only [Bind.bind, StateT.bind, get, getThe, MonadStateOf.get, StateT.get, Pure.pure, hq,
        if_false]
    have h := hk w (.refl w)
    exact ⟨hrun ▸ h.returns, fun hfaults => hrun ▸ h.result (hrun ▸ hfaults) hq⟩

theorem declare (name : Token) : Yields w (fun _ => True) (Resolve.declare name) := by
  refine ⟨?_, fun _ => trivial⟩
  simp only [Resolve.declare, Bind.bind, StateT.bind, get, getThe, MonadStateOf.get, StateT.get,
    Pure.pure]
  cases h : w.scopes with
  | nil => exact .refl w
  | cons scope outer =>
    have hlength : w.scopes.length = outer.length + 1 := by rw [h, List.length_cons]
    by_cases hhas : scope.has name.lexeme
    · simp only [hhas, if_true]
      exact ⟨rfl, rfl, rfl, hlength.symm, List.suffix_cons _ _⟩
    · simp only [hhas]
      exact ⟨rfl, rfl, rfl, hlength.symm, List.suffix_refl _⟩

theorem define (name : Token) : Yields w (fun _ => True) (Resolve.define name) := by
  refine ⟨?_, fun _ => trivial⟩
  rw [define_run]
  exact ⟨rfl, rfl, rfl, List.length_modifyHead, List.suffix_refl _⟩

theorem declareAll (names : List Token) : Yields w (fun _ => True) (Resolve.declareAll names) := by
  induction names generalizing w with
  | nil => exact .pure trivial
  | cons name names ih =>
    exact .bind (declare name) fun _ _ _ => .bind (define name) fun _ _ _ =>
      ih.imp fun _ _ _ _ => trivial

theorem refer (form : Form) (token : Token) (name : String) :
    Yields w (fun _ => True) (Resolve.refer form token name) := by
  refine ⟨?_, fun _ => trivial⟩
  simp only [Resolve.refer, Bind.bind, StateT.bind, get, getThe, MonadStateOf.get, StateT.get,
    Pure.pure]
  cases distance? w.scopes name with
  | none => exact .refl w
  | some d => exact ⟨rfl, rfl, rfl, rfl, List.suffix_refl _⟩

theorem inScope {names : Bindings Bool}
    (hc : Yields { w with scopes := names :: w.scopes } P c) :
    Yields w P (Resolve.inScope names c) := by
  refine ⟨⟨hc.returns.role, hc.returns.inClass, hc.returns.loops, ?_, hc.returns.faults⟩, hc.result⟩
  have hdepth := hc.returns.depth
  exact (List.length_tail ..).trans (by rw [hdepth, List.length_cons, Nat.add_sub_cancel])

theorem inLoop (hc : Yields { w with loops := w.loops + 1 } P c) :
    Yields w P (Resolve.inLoop c) := by
  refine ⟨⟨hc.returns.role, hc.returns.inClass, ?_, hc.returns.depth, hc.returns.faults⟩, hc.result⟩
  have hloops := hc.returns.loops
  exact (congrArg (· - 1) hloops).trans (Nat.add_sub_cancel _ _)

theorem inFunction {role : Role} {params : List Token}
    (hc : ∀ u : Walk, u.role = role → u.loops = 0 → u.inClass = w.inClass → Yields u P c) :
    Yields w P (Resolve.inFunction role params c) := by
  have hinner : Yields { w with role := role, loops := 0 } P (Resolve.inScope [] do
      Resolve.declareAll params
      c) := inScope (.bind (declareAll params) fun _ u hu =>
        (hc u hu.role hu.loops hu.inClass).imp fun _ ha _ => ha)
  exact ⟨⟨rfl, hinner.returns.inClass, rfl, hinner.returns.depth, hinner.returns.faults⟩,
    hinner.result⟩

theorem inClass {name : Token} (hc : ∀ u : Walk, Yields u P c) :
    Yields w P (Resolve.inClass name c) := by
  have hinner : Yields { w with inClass := true } P (do
      Resolve.declare name
      Resolve.define name
      Resolve.inScope [(receiverName, true)] c) :=
    .bind (declare name) fun _ _ _ => .bind (define name) fun _ _ _ =>
      (inScope (hc _)).imp fun _ ha _ _ => ha
  exact ⟨⟨hinner.returns.role, rfl, hinner.returns.loops, hinner.returns.depth,
    hinner.returns.faults⟩, hinner.result⟩

end Yields
end Resolve

/-- The likeness of a program with itself, if jumps in the bodies of functions are permitted. -/
def Likeness.licensed : Likeness where
  Label := Unit
  plain := ()
  names _ := Eq
  tokens := Eq
  fits isInitializer b b' := b' = b ∧
    ∃ role, (isInitializer = true → role = .initializer) ∧ Stmt.AllLicensed role 0 b
  names_plain a b := kept_names a b
  names_unique h k := Eq.congr h k
  kind_eq h := kept_kind h
  lexeme_eq h := kept_lexeme h

namespace Likeness.licensed

theorem refers (Γ : List Unit) (distance : Option Nat) (t : Token) :
    licensed.Refers Γ distance t t := by
  cases distance with
  | none => exact rfl
  | some d => exact fun _ _ => rfl

theorem declares (Γ : List Unit) (t : Token) : licensed.Declares Γ t t := fun _ _ => rfl

theorem params (ts : List Token) : licensed.Params () ts ts :=
  List.forall₂_same.mpr fun _ _ => rfl

end Likeness.licensed

/-- Trees in which the jumps of all functions are permitted. -/
def Expr.Upright (e : ResolvedExpr) : Prop := ∀ Γ, Expr.Alike .licensed Γ e e

def Expr.AllUpright (es : List ResolvedExpr) : Prop := ∀ Γ, Expr.AllAlike .licensed Γ es es

def Stmt.Upright (s : ResolvedStmt) : Prop := ∀ Γ, Stmt.Alike .licensed Γ s s

def Stmt.AllUpright (ss : List ResolvedStmt) : Prop := ∀ Γ, Stmt.AllAlike .licensed Γ ss ss

def Method.AllUpright (ms : List ResolvedMethod) : Prop := ∀ Γ, Method.AllAlike .licensed Γ ms ms

open Resolve.Yields Likeness.licensed

/-- What a body has to be for its function. -/
theorem fits_of_licensed {role : Role} {body : List ResolvedStmt} {isInitializer : Bool}
    (hrole : isInitializer = true → role = .initializer) (hbody : Stmt.AllLicensed role 0 body) :
    Likeness.licensed.fits isInitializer body body := ⟨rfl, role, hrole, hbody⟩

mutual

theorem Expr.resolve_upright : (e : RawExpr) → (w : Walk) →
    Resolve.Yields w Expr.Upright e.resolve
  | .literal _, _ => .pure fun _ => .literal
  | .grouping e, w => .bind (e.resolve_upright w) fun _ _ _ => .pure fun h Γ => .grouping (h Γ)
  | .unary _ e, w => .bind (e.resolve_upright w) fun _ _ _ => .pure fun h Γ => .unary rfl (h Γ)
  | .binary a _ b, w =>
    .bind (a.resolve_upright w) fun _ u _ => .bind (b.resolve_upright u) fun _ _ _ =>
      .pure fun hb ha Γ => .binary (ha Γ) rfl (hb Γ)
  | .logical a _ b, w =>
    .bind (a.resolve_upright w) fun _ u _ => .bind (b.resolve_upright u) fun _ _ _ =>
      .pure fun hb ha Γ => .logical (ha Γ) rfl (hb Γ)
  | .variable _ _, w =>
    check (q := fun w => isPending w.scopes _) fun _ _ => .bind (refer _ _ _) fun _ _ _ =>
      .pure fun _ _ Γ => .variable (refers Γ _ _)
  | .assign _ none e _, w =>
    .bind (e.resolve_upright w) fun _ _ _ => .bind (refer _ _ _) fun _ _ _ =>
      .pure fun _ h Γ => .assign (refers Γ _ _) (h Γ)
  | .assign _ (some _) e _, w =>
    .bind (e.resolve_upright w) fun _ _ _ => .bind (refer _ _ _) fun _ _ _ =>
      .pure fun _ h Γ => .compound (refers Γ _ _) rfl (h Γ)
  | .call f _ es, w =>
    .bind (f.resolve_upright w) fun _ u _ => .bind (Expr.resolveAll_upright es u) fun _ _ _ =>
      .pure fun hes hf Γ => .call (hf Γ) rfl (hes Γ)
  | .get o _, w => .bind (o.resolve_upright w) fun _ _ _ => .pure fun h Γ => .get (h Γ) rfl
  | .set o _ none e, w =>
    .bind (e.resolve_upright w) fun _ u _ => .bind (o.resolve_upright u) fun _ _ _ =>
      .pure fun ho he Γ => .set (ho Γ) rfl (he Γ)
  | .set o _ (some _) e, w =>
    .bind (e.resolve_upright w) fun _ u _ => .bind (o.resolve_upright u) fun _ _ _ =>
      .pure fun ho he Γ => .compoundSet (ho Γ) rfl rfl (he Γ)
  | .this keyword mark, w => by
    have hrun := (Expr.resolve_this keyword mark w).1
    refine ⟨?_, fun _ Γ => ?_⟩
    · have hresolve : (Expr.this keyword mark).resolve w =
          (if w.inClass then do return .this keyword (← Resolve.refer .this keyword receiverName)
            else do
              report keyword .thisOutsideClass
              return .this keyword none : Resolve ResolvedExpr) w := rfl
      rw [hresolve]
      split
      · exact (refer (w := w) .this keyword receiverName).returns
      · exact ⟨rfl, rfl, rfl, rfl, List.suffix_cons _ _⟩
    · rw [hrun]
      exact .this (refers Γ _ _)
  | .function none params body, w => by
    refine .bind (inFunction (P := fun b => Stmt.AllUpright b ∧ Stmt.AllLicensed .function 0 b)
      fun u hrole hloops _ => ?_) fun b _ _ => .pure fun h Γ => ?_
    · exact hrole ▸ hloops ▸ Stmt.resolveAll_upright body u
    · exact .function (Likeness.licensed.params params)
        (fits_of_licensed (fun h => by cases h) h.2) (h.1 _)
  | .function (some name) params body, w => by
    refine .bind (inScope (P := fun b => Stmt.AllUpright b ∧ Stmt.AllLicensed .function 0 b)
      (.bind (declare name) fun _ _ _ => .bind (define name) fun _ _ _ =>
        inFunction fun u hrole hloops _ => ?_)) fun b _ _ => .pure fun h Γ => ?_
    · have hbody := Stmt.resolveAll_upright body u
      rw [hrole, hloops] at hbody
      exact hbody.imp fun _ h _ _ => h
    · exact .namedFunction rfl (Likeness.licensed.params params)
        (fits_of_licensed (fun h => by cases h) h.2) (h.1 _)

theorem Expr.resolveAll_upright : (es : List RawExpr) → (w : Walk) →
    Resolve.Yields w Expr.AllUpright (Expr.resolveAll es)
  | [], _ => .pure fun _ => .nil
  | e :: es, w =>
    .bind (e.resolve_upright w) fun _ u _ => .bind (Expr.resolveAll_upright es u) fun _ _ _ =>
      .pure fun hes he Γ => .cons (he Γ) (hes Γ)

theorem Stmt.resolve_upright : (s : RawStmt) → (w : Walk) →
    Resolve.Yields w (fun s' => s'.Upright ∧ s'.Licensed w.role w.loops) s.resolve
  | .expression e, w =>
    .bind (e.resolve_upright w) fun _ _ _ => .pure fun h => ⟨fun Γ => .expression (h Γ), trivial⟩
  | .print e, w =>
    .bind (e.resolve_upright w) fun _ _ _ => .pure fun h => ⟨fun Γ => .print (h Γ), trivial⟩
  | .varDecl name none, w =>
    .bind (declare name) fun _ _ _ => .bind (define name) fun _ _ _ =>
      .pure fun _ _ => ⟨fun Γ => .varDecl (declares Γ _), trivial⟩
  | .varDecl name (some e), w =>
    .bind (declare name) fun _ u _ => .bind (e.resolve_upright u) fun _ _ _ =>
      .bind (define name) fun _ _ _ =>
        .pure fun _ h _ => ⟨fun Γ => .varDeclWith (declares Γ _) (h Γ), trivial⟩
  | .block body, w => by
    refine .bind (inScope (Stmt.resolveAll_upright body _)) fun _ _ _ => .pure fun h => ?_
    exact ⟨fun Γ => .block (l := ()) (h.1 _), h.2⟩
  | .ifElse c yes none, w => by
    refine .bind (c.resolve_upright w) fun _ u hu => .bind (yes.resolve_upright u) fun _ _ _ =>
      .pure fun hyes hc => ?_
    rw [hu.role, hu.loops] at hyes
    exact ⟨fun Γ => .ifElse (hc Γ) (hyes.1 Γ), hyes.2⟩
  | .ifElse c yes (some no), w => by
    refine .bind (c.resolve_upright w) fun _ u hu => .bind (yes.resolve_upright u) fun _ x hx =>
      .bind (no.resolve_upright x) fun _ _ _ => .pure fun hno hyes hc => ?_
    rw [hx.role, hx.loops, hu.role, hu.loops] at hno
    rw [hu.role, hu.loops] at hyes
    exact ⟨fun Γ => .ifElseBoth (hc Γ) (hyes.1 Γ) (hno.1 Γ), hyes.2, hno.2⟩
  | .loop c body none, w => by
    refine .bind (c.resolve_upright w) fun _ u hu => .bind (inLoop (body.resolve_upright _))
      fun _ _ _ => .pure fun hbody hc => ?_
    simp only [hu.role, hu.loops] at hbody
    exact ⟨fun Γ => .loop (hc Γ) (hbody.1 Γ), hbody.2⟩
  | .loop c body (some n), w => by
    refine .bind (c.resolve_upright w) fun _ u hu => .bind (inLoop (body.resolve_upright _))
      fun _ x _ => .bind (n.resolve_upright x) fun _ _ _ => .pure fun hn hbody hc => ?_
    simp only [hu.role, hu.loops] at hbody
    exact ⟨fun Γ => .loopWith (hc Γ) (hbody.1 Γ) (hn Γ), hbody.2⟩
  | .breakLoop _, w =>
    check (q := (·.loops = 0)) fun _ _ => .pure fun h => ⟨fun _ => .breakLoop, Nat.pos_of_ne_zero h⟩
  | .continueLoop _, w =>
    check (q := (·.loops = 0)) fun _ _ =>
      .pure fun h => ⟨fun _ => .continueLoop, Nat.pos_of_ne_zero h⟩
  | .returnFrom _ none, w =>
    check (q := (·.role = .topLevel)) fun _ _ => .pure fun h => ⟨fun _ => .returnNothing, h⟩
  | .returnFrom _ (some e), w => by
    refine check (q := (·.role = .topLevel)) fun u hu => check (q := (·.role = .initializer))
      fun x _ => .bind (e.resolve_upright x) fun _ _ _ => .pure fun he hinit htop => ?_
    rw [hu.role] at hinit
    exact ⟨fun Γ => .returnValue (he Γ), htop, hinit⟩
  | .functionDecl name params body, w => by
    refine .bind (declare name) fun _ _ _ => .bind (define name) fun _ _ _ =>
      .bind (inFunction (P := fun b => Stmt.AllUpright b ∧ Stmt.AllLicensed .function 0 b)
        fun u hrole hloops _ => ?_) fun b _ _ => .pure fun h _ _ => ⟨fun Γ => ?_, trivial⟩
    · exact hrole ▸ hloops ▸ Stmt.resolveAll_upright body u
    · exact .functionDecl (declares Γ _) rfl (Likeness.licensed.params params)
        (fits_of_licensed (fun h => by cases h) h.2) (h.1 _)
  | .classDecl name methods, w =>
    .bind (inClass fun u => Method.resolveAll_upright methods u) fun _ _ _ =>
      .pure fun h => ⟨fun Γ => .classDecl (declares Γ _) rfl (h Γ), trivial⟩

theorem Stmt.resolveAll_upright : (ss : List RawStmt) → (w : Walk) →
    Resolve.Yields w (fun ss' => Stmt.AllUpright ss' ∧ Stmt.AllLicensed w.role w.loops ss')
      (Stmt.resolveAll ss)
  | [], _ => .pure ⟨fun _ => .nil, trivial⟩
  | s :: ss, w => by
    refine .bind (s.resolve_upright w) fun _ u hu => .bind (Stmt.resolveAll_upright ss u)
      fun _ _ _ => .pure fun hss hs => ?_
    rw [hu.role, hu.loops] at hss
    exact ⟨fun Γ => .cons (hs.1 Γ) (hss.1 Γ), hs.2, hss.2⟩

theorem Method.resolveAll_upright : (ms : List RawMethod) → (w : Walk) →
    Resolve.Yields w Method.AllUpright (Method.resolveAll ms)
  | [], _ => .pure fun _ => .nil
  | .mk name params body :: ms, w => by
    refine .bind (P := fun m => m.params = params ∧ m.name = name ∧ Stmt.AllUpright m.body ∧
        Stmt.AllLicensed (methodRole name.lexeme) 0 m.body)
      (.bind (inFunction fun u hrole hloops _ => hrole ▸ hloops ▸ Stmt.resolveAll_upright body u)
        fun b _ _ => .pure fun h => ⟨rfl, rfl, h⟩) fun m u _ =>
      .bind (Method.resolveAll_upright ms u) fun _ _ _ => .pure fun hms hm Γ => ?_
    obtain ⟨n, ps, b⟩ := m
    obtain ⟨rfl, rfl, hbody, hlicensed⟩ := hm
    refine .cons rfl (Likeness.licensed.params _) (fits_of_licensed (fun h => ?_) hlicensed)
      (hbody _) (hms Γ)
    exact if_pos (of_decide_eq_true h)

end
end LoxScript
