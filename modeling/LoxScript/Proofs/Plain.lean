import LoxScript.Proofs.Likeness
import LoxScript.Proofs.Trees

/-!
Where no name is replaced. In frames that are all plain, a tree is like what it becomes when its
tokens are replaced by tokens that correspond to them, and like itself if they correspond to
themselves.
-/
namespace LoxScript

/-- A replacement of tokens that a likeness carries, where it asks nothing of bodies. -/
structure Likeness.Carries (L : Likeness) (P : Token → Prop) (σ : Token → Token) : Prop where
  tokens : ∀ t, P t → L.tokens t (σ t)
  fits : ∀ isInitializer b b', L.fits isInitializer b b'

/-- Labels of frames in which all names are kept. -/
def Likeness.AllPlain (L : Likeness) (Γ : List L.Label) : Prop := ∀ l ∈ Γ, l = L.plain

variable {L : Likeness} {P N : Token → Prop} {σ : Token → Token}

namespace Likeness

theorem AllPlain.cons {Γ : List L.Label} (h : L.AllPlain Γ) : L.AllPlain (L.plain :: Γ) :=
  List.forall_mem_cons.mpr ⟨rfl, h⟩

namespace Carries
variable {Γ : List L.Label} {t : Token}

theorem lexeme (hσ : L.Carries P σ) (ht : P t) : (σ t).lexeme = t.lexeme :=
  L.lexeme_eq (hσ.tokens t ht)

theorem names (hσ : L.Carries P σ) (ht : P t) : L.names L.plain t.lexeme (σ t).lexeme :=
  (L.names_plain _ _).mpr (hσ.lexeme ht).symm

theorem refers (hσ : L.Carries P σ) (hΓ : L.AllPlain Γ) (distance : Option Nat) (ht : P t) :
    L.Refers Γ distance t (σ t) := by
  cases distance with
  | none => exact hσ.tokens t ht
  | some d =>
    intro l hl
    rw [hΓ l (List.mem_of_getElem? hl)]
    exact hσ.names ht

theorem declares (hσ : L.Carries P σ) (hΓ : L.AllPlain Γ) (ht : P t) :
    L.Declares Γ t (σ t) := by
  intro l hl
  rw [hΓ l (List.mem_of_mem_head? hl)]
  exact hσ.names ht

theorem params (hσ : L.Carries P σ) {ts : List Token} (h : ∀ t ∈ ts, P t ∧ N t) :
    L.Params L.plain ts (ts.map σ) := by
  refine List.forall₂_map_right_iff.mpr (List.forall₂_same.mpr fun t ht => ?_)
  exact hσ.names (h t ht).1

end Carries
end Likeness

mutual

theorem Expr.alike_map (hσ : L.Carries P σ) {Γ : List L.Label} (hΓ : L.AllPlain Γ) :
    (e : ResolvedExpr) → e.Words P N → Expr.Alike L Γ e (e.map σ id)
  | .literal _, _ => .literal
  | .grouping e, h => .grouping (e.alike_map hσ hΓ h)
  | .unary _ e, h => .unary (hσ.tokens _ h.1) (e.alike_map hσ hΓ h.2)
  | .binary a _ b, h =>
    .binary (a.alike_map hσ hΓ h.1) (hσ.tokens _ h.2.1) (b.alike_map hσ hΓ h.2.2)
  | .logical a _ b, h =>
    .logical (a.alike_map hσ hΓ h.1) (hσ.tokens _ h.2.1) (b.alike_map hσ hΓ h.2.2)
  | .variable _ d, h => .variable (hσ.refers hΓ d h)
  | .assign _ none e d, h => .assign (hσ.refers hΓ d h.1) (e.alike_map hσ hΓ h.2.2)
  | .assign _ (some _) e d, h =>
    .compound (hσ.refers hΓ d h.1) (hσ.tokens _ (h.2.1 _ rfl)) (e.alike_map hσ hΓ h.2.2)
  | .call f _ es, h =>
    .call (f.alike_map hσ hΓ h.1) (hσ.tokens _ h.2.1) (Expr.allAlike_map hσ hΓ es h.2.2)
  | .get o _, h => .get (o.alike_map hσ hΓ h.1) (hσ.tokens _ h.2)
  | .set o _ none e, h =>
    .set (o.alike_map hσ hΓ h.1) (hσ.tokens _ h.2.1) (e.alike_map hσ hΓ h.2.2.2)
  | .set o _ (some _) e, h =>
    .compoundSet (o.alike_map hσ hΓ h.1) (hσ.tokens _ h.2.1) (hσ.tokens _ (h.2.2.1 _ rfl))
      (e.alike_map hσ hΓ h.2.2.2)
  | .this _ d, h => .this (hσ.refers hΓ d h)
  | .function none _ body, h =>
    .function (hσ.params h.2.1) (hσ.fits _ _ _) (Stmt.allAlike_map hσ hΓ.cons body h.2.2)
  | .function (some _) _ body, h =>
    .namedFunction (hσ.lexeme (h.1 _ rfl).1) (hσ.params h.2.1) (hσ.fits _ _ _)
      (Stmt.allAlike_map hσ hΓ.cons.cons body h.2.2)

theorem Expr.allAlike_map (hσ : L.Carries P σ) {Γ : List L.Label} (hΓ : L.AllPlain Γ) :
    (es : List ResolvedExpr) → Expr.AllWords P N es → Expr.AllAlike L Γ es (Expr.mapAll σ id es)
  | [], _ => .nil
  | e :: es, h => .cons (e.alike_map hσ hΓ h.1) (Expr.allAlike_map hσ hΓ es h.2)

theorem Stmt.alike_map (hσ : L.Carries P σ) {Γ : List L.Label} (hΓ : L.AllPlain Γ) :
    (s : ResolvedStmt) → s.Words P N → Stmt.Alike L Γ s (s.map σ id)
  | .expression e, h => .expression (e.alike_map hσ hΓ h)
  | .print e, h => .print (e.alike_map hσ hΓ h)
  | .varDecl _ none, h => .varDecl (hσ.declares hΓ h.1)
  | .varDecl _ (some e), h => .varDeclWith (hσ.declares hΓ h.1.1) (e.alike_map hσ hΓ h.2)
  | .block body, h => .block (Stmt.allAlike_map hσ hΓ.cons body h)
  | .ifElse c yes none, h => .ifElse (c.alike_map hσ hΓ h.1) (yes.alike_map hσ hΓ h.2)
  | .ifElse c yes (some no), h =>
    .ifElseBoth (c.alike_map hσ hΓ h.1) (yes.alike_map hσ hΓ h.2.1) (no.alike_map hσ hΓ h.2.2)
  | .loop c body none, h => .loop (c.alike_map hσ hΓ h.1) (body.alike_map hσ hΓ h.2)
  | .loop c body (some n), h =>
    .loopWith (c.alike_map hσ hΓ h.1) (body.alike_map hσ hΓ h.2.1) (n.alike_map hσ hΓ h.2.2)
  | .breakLoop _, _ => .breakLoop
  | .continueLoop _, _ => .continueLoop
  | .returnFrom _ none, _ => .returnNothing
  | .returnFrom _ (some e), h => .returnValue (e.alike_map hσ hΓ h.2)
  | .functionDecl _ _ body, h =>
    .functionDecl (hσ.declares hΓ h.1.1) (hσ.lexeme h.1.1) (hσ.params h.2.1) (hσ.fits _ _ _)
      (Stmt.allAlike_map hσ hΓ.cons body h.2.2)
  | .classDecl _ ms, h =>
    .classDecl (hσ.declares hΓ h.1.1) (hσ.lexeme h.1.1) (Method.allAlike_map hσ hΓ ms h.2)

theorem Stmt.allAlike_map (hσ : L.Carries P σ) {Γ : List L.Label} (hΓ : L.AllPlain Γ) :
    (ss : List ResolvedStmt) → Stmt.AllWords P N ss → Stmt.AllAlike L Γ ss (Stmt.mapAll σ id ss)
  | [], _ => .nil
  | s :: ss, h => .cons (s.alike_map hσ hΓ h.1) (Stmt.allAlike_map hσ hΓ ss h.2)

theorem Method.allAlike_map (hσ : L.Carries P σ) {Γ : List L.Label} (hΓ : L.AllPlain Γ) :
    (ms : List ResolvedMethod) → Method.AllWords P N ms →
      Method.AllAlike L Γ ms (Method.mapAll σ id ms)
  | [], _ => .nil
  | .mk _ _ body :: ms, h =>
    .cons (hσ.lexeme h.1.1.1) (hσ.params h.1.2.1) (hσ.fits _ _ _)
      (Stmt.allAlike_map hσ hΓ.cons.cons body h.1.2.2) (Method.allAlike_map hσ hΓ ms h.2)

end

theorem Stmt.allAlike_self (hσ : L.Carries P id) {Γ : List L.Label} (hΓ : L.AllPlain Γ)
    (ss : List ResolvedStmt) (h : Stmt.AllWords P N ss) : Stmt.AllAlike L Γ ss ss := by
  have halike := Stmt.allAlike_map hσ hΓ ss h
  rwa [Stmt.mapAll_id] at halike

end LoxScript
