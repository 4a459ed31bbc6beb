import LoxScript.Proofs.Binding
import LoxScript.Proofs.Passage
import LoxScript.Proofs.Rewalk
import LoxScript.Proofs.Words

/-!
Renaming a local variable.

The variable is given by the scope that declares it and its name there. Its declaration gets the new
name, and so do the references that the marks of the program lead to that scope with that name; all
other words stay. If no word of the program is the new name, the program with the variable renamed
is like the program itself.
-/
namespace LoxScript

/-- A new name for a variable. The scope of the variable is a body of the node at a path, by its
number among the bodies of that node: only a class has more than one. -/
structure Renaming where
  path : Path
  number : Nat
  old : String
  new : String

namespace Renaming
variable (r : Renaming)

/-- Whether a body of a node is the scope of the variable. -/
def isScope (p : Path) (number : Nat) : Bool := p = r.path && number = r.number

/-- A name that is looked up in a scope, which may be that of the variable. -/
def name (inScope : Bool) (t : Token) : Token :=
  if inScope && t.lexeme = r.old then { t with lexeme := r.new } else t

/-- The name of a reference with a mark, where the scopes around it are the variable's or not. -/
def reference (Γ : List Bool) (mark : Option Nat) (t : Token) : Token :=
  r.name ((mark.bind (Γ[·]?)).getD false) t

end Renaming

section Rename
variable (r : Renaming)

mutual

def Expr.rename (p : Path) (Γ : List Bool) : ResolvedExpr → ResolvedExpr
  | .literal value => .literal value
  | .grouping e => .grouping (e.rename (0 :: p) Γ)
  | .unary t e => .unary t (e.rename (0 :: p) Γ)
  | .binary a t b => .binary (a.rename (0 :: p) Γ) t (b.rename (1 :: p) Γ)
  | .logical a t b => .logical (a.rename (0 :: p) Γ) t (b.rename (1 :: p) Γ)
  | .variable t mark => .variable (r.reference Γ mark t) mark
  | .assign t operator e mark =>
    .assign (r.reference Γ mark t) operator (e.rename (0 :: p) Γ) mark
  | .call f t es => .call (f.rename (0 :: p) Γ) t (Expr.renameAll p 1 Γ es)
  | .get o t => .get (o.rename (0 :: p) Γ) t
  | .set o t operator e => .set (o.rename (0 :: p) Γ) t operator (e.rename (1 :: p) Γ)
  | .this t mark => .this t mark
  | .function none params body =>
    let inner := r.isScope p 0
    .function none (params.map (r.name inner)) (Stmt.renameAll p 0 (inner :: Γ) body)
  | .function (some t) params body =>
    let inner := r.isScope p 0
    .function (some t) (params.map (r.name inner)) (Stmt.renameAll p 0 (inner :: false :: Γ) body)

/-- Expressions side by side, the first of them being child `i`. -/
def Expr.renameAll (p : Path) (i : Nat) (Γ : List Bool) : List ResolvedExpr → List ResolvedExpr
  | [] => []
  | e :: es => e.rename (i :: p) Γ :: Expr.renameAll p (i + 1) Γ es

def Stmt.rename (p : Path) (Γ : List Bool) : ResolvedStmt → ResolvedStmt
  | .expression e => .expression (e.rename (0 :: p) Γ)
  | .print e => .print (e.rename (0 :: p) Γ)
  | .varDecl t none => .varDecl (r.reference Γ (some 0) t) none
  | .varDecl t (some e) => .varDecl (r.reference Γ (some 0) t) (some (e.rename (0 :: p) Γ))
  | .block body => .block (Stmt.renameAll p 0 (r.isScope p 0 :: Γ) body)
  | .ifElse c yes none => .ifElse (c.rename (0 :: p) Γ) (yes.rename (1 :: p) Γ) none
  | .ifElse c yes (some no) =>
    .ifElse (c.rename (0 :: p) Γ) (yes.rename (1 :: p) Γ) (some (no.rename (2 :: p) Γ))
  | .loop c body none => .loop (c.rename (0 :: p) Γ) (body.rename (1 :: p) Γ) none
  | .loop c body (some n) =>
    .loop (c.rename (0 :: p) Γ) (body.rename (1 :: p) Γ) (some (n.rename (2 :: p) Γ))
  | .breakLoop t => .breakLoop t
  | .continueLoop t => .continueLoop t
  | .returnFrom t none => .returnFrom t none
  | .returnFrom t (some e) => .returnFrom t (some (e.rename (0 :: p) Γ))
  | .functionDecl t params body =>
    let inner := r.isScope p 0
    .functionDecl t (params.map (r.name inner)) (Stmt.renameAll p 0 (inner :: Γ) body)
  | .classDecl t methods => .classDecl t (Method.renameAll p 0 Γ methods)

def Stmt.renameAll (p : Path) (i : Nat) (Γ : List Bool) : List ResolvedStmt → List ResolvedStmt
  | [] => []
  | s :: ss => s.rename (i :: p) Γ :: Stmt.renameAll p (i + 1) Γ ss

def Method.renameAll (p : Path) (i : Nat) (Γ : List Bool) :
    List ResolvedMethod → List ResolvedMethod
  | [] => []
  | .mk t params body :: ms =>
    let inner := r.isScope p i
    .mk t (params.map (r.name inner)) (Stmt.renameAll (i :: p) 0 (inner :: false :: Γ) body) ::
      Method.renameAll p (i + 1) Γ ms

end
end Rename

/-- A token without its text. -/
def Token.nameless (t : Token) : Token := { t with lexeme := "" }

section Nameless
variable {r : Renaming}

namespace Renaming

@[simp]
theorem nameless_name (inScope : Bool) (t : Token) : (r.name inScope t).nameless = t.nameless := by
  unfold name
  split <;> rfl

@[simp]
theorem nameless_reference (Γ : List Bool) (mark : Option Nat) (t : Token) :
    (r.reference Γ mark t).nameless = t.nameless := nameless_name _ t

end Renaming

/-! A renaming keeps the trees with their marks, and all of their tokens but the texts. -/

mutual

theorem Expr.nameless_rename : (e : ResolvedExpr) → (p : Path) → (Γ : List Bool) →
    (e.rename r p Γ).map Token.nameless id = e.map Token.nameless id
  | .literal _, _, _ => rfl
  | .grouping e, _, Γ => by simp [Expr.rename, Expr.map, e.nameless_rename _ Γ]
  | .unary _ e, _, Γ => by simp [Expr.rename, Expr.map, e.nameless_rename _ Γ]
  | .binary a _ b, _, Γ => by
    simp [Expr.rename, Expr.map, a.nameless_rename _ Γ, b.nameless_rename _ Γ]
  | .logical a _ b, _, Γ => by
    simp [Expr.rename, Expr.map, a.nameless_rename _ Γ, b.nameless_rename _ Γ]
  | .variable _ _, _, _ => by simp [Expr.rename, Expr.map]
  | .assign _ _ e _, _, Γ => by simp [Expr.rename, Expr.map, e.nameless_rename _ Γ]
  | .call f _ es, p, Γ => by
    simp [Expr.rename, Expr.map, f.nameless_rename _ Γ, Expr.nameless_renameAll es p 1 Γ]
  | .get o _, _, Γ => by simp [Expr.rename, Expr.map, o.nameless_rename _ Γ]
  | .set o _ _ e, _, Γ => by
    simp [Expr.rename, Expr.map, o.nameless_rename _ Γ, e.nameless_rename _ Γ]
  | .this _ _, _, _ => rfl
  | .function none _ body, p, Γ => by
    simp [Expr.rename, Expr.map, Stmt.nameless_renameAll body p 0 (r.isScope p 0 :: Γ),
      Function.comp_def]
  | .function (some _) _ body, p, Γ => by
    simp [Expr.rename, Expr.map, Stmt.nameless_renameAll body p 0 (r.isScope p 0 :: false :: Γ),
      Function.comp_def]

theorem Expr.nameless_renameAll : (es : List ResolvedExpr) → (p : Path) → (i : Nat) →
    (Γ : List Bool) →
    Expr.mapAll Token.nameless id (Expr.renameAll r p i Γ es) = Expr.mapAll Token.nameless id es
  | [], _, _, _ => rfl
  | e :: es, p, i, Γ => by
    simp [Expr.renameAll, Expr.mapAll, e.nameless_rename _ Γ, Expr.nameless_renameAll es p _ Γ]

theorem Stmt.nameless_rename : (s : ResolvedStmt) → (p : Path) → (Γ : List Bool) →
    (s.rename r p Γ).map Token.nameless id = s.map Token.nameless id
  | .expression e, _, Γ => by simp [Stmt.rename, Stmt.map, e.nameless_rename _ Γ]
  | .print e, _, Γ => by simp [Stmt.rename, Stmt.map, e.nameless_rename _ Γ]
  | .varDecl _ none, _, _ => by simp [Stmt.rename, Stmt.map]
  | .varDecl _ (some e), _, Γ => by simp [Stmt.rename, Stmt.map, e.nameless_rename _ Γ]
  | .block body, p, Γ => by
    simp [Stmt.rename, Stmt.map, Stmt.nameless_renameAll body p 0 (r.isScope p 0 :: Γ)]
  | .ifElse c yes none, _, Γ => by
    simp [Stmt.rename, Stmt.map, c.nameless_rename _ Γ, yes.nameless_rename _ Γ]
  | .ifElse c yes (some no), _, Γ => by
    simp [Stmt.rename, Stmt.map, c.nameless_rename _ Γ, yes.nameless_rename _ Γ,
      no.nameless_rename _ Γ]
  | .loop c body none, _, Γ => by
    simp [Stmt.rename, Stmt.map, c.nameless_rename _ Γ, body.nameless_rename _ Γ]
  | .loop c body (some n), _, Γ => by
    simp [Stmt.rename, Stmt.map, c.nameless_rename _ Γ, body.nameless_rename _ Γ,
      n.nameless_rename _ Γ]
  | .breakLoop _, _, _ => rfl
  | .continueLoop _, _, _ => rfl
  | .returnFrom _ none, _, _ => rfl
  | .returnFrom _ (some e), _, Γ => by simp [Stmt.rename, Stmt.map, e.nameless_rename _ Γ]
  | .functionDecl _ _ body, p, Γ => by
    simp [Stmt.rename, Stmt.map, Stmt.nameless_renameAll body p 0 (r.isScope p 0 :: Γ),
      Function.comp_def]
  | .classDecl _ methods, p, Γ => by
    simp [Stmt.rename, Stmt.map, Method.nameless_renameAll methods p 0 Γ]

theorem Stmt.nameless_renameAll : (ss : List ResolvedStmt) → (p : Path) → (i : Nat) →
    (Γ : List Bool) →
    Stmt.mapAll Token.nameless id (Stmt.renameAll r p i Γ ss) = Stmt.mapAll Token.nameless id ss
  | [], _, _, _ => rfl
  | s :: ss, p, i, Γ => by
    simp [Stmt.renameAll, Stmt.mapAll, s.nameless_rename _ Γ, Stmt.nameless_renameAll ss p _ Γ]

theorem Method.nameless_renameAll : (ms : List ResolvedMethod) → (p : Path) → (i : Nat) →
    (Γ : List Bool) →
    Method.mapAll Token.nameless id (Method.renameAll r p i Γ ms) =
      Method.mapAll Token.nameless id ms
  | [], _, _, _ => rfl
  | .mk _ _ body :: ms, p, i, Γ => by
    simp [Method.renameAll, Method.mapAll, Method.nameless_renameAll ms p _ Γ,
      Stmt.nameless_renameAll body (i :: p) 0 (r.isScope p i :: false :: Γ), Function.comp_def]

end
end Nameless

/-- How the words of a program correspond to those after a renaming: the frames of the scope of the
variable have the new name for the old one. -/
def Renaming.likeness (r : Renaming) : Likeness where
  Label := Bool
  plain := false
  names inScope a b :=
    if inScope then (a = r.old ∧ b = r.new) ∨ (a = b ∧ a ≠ r.old ∧ a ≠ r.new) else a = b
  tokens := Eq
  fits _ _ _ := True
  names_plain _ _ := .rfl
  names_unique {l a b c d} := by cases l <;> grind
  kind_eq h := Likeness.kept_kind h
  lexeme_eq h := Likeness.kept_lexeme h

/-- The name that a statement binds to a function or a class. -/
def Stmt.defines? {ρ : Type} : Stmt ρ → Option Token
  | .functionDecl t _ _ => some t
  | .classDecl t _ => some t
  | _ => none

theorem Stmt.defines?_eq_none {ρ : Type} {s : Stmt ρ} (h : s.declares = []) : s.defines? = none := by
  cases s with
  | functionDecl t params body => cases h
  | classDecl t methods => cases h
  | _ => rfl

namespace Spot

section
variable {h : Spot → Prop} {x y z w : Spot} {rest : List Spot}

theorem Throughout.first (hx : x.Throughout h) (hp : x.parts = y :: rest) : y.Throughout h :=
  hx.part (by simp [hp])

theorem Throughout.second (hx : x.Throughout h) (hp : x.parts = y :: z :: rest) :
    z.Throughout h := hx.part (by simp [hp])

theorem Throughout.third (hx : x.Throughout h) (hp : x.parts = y :: z :: w :: rest) :
    w.Throughout h := hx.part (by simp [hp])

end

/-- The parameters and statements of the bodies that a node opens. -/
def opened (x : Spot) : List (List Token × List ResolvedStmt) :=
  match x.node with
  | .expr (.function _ params body) => [(params, body)]
  | .stmt (.block body) => [([], body)]
  | .stmt (.functionDecl _ params body) => [(params, body)]
  | .stmt (.classDecl _ methods) => methods.map fun m => (m.params, m.body)
  | _ => []

end Spot

namespace Renaming

/-- No function or class has the name of the variable. -/
def Clear (r : Renaming) (body : List ResolvedStmt) : Prop :=
  ∀ s ∈ body, ∀ t ∈ s.defines?, t.lexeme ≠ r.old

/-- What a renaming needs of a spot: no word is the new name, and in the scope of the variable no
function or class has its name. -/
structure Suits (r : Renaming) (x : Spot) : Prop where
  shaped : x.node.Shaped
  words : x.node.Words (·.lexeme ≠ r.new) (·.kind = .identifier)
  clear : ∀ i params body, x.opened[i]? = some (params, body) → r.isScope x.path i → r.Clear body

/-- Neither name is that of a receiver. -/
structure Proper (r : Renaming) : Prop where
  old : r.old ≠ receiverName
  new : r.new ≠ receiverName

variable {r : Renaming} {Γ : List Bool} {t : Token}

theorem names_name (l : Bool) (ht : t.lexeme ≠ r.new) :
    r.likeness.names l t.lexeme (r.name l t).lexeme := by
  cases l with
  | false => rfl
  | true =>
    by_cases hold : t.lexeme = r.old
    · simp [likeness, name, hold]
    · simp [likeness, name, hold, ht]

theorem names_self {l : Bool} (hold : l → t.lexeme ≠ r.old) (hnew : t.lexeme ≠ r.new) :
    r.likeness.names l t.lexeme t.lexeme := by
  cases l with
  | false => rfl
  | true => exact .inr ⟨rfl, hold rfl, hnew⟩

theorem refers_reference (mark : Option Nat) (ht : t.lexeme ≠ r.new) :
    r.likeness.Refers Γ mark t (r.reference Γ mark t) := by
  cases mark with
  | none => exact (rfl : t = t)
  | some d =>
    intro (l : Bool) (hl : Γ[d]? = some l)
    have hlabel : ((some d).bind (Γ[·]?)).getD false = l := by
      rw [Option.bind_some, hl]
      rfl
    rw [reference, hlabel]
    exact names_name l ht

theorem declares_reference (ht : t.lexeme ≠ r.new) :
    r.likeness.Declares Γ t (r.reference Γ (some 0) t) := by
  intro (l : Bool) (hl : Γ.head? = some l)
  rw [List.head?_eq_getElem?] at hl
  exact refers_reference (some 0) ht l hl

theorem declares_self (hold : Γ.head? = some true → t.lexeme ≠ r.old) (hnew : t.lexeme ≠ r.new) :
    r.likeness.Declares Γ t t := by
  intro (l : Bool) (hl : Γ.head? = some l)
  apply names_self _ hnew
  rintro rfl
  exact hold hl

theorem refers_receiver (hr : r.Proper) (mark : Option Nat) (ht : t.lexeme = receiverName) :
    r.likeness.Refers Γ mark t t := by
  cases mark with
  | none => exact (rfl : t = t)
  | some d =>
    intro l _
    apply names_self
    · intro _
      rw [ht]
      exact hr.old.symm
    · rw [ht]
      exact hr.new.symm

theorem params_name (l : Bool) {N : Token → Prop} {ts : List Token}
    (h : ∀ t ∈ ts, t.lexeme ≠ r.new ∧ N t) : r.likeness.Params l ts (ts.map (r.name l)) := by
  refine List.forall₂_map_right_iff.mpr (List.forall₂_same.mpr fun t ht => ?_)
  exact names_name l (h t ht).1

theorem Suits.inside {x : Spot} (h : r.Suits x) {i : Nat} {params : List Token}
    {body : List ResolvedStmt} (hx : x.opened[i]? = some (params, body)) (Γ : List Bool) :
    (r.isScope x.path i :: Γ).head? = some true → r.Clear body := by
  rintro htrue
  exact h.clear i params body hx (Option.some.inj htrue)

end Renaming

section Alike
variable {r : Renaming}

open Renaming

mutual

theorem Expr.rename_alike (hr : r.Proper) : (e : ResolvedExpr) → ∀ {p : Path} {Δ : Context},
    Spot.Throughout r.Suits ⟨p, Δ, .expr e⟩ → ∀ Γ, Expr.Alike r.likeness Γ e (e.rename r p Γ)
  | .literal _, _, _, _, _ => .literal
  | .grouping e, _, _, h, Γ => .grouping (e.rename_alike hr (h.first rfl) Γ)
  | .unary _ e, _, _, h, Γ => .unary rfl (e.rename_alike hr (h.first rfl) Γ)
  | .binary a _ b, _, _, h, Γ =>
    .binary (a.rename_alike hr (h.first rfl) Γ) rfl (b.rename_alike hr (h.second rfl) Γ)
  | .logical a _ b, _, _, h, Γ =>
    .logical (a.rename_alike hr (h.first rfl) Γ) rfl (b.rename_alike hr (h.second rfl) Γ)
  | .variable _ mark, _, _, h, _ => .variable (refers_reference mark h.here.words)
  | .assign _ none e mark, _, _, h, Γ =>
    .assign (refers_reference mark h.here.words.1)
      (e.rename_alike hr (h.first rfl) Γ)
  | .assign _ (some _) e mark, _, _, h, Γ =>
    .compound (refers_reference mark h.here.words.1) rfl
      (e.rename_alike hr (h.first rfl) Γ)
  | .call f _ es, _, _, h, Γ =>
    .call (f.rename_alike hr (h.first rfl) Γ) rfl
      (Expr.renameAll_alike hr es (fun _ hy => h.part (List.mem_cons_of_mem _ hy)) Γ)
  | .get o _, _, _, h, Γ => .get (o.rename_alike hr (h.first rfl) Γ) rfl
  | .set o _ none e, _, _, h, Γ =>
    .set (o.rename_alike hr (h.first rfl) Γ) rfl (e.rename_alike hr (h.second rfl) Γ)
  | .set o _ (some _) e, _, _, h, Γ =>
    .compoundSet (o.rename_alike hr (h.first rfl) Γ) rfl rfl (e.rename_alike hr (h.second rfl) Γ)
  | .this _ mark, _, _, h, _ => .this (refers_receiver hr mark h.here.shaped)
  | .function none _ body, _, _, h, Γ =>
    .function (params_name _ h.here.words.2.1) trivial
      (Stmt.renameAll_alike hr body (h.body (List.mem_singleton_self _)) _ (h.here.inside rfl Γ))
  | .function (some _) _ body, _, _, h, _ =>
    .namedFunction rfl (params_name _ h.here.words.2.1) trivial
      (Stmt.renameAll_alike hr body (h.body (List.mem_singleton_self _)) _ (h.here.inside rfl _))

theorem Expr.renameAll_alike (hr : r.Proper) : (es : List ResolvedExpr) →
    ∀ {p : Path} {i : Nat} {Δ : Context}, (∀ y ∈ Spot.exprs p i Δ es, y.Throughout r.Suits) →
      ∀ Γ, Expr.AllAlike r.likeness Γ es (Expr.renameAll r p i Γ es)
  | [], _, _, _, _, _ => .nil
  | e :: es, _, _, _, h, Γ =>
    .cons (e.rename_alike hr (h _ List.mem_cons_self) Γ)
      (Expr.renameAll_alike hr es (fun _ hy => h _ (List.mem_cons_of_mem _ hy)) Γ)

theorem Stmt.rename_alike (hr : r.Proper) : (s : ResolvedStmt) → ∀ {p : Path} {Δ : Context},
    Spot.Throughout r.Suits ⟨p, Δ, .stmt s⟩ → ∀ Γ,
      (Γ.head? = some true → ∀ t ∈ s.defines?, t.lexeme ≠ r.old) →
      Stmt.Alike r.likeness Γ s (s.rename r p Γ)
  | .expression e, _, _, h, Γ, _ => .expression (e.rename_alike hr (h.first rfl) Γ)
  | .print e, _, _, h, Γ, _ => .print (e.rename_alike hr (h.first rfl) Γ)
  | .varDecl _ none, _, _, h, _, _ => .varDecl (declares_reference h.here.words.1)
  | .varDecl _ (some e), _, _, h, Γ, _ =>
    .varDeclWith (declares_reference h.here.words.1.1)
      (e.rename_alike hr (h.first rfl) Γ)
  | .block body, _, _, h, Γ, _ =>
    .block (Stmt.renameAll_alike hr body (h.body (List.mem_singleton_self _)) _ (h.here.inside rfl Γ))
  | .ifElse c yes none, _, _, h, Γ, _ => by
    -- A branch binds no name.
    have hyes : yes.defines? = none := Stmt.defines?_eq_none h.here.shaped.1
    exact .ifElse (c.rename_alike hr (h.first rfl) Γ)
      (yes.rename_alike hr (h.second rfl) Γ (by simp [hyes]))
  | .ifElse c yes (some no), _, _, h, Γ, _ => by
    have hyes : yes.defines? = none := Stmt.defines?_eq_none h.here.shaped.1
    have hno : no.defines? = none := Stmt.defines?_eq_none (h.here.shaped.2 no rfl)
    exact .ifElseBoth (c.rename_alike hr (h.first rfl) Γ)
      (yes.rename_alike hr (h.second rfl) Γ (by simp [hyes]))
      (no.rename_alike hr (h.third rfl) Γ (by simp [hno]))
  | .loop c body none, _, _, h, Γ, _ => by
    have hbody : body.defines? = none := Stmt.defines?_eq_none h.here.shaped
    exact .loop (c.rename_alike hr (h.first rfl) Γ)
      (body.rename_alike hr (h.second rfl) Γ (by simp [hbody]))
  | .loop c body (some n), _, _, h, Γ, _ => by
    have hbody : body.defines? = none := Stmt.defines?_eq_none h.here.shaped
    exact .loopWith (c.rename_alike hr (h.first rfl) Γ)
      (body.rename_alike hr (h.second rfl) Γ (by simp [hbody]))
      (n.rename_alike hr (h.third rfl) Γ)
  | .breakLoop _, _, _, _, _, _ => .breakLoop
  | .continueLoop _, _, _, _, _, _ => .continueLoop
  | .returnFrom _ none, _, _, _, _, _ => .returnNothing
  | .returnFrom _ (some e), _, _, h, Γ, _ =>
    .returnValue (e.rename_alike hr (h.first rfl) Γ)
  | .functionDecl t _ body, _, _, h, Γ, hclear =>
    .functionDecl (declares_self (fun htrue => hclear htrue t rfl) h.here.words.1.1) rfl
      (params_name _ h.here.words.2.1) trivial
      (Stmt.renameAll_alike hr body (h.body (List.mem_singleton_self _)) _ (h.here.inside rfl Γ))
  | .classDecl t methods, p, Δ, h, Γ, hclear => by
    have hmethods : ∀ y ∈ Spot.methods p 0 (Δ.set t.lexeme true) methods, y.Throughout r.Suits := by
      intro y hy
      apply h.child
      rwa [Spot.children_classDecl]
    refine .classDecl (declares_self (fun htrue => hclear htrue t rfl) h.here.words.1.1) rfl
      (Method.renameAll_alike hr methods hmethods h.here.words.2 (fun j m hm => ?_) Γ)
    have hopened : Spot.opened ⟨p, Δ, .stmt (.classDecl t methods)⟩ =
        methods.map fun m => (m.params, m.body) := rfl
    rw [Nat.zero_add]
    refine h.here.clear j m.params m.body ?_
    rw [hopened, List.getElem?_map, hm]
    rfl

theorem Stmt.renameAll_alike (hr : r.Proper) : (ss : List ResolvedStmt) →
    ∀ {p : Path} {i : Nat} {Δ : Context}, (∀ y ∈ Spot.stmts p i Δ ss, y.Throughout r.Suits) →
      ∀ Γ, (Γ.head? = some true → r.Clear ss) →
      Stmt.AllAlike r.likeness Γ ss (Stmt.renameAll r p i Γ ss)
  | [], _, _, _, _, _, _ => .nil
  | s :: ss, _, _, _, h, Γ, hclear =>
    .cons
      (s.rename_alike hr (h _ List.mem_cons_self) Γ fun htrue => hclear htrue s List.mem_cons_self)
      (Stmt.renameAll_alike hr ss (fun _ hy => h _ (List.mem_cons_of_mem _ hy)) Γ
        fun htrue s hs => hclear htrue s (List.mem_cons_of_mem _ hs))

theorem Method.renameAll_alike (hr : r.Proper) : (ms : List ResolvedMethod) →
    ∀ {p : Path} {i : Nat} {Δ : Context}, (∀ y ∈ Spot.methods p i Δ ms, y.Throughout r.Suits) →
      Method.AllWords (·.lexeme ≠ r.new) (·.kind = .identifier) ms →
      (∀ j m, ms[j]? = some m → r.isScope p (i + j) → r.Clear m.body) →
      ∀ Γ, Method.AllAlike r.likeness Γ ms (Method.renameAll r p i Γ ms)
  | [], _, _, _, _, _, _, _ => .nil
  | .mk t params body :: ms, p, i, _, h, hwords, hclear, Γ => by
    refine .cons rfl (params_name _ hwords.1.2.1) trivial
      (Stmt.renameAll_alike hr body (fun y hy => h y (List.mem_append_left _ hy)) _ ?_)
      (Method.renameAll_alike hr ms (fun y hy => h y (List.mem_append_right _ hy)) hwords.2 ?_ Γ)
    · intro htrue
      exact hclear 0 (.mk t params body) rfl (Option.some.inj htrue)
    · intro j m hm
      rw [Nat.add_assoc, Nat.add_comm 1 j]
      exact hclear (j + 1) m hm

end
end Alike
end LoxScript
