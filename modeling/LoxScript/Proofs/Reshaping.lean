import LoxScript.Proofs.PaddedWalk
import LoxScript.Proofs.Signals
import LoxScript.Proofs.Spelling

/-!
Programs of which some statements are reshaped.

Any statement that is no declaration can be put into a block of its own. And if the body of a loop
has no `continue` of the loop, the increment can be a statement at the end of the body, which
becomes a block. What a program that is accepted resolves to is padded by what such a program
resolves to.
-/
namespace LoxScript

open Resolve Scope

/-- The places of the statements that get blocks of their own, and of the loops whose increments go
to the ends of their bodies. -/
structure Reshaping where
  boxed : Path → Bool
  expanded : Path → Bool

/-- Where something is reshaped, scopes may be added. -/
structure Reshaping.Fits (r : Reshaping) (P : Padding) : Prop where
  boxed : ∀ {p}, r.boxed p → P.roomy
  expanded : ∀ {p}, r.expanded p → P.roomy

/-- A statement, or the block of it alone. -/
def Stmt.boxIf (boxed : Bool) (s : RawStmt) : RawStmt := if boxed then .block [s] else s

/-- A loop whose increment is in its place or at the end of the body. -/
def Stmt.expandIf (expanded : Bool) (c : RawExpr) (body : RawStmt) (n : RawExpr) : RawStmt :=
  if expanded then .loop c (.block [body, .expression n]) none else .loop c body (some n)

section Reshaped
variable (r : Reshaping)

mutual

/-- An expression of which some statements are reshaped. -/
def Expr.reshaped (p : Path) : RawExpr → RawExpr
  | .literal value => .literal value
  | .grouping e => .grouping (e.reshaped (0 :: p))
  | .unary t e => .unary t (e.reshaped (0 :: p))
  | .binary a t b => .binary (a.reshaped (0 :: p)) t (b.reshaped (1 :: p))
  | .logical a t b => .logical (a.reshaped (0 :: p)) t (b.reshaped (1 :: p))
  | .variable t mark => .variable t mark
  | .assign t operator e mark => .assign t operator (e.reshaped (0 :: p)) mark
  | .call f t es => .call (f.reshaped (0 :: p)) t (Expr.reshapedAll p 1 es)
  | .get o t => .get (o.reshaped (0 :: p)) t
  | .set o t operator e => .set (o.reshaped (0 :: p)) t operator (e.reshaped (1 :: p))
  | .this t mark => .this t mark
  | .function name params body => .function name params (Stmt.reshapedAll p 0 body)

/-- Expressions side by side, the first of them being child `i`. -/
def Expr.reshapedAll (p : Path) (i : Nat) : List RawExpr → List RawExpr
  | [] => []
  | e :: es => e.reshaped (i :: p) :: Expr.reshapedAll p (i + 1) es

/-- A statement that is reshaped as its place says, and of which some statements inside it are. A
declaration gets no block of its own, and an increment stays where it is if the body of the loop has
a `continue` of that loop. -/
def Stmt.reshaped (p : Path) : RawStmt → RawStmt
  | .expression e => .boxIf (r.boxed p) (.expression (e.reshaped (0 :: p)))
  | .print e => .boxIf (r.boxed p) (.print (e.reshaped (0 :: p)))
  | .varDecl t none => .varDecl t none
  | .varDecl t (some e) => .varDecl t (some (e.reshaped (0 :: p)))
  | .block body => .boxIf (r.boxed p) (.block (Stmt.reshapedAll p 0 body))
  | .ifElse c yes none =>
    .boxIf (r.boxed p) (.ifElse (c.reshaped (0 :: p)) (yes.reshaped (1 :: p)) none)
  | .ifElse c yes (some no) =>
    .boxIf (r.boxed p) (.ifElse (c.reshaped (0 :: p)) (yes.reshaped (1 :: p)) (some (no.reshaped (2 :: p))))
  | .loop c body none =>
    .boxIf (r.boxed p) (.loop (c.reshaped (0 :: p)) (body.reshaped (1 :: p)) none)
  | .loop c body (some n) =>
    .boxIf (r.boxed p) (.expandIf (r.expanded p && !body.continues) (c.reshaped (0 :: p))
      (body.reshaped (1 :: p)) (n.reshaped (2 :: p)))
  | .breakLoop t => .boxIf (r.boxed p) (.breakLoop t)
  | .continueLoop t => .boxIf (r.boxed p) (.continueLoop t)
  | .returnFrom t none => .boxIf (r.boxed p) (.returnFrom t none)
  | .returnFrom t (some e) => .boxIf (r.boxed p) (.returnFrom t (some (e.reshaped (0 :: p))))
  | .functionDecl t params body => .functionDecl t params (Stmt.reshapedAll p 0 body)
  | .classDecl t methods => .classDecl t (Method.reshapedAll p 0 methods)

def Stmt.reshapedAll (p : Path) (i : Nat) : List RawStmt → List RawStmt
  | [] => []
  | s :: ss => s.reshaped (i :: p) :: Stmt.reshapedAll p (i + 1) ss

def Method.reshapedAll (p : Path) (i : Nat) : List RawMethod → List RawMethod
  | [] => []
  | .mk t params body :: ms =>
    .mk t params (Stmt.reshapedAll (i :: p) 0 body) :: Method.reshapedAll p (i + 1) ms

end

end Reshaped

/-! ### Where nothing is reshaped -/

/-- No statement gets a block of its own, and all increments stay where they are. -/
def Reshaping.never : Reshaping := ⟨fun _ => false, fun _ => false⟩

mutual

theorem Expr.reshaped_never : (e : RawExpr) → (p : Path) → e.reshaped .never p = e
  | .literal _, _ | .variable _ _, _ | .this _ _, _ => rfl
  | .grouping e, _ => by rw [Expr.reshaped, e.reshaped_never]
  | .unary _ e, _ => by rw [Expr.reshaped, e.reshaped_never]
  | .binary a _ b, _ => by rw [Expr.reshaped, a.reshaped_never, b.reshaped_never]
  | .logical a _ b, _ => by rw [Expr.reshaped, a.reshaped_never, b.reshaped_never]
  | .assign _ _ e _, _ => by rw [Expr.reshaped, e.reshaped_never]
  | .call f _ es, _ => by rw [Expr.reshaped, f.reshaped_never, Expr.reshapedAll_never es]
  | .get o _, _ => by rw [Expr.reshaped, o.reshaped_never]
  | .set o _ _ e, _ => by rw [Expr.reshaped, o.reshaped_never, e.reshaped_never]
  | .function _ _ body, _ => by rw [Expr.reshaped, Stmt.reshapedAll_never body]

theorem Expr.reshapedAll_never : (es : List RawExpr) → (p : Path) → (i : Nat) →
    Expr.reshapedAll .never p i es = es
  | [], _, _ => rfl
  | e :: es, _, _ => by rw [Expr.reshapedAll, e.reshaped_never, Expr.reshapedAll_never es]

theorem Stmt.reshaped_never : (s : RawStmt) → (p : Path) → s.reshaped .never p = s
  | .varDecl _ none, _ | .breakLoop _, _ | .continueLoop _, _ | .returnFrom _ none, _ => rfl
  | .expression e, _ => by rw [Stmt.reshaped, e.reshaped_never]; rfl
  | .print e, _ => by rw [Stmt.reshaped, e.reshaped_never]; rfl
  | .varDecl _ (some e), _ => by rw [Stmt.reshaped, e.reshaped_never]
  | .block body, _ => by rw [Stmt.reshaped, Stmt.reshapedAll_never body]; rfl
  | .ifElse c yes none, _ => by rw [Stmt.reshaped, c.reshaped_never, yes.reshaped_never]; rfl
  | .ifElse c yes (some no), _ => by
    rw [Stmt.reshaped, c.reshaped_never, yes.reshaped_never, no.reshaped_never]
    rfl
  | .loop c body none, _ => by rw [Stmt.reshaped, c.reshaped_never, body.reshaped_never]; rfl
  | .loop c body (some n), _ => by
    rw [Stmt.reshaped, c.reshaped_never, body.reshaped_never, n.reshaped_never]
    rfl
  | .returnFrom _ (some e), _ => by rw [Stmt.reshaped, e.reshaped_never]; rfl
  | .functionDecl _ _ body, _ => by rw [Stmt.reshaped, Stmt.reshapedAll_never body]
  | .classDecl _ methods, _ => by rw [Stmt.reshaped, Method.reshapedAll_never methods]

theorem Stmt.reshapedAll_never : (ss : List RawStmt) → (p : Path) → (i : Nat) →
    Stmt.reshapedAll .never p i ss = ss
  | [], _, _ => rfl
  | s :: ss, _, _ => by rw [Stmt.reshapedAll, s.reshaped_never, Stmt.reshapedAll_never ss]

theorem Method.reshapedAll_never : (ms : List RawMethod) → (p : Path) → (i : Nat) →
    Method.reshapedAll .never p i ms = ms
  | [], _, _ => rfl
  | .mk _ _ body :: ms, _, _ => by
    rw [Method.reshapedAll, Stmt.reshapedAll_never body, Method.reshapedAll_never ms]

end

/-! ### Trees -/

/-- The names of variables that a node refers to or declares. -/
def Node.names {ρ : Type} : Node ρ → List Token
  | .expr (.variable t _) => [t]
  | .expr (.assign t _ _ _) => [t]
  | .expr _ => []
  | .stmt s => s.declared?.toList

namespace Node.Every
variable {ρ : Type} {P : Node ρ → Prop} {n m k l : Node ρ} {rest : List (Node ρ)}

theorem mono {Q : Node ρ → Prop} (h : n.Every P) (hQ : ∀ {n}, P n → Q n) : n.Every Q := by
  induction h with
  | mk here inside ih => exact .mk (hQ here) ih

theorem first (h : n.Every P) (hn : n.children = m :: rest) : m.Every P := h.inside (by simp [hn])

theorem second (h : n.Every P) (hn : n.children = m :: k :: rest) : k.Every P :=
  h.inside (by simp [hn])

theorem third (h : n.Every P) (hn : n.children = m :: k :: l :: rest) : l.Every P :=
  h.inside (by simp [hn])

end Node.Every

/-- What is asked of the nodes of a program so that it can be padded. -/
structure Padding.Fits {ρ : Type} (P : Padding) (n : Node ρ) : Prop where
  shaped : n.Shaped
  known : ∀ t ∈ n.names, P.known t.lexeme

/-! Whether a statement has a `continue` of the loop around it does not change with its marks. -/

mutual

theorem Stmt.continues_map {ρ τ : Type} (σ : Token → Token) (g : ρ → τ) : (s : Stmt ρ) →
    (s.map σ g).continues = s.continues
  | .block body => Stmt.anyContinues_mapAll σ g body
  | .ifElse _ yes none => Stmt.continues_map σ g yes
  | .ifElse _ yes (some no) =>
    congrArg₂ (· || ·) (Stmt.continues_map σ g yes) (Stmt.continues_map σ g no)
  | .expression _ | .print _ | .varDecl _ none | .varDecl _ (some _) | .loop _ _ none
  | .loop _ _ (some _) | .breakLoop _ | .continueLoop _ | .returnFrom _ none
  | .returnFrom _ (some _) | .functionDecl _ _ _ | .classDecl _ _ => rfl

theorem Stmt.anyContinues_mapAll {ρ τ : Type} (σ : Token → Token) (g : ρ → τ) :
    (ss : List (Stmt ρ)) → Stmt.anyContinues (Stmt.mapAll σ g ss) = Stmt.anyContinues ss
  | [] => rfl
  | s :: ss => congrArg₂ (· || ·) (Stmt.continues_map σ g s) (Stmt.anyContinues_mapAll σ g ss)

end

theorem Stmt.continues_resolve (s : RawStmt) (w : Walk) :
    (s.resolve w).1.continues = s.continues := by
  have hraw := Stmt.continues_map id (fun _ => ()) (s.resolve w).1
  rwa [← Stmt.raw, Stmt.raw_resolve, eq_comm] at hraw

theorem Expr.loops_resolve (e : RawExpr) (w : Walk) : (e.resolve w).2.loops = w.loops :=
  (e.resolve_upright w).returns.loops

section Trees
variable {P : Padding} {r : Reshaping} {Γ : List Link} {w w' : Walk}

open Resolve.Pads

/-- A statement that may be put in a block of its own, if it is padded wherever it stands. -/
theorem Stmt.boxIf_pads {b : Bool} {s s' : RawStmt} (hroomy : b → P.roomy)
    (h : ∀ {Γ : List Link} {w w' : Walk}, Walk.Padded Γ w w' →
      Pads (Stmt.Padded P Γ) Γ w w' s.resolve s'.resolve) (hw : Walk.Padded Γ w w') :
    Pads (Stmt.Padded P Γ) Γ w w' s.resolve (Stmt.boxIf b s').resolve := by
  cases b with
  | false => exact h hw
  | true =>
    have hroom := inRoom hw (d := Stmt.resolveAll [s']) fun hw => by
      have hs := h hw
      have hlist : Pads (fun x ys => ∃ y, ys = [y] ∧ Stmt.Padded P (.extra :: Γ) x y) (.extra :: Γ)
          w { w' with scopes := [] :: w'.scopes } s.resolve (Stmt.resolveAll [s']) :=
        ⟨hs.walk, hs.clean, fun hfaults => ⟨_, rfl, hs.holds hfaults⟩⟩
      exact hlist
    refine ⟨hroom.walk, hroom.clean, fun hfaults => ?_⟩
    obtain ⟨y, hy, hpadded⟩ := hroom.holds hfaults
    have hblock : ((Stmt.boxIf true s').resolve w').1 =
        .block (Resolve.inScope [] (Stmt.resolveAll [s']) w').1 := rfl
    rw [hblock, hy]
    exact .boxed (hroomy rfl) hpadded

/-- A loop whose increment may be at the end of its body, if its parts are padded wherever they
stand. -/
theorem Stmt.expandIf_pads {b : Bool} {c c' n n' : RawExpr} {body body' : RawStmt}
    (hroomy : b → P.roomy) (hwhole : b → ¬ body.continues)
    (hc : ∀ {Γ : List Link} {w w' : Walk}, Walk.Padded Γ w w' →
      Pads (Expr.Padded P Γ) Γ w w' c.resolve c'.resolve)
    (hbody : ∀ {Γ : List Link} {w w' : Walk}, Walk.Padded Γ w w' →
      Pads (Stmt.Padded P Γ) Γ w w' body.resolve body'.resolve)
    (hn : ∀ {Γ : List Link} {w w' : Walk}, Walk.Padded Γ w w' →
      Pads (Expr.Padded P Γ) Γ w w' n.resolve n'.resolve) (hw : Walk.Padded Γ w w') :
    Pads (Stmt.Padded P Γ) Γ w w' (Stmt.loop c body (some n)).resolve
      (Stmt.expandIf b c' body' n').resolve := by
  cases b with
  | false =>
    exact .bind (hc hw) fun _ _ hw => .bind (inLoop hw hbody) fun _ _ hw =>
      .bind (hn hw) fun _ _ hw => .pure hw fun hn hbody hc => .loopWith hc hbody hn
  | true =>
    have hbody {Γ : List Link} {w w' : Walk} (hw : Walk.Padded Γ w w') :
        Pads (fun x y => Stmt.Padded P Γ x y ∧ ¬ x.continues) Γ w w' body.resolve body'.resolve :=
      { hbody hw with
        holds := fun hfaults => ⟨(hbody hw).holds hfaults, by
          rw [Stmt.continues_resolve]
          exact hwhole rfl⟩ }
    have hbehind : Pads (Stmt.Padded P Γ) Γ w w' (do
          let x ← c.resolve
          let y ← (do
            let a ← Resolve.inLoop body.resolve
            let b ← n.resolve
            return (a, b))
          return .loop x y.1 (some y.2)) (do
          let x ← c'.resolve
          let y ← Resolve.inLoop (Resolve.inScope [] do
            let a ← body'.resolve
            let b ← n'.resolve
            return (a, b))
          return .loop x (.block [y.1, .expression y.2]) none) :=
      .bind (hc hw) fun _ _ hw =>
        .bind (behind hw (Expr.loops_resolve n) (Expr.loops_resolve n') hbody hn) fun _ _ hw =>
          .pure hw fun ⟨⟨hbody, hwhole⟩, hn⟩ hc =>
            .expanded (hroomy rfl) hc (.cons hbody (.cons (.expression hn) .nil)) hwhole
    exact hbehind.congr rfl rfl

theorem Padding.Fits.declares {t : Token} {s : RawStmt} (h : P.Fits (.stmt s))
    (hs : s.declared? = some t) (hΓ : Γ.head? = some .both) : P.Declares Γ t :=
  ⟨hΓ, h.known t (by simp [Node.names, hs])⟩

mutual

theorem Expr.reshaped_pads (hfits : r.Fits P) : (e : RawExpr) → (p : Path) →
    (Node.expr e).Every P.Fits → ∀ {Γ : List Link} {w w' : Walk}, Walk.Padded Γ w w' →
      Pads (Expr.Padded P Γ) Γ w w' e.resolve (e.reshaped r p).resolve
  | .literal _, _, _, _, _, _, hw => .pure hw .literal
  | .grouping e, _, h, _, _, _, hw =>
    .bind (e.reshaped_pads hfits _ (h.first rfl) hw) fun _ _ hw => .pure hw .grouping
  | .unary _ e, _, h, _, _, _, hw =>
    .bind (e.reshaped_pads hfits _ (h.first rfl) hw) fun _ _ hw => .pure hw .unary
  | .binary a _ b, _, h, _, _, _, hw =>
    .bind (a.reshaped_pads hfits _ (h.first rfl) hw) fun _ _ hw =>
      .bind (b.reshaped_pads hfits _ (h.second rfl) hw) fun _ _ hw => .pure hw fun hb ha => .binary ha hb
  | .logical a _ b, _, h, _, _, _, hw =>
    .bind (a.reshaped_pads hfits _ (h.first rfl) hw) fun _ _ hw =>
      .bind (b.reshaped_pads hfits _ (h.second rfl) hw) fun _ _ hw =>
        .pure hw fun hb ha => .logical ha hb
  | .variable t _, _, h, _, _, _, hw =>
    check (q := fun w => isPending w.scopes t.lexeme) (r := fun w => isPending w.scopes t.lexeme) hw
      hw.scopes.pending fun hw =>
        .bind (named .variable (h.here.known t List.mem_cons_self) hw) fun _ _ hw =>
          .pure hw fun ⟨hname, hmark⟩ => hmark ▸ .variable hname
  | .assign t _ e _, _, h, _, _, _, hw =>
    .bind (e.reshaped_pads hfits _ (h.first rfl) hw) fun _ _ hw =>
      .bind (named .assign (h.here.known t List.mem_cons_self) hw) fun _ _ hw =>
        .pure hw fun ⟨hname, hmark⟩ he => hmark ▸ .assign hname he
  | .call f _ es, _, h, _, _, _, hw =>
    .bind (f.reshaped_pads hfits _ (h.first rfl) hw) fun _ _ hw =>
      .bind (Expr.reshapedAll_pads hfits es _ _ (fun _ hm => h.inside (List.mem_cons_of_mem _ hm)) hw)
        fun _ _ hw => .pure hw fun hes hf => .call hf hes
  | .get o _, _, h, _, _, _, hw =>
    .bind (o.reshaped_pads hfits _ (h.first rfl) hw) fun _ _ hw => .pure hw .get
  | .set o _ _ e, _, h, _, _, _, hw =>
    .bind (e.reshaped_pads hfits _ (h.second rfl) hw) fun _ _ hw =>
      .bind (o.reshaped_pads hfits _ (h.first rfl) hw) fun _ _ hw => .pure hw fun ho he => .set ho he
  | .this _ mark, _, _, _, _, _, hw => this P mark mark hw
  | .function none _ body, _, h, _, _, _, hw =>
    .bind (inFunction hw (Stmt.reshapedAll_pads hfits body _ _ (fun _ hm => h.inside hm) rfl))
      fun _ _ hw => .pure hw .function
  | .function (some _) _ body, _, h, _, _, _, hw =>
    .bind (inScope [] hw fun hw => .bind (declare hw rfl) fun _ _ hw => .bind (define hw rfl)
      fun _ _ hw => (inFunction hw
        (Stmt.reshapedAll_pads hfits body _ _ (fun _ hm => h.inside hm) rfl)).weaken
          fun hb _ _ => hb) fun _ _ hw => .pure hw .namedFunction

theorem Expr.reshapedAll_pads (hfits : r.Fits P) : (es : List RawExpr) →
    (p : Path) → (i : Nat) → (∀ m ∈ es.map Node.expr, m.Every P.Fits) →
      ∀ {Γ : List Link} {w w' : Walk}, Walk.Padded Γ w w' →
        Pads (Expr.AllPadded P Γ) Γ w w' (Expr.resolveAll es)
          (Expr.resolveAll (Expr.reshapedAll r p i es))
  | [], _, _, _, _, _, _, hw => .pure hw .nil
  | e :: es, _, _, h, _, _, _, hw => by
    obtain ⟨hhead, htail⟩ := List.forall_mem_cons.mp h
    exact .bind (e.reshaped_pads hfits _ hhead hw) fun _ _ hw =>
      .bind (Expr.reshapedAll_pads hfits es _ _ htail hw) fun _ _ hw => .pure hw fun hes he => .cons he hes

/-- A declaration stands in no scope that only the second walk has. -/
theorem Stmt.reshaped_pads (hfits : r.Fits P) : (s : RawStmt) → (p : Path) →
    (Node.stmt s).Every P.Fits → ∀ {Γ : List Link} {w w' : Walk},
      (s.declares = [] ∨ Γ.head? = some .both) → Walk.Padded Γ w w' →
      Pads (Stmt.Padded P Γ) Γ w w' s.resolve (s.reshaped r p).resolve
  | .expression e, _, h, _, _, _, _, hw => Stmt.boxIf_pads hfits.boxed (fun hw =>
    .bind (e.reshaped_pads hfits _ (h.first rfl) hw) fun _ _ hw => .pure hw .expression) hw
  | .print e, _, h, _, _, _, _, hw => Stmt.boxIf_pads hfits.boxed (fun hw =>
    .bind (e.reshaped_pads hfits _ (h.first rfl) hw) fun _ _ hw => .pure hw .print) hw
  | .varDecl t none, _, h, _, _, _, hplace, hw => by
    have hΓ := hplace.resolve_left (List.cons_ne_nil _ _)
    exact .bind (declare hw hΓ) fun _ _ hw => .bind (define hw hΓ) fun _ _ hw =>
      .pure hw fun _ _ => .varDecl (h.here.declares rfl hΓ)
  | .varDecl t (some e), _, h, _, _, _, hplace, hw => by
    have hΓ := hplace.resolve_left (List.cons_ne_nil _ _)
    exact .bind (declare hw hΓ) fun _ _ hw => .bind (e.reshaped_pads hfits _ (h.first rfl) hw)
      fun _ _ hw => .bind (define hw hΓ) fun _ _ hw =>
        .pure hw fun _ he _ => .varDeclWith (h.here.declares rfl hΓ) he
  | .block body, _, h, _, _, _, _, hw => Stmt.boxIf_pads hfits.boxed (fun hw =>
    .bind (inScope [] hw (Stmt.reshapedAll_pads hfits body _ _ (fun _ hm => h.inside hm) rfl))
      fun _ _ hw => .pure hw .block) hw
  | .ifElse c yes none, _, h, _, _, _, _, hw => Stmt.boxIf_pads hfits.boxed (fun hw =>
    .bind (c.reshaped_pads hfits _ (h.first rfl) hw) fun _ _ hw =>
      .bind (yes.reshaped_pads hfits _ (h.second rfl) (.inl h.here.shaped.1) hw) fun _ _ hw =>
        .pure hw fun hyes hc => .ifElse hc hyes) hw
  | .ifElse c yes (some no), _, h, _, _, _, _, hw => Stmt.boxIf_pads hfits.boxed (fun hw =>
    .bind (c.reshaped_pads hfits _ (h.first rfl) hw) fun _ _ hw =>
      .bind (yes.reshaped_pads hfits _ (h.second rfl) (.inl h.here.shaped.1) hw) fun _ _ hw =>
        .bind (no.reshaped_pads hfits _ (h.third rfl) (.inl (h.here.shaped.2 no rfl)) hw) fun _ _ hw =>
          .pure hw fun hno hyes hc => .ifElseBoth hc hyes hno) hw
  | .loop c body none, _, h, _, _, _, _, hw => Stmt.boxIf_pads hfits.boxed (fun hw =>
    .bind (c.reshaped_pads hfits _ (h.first rfl) hw) fun _ _ hw =>
      .bind (inLoop hw (body.reshaped_pads hfits _ (h.second rfl) (.inl h.here.shaped))) fun _ _ hw =>
        .pure hw fun hbody hc => .loop hc hbody) hw
  | .loop c body (some n), _, h, _, _, _, _, hw => Stmt.boxIf_pads hfits.boxed
    (Stmt.expandIf_pads (fun hb => hfits.expanded (Bool.and_eq_true_iff.mp hb).1)
      (fun hb => by simpa using (Bool.and_eq_true_iff.mp hb).2)
      (c.reshaped_pads hfits _ (h.first rfl))
      (body.reshaped_pads hfits _ (h.second rfl) (.inl h.here.shaped))
      (n.reshaped_pads hfits _ (h.third rfl))) hw
  | .breakLoop _, _, _, _, _, _, _, hw => Stmt.boxIf_pads hfits.boxed (fun hw =>
    check (q := (·.loops = 0)) (r := (·.loops = 0)) hw (fun h => Nat.le_zero.mp (h ▸ hw.loops)) fun hw =>
      .pure hw .breakLoop) hw
  | .continueLoop _, _, _, _, _, _, _, hw => Stmt.boxIf_pads hfits.boxed (fun hw =>
    check (q := (·.loops = 0)) (r := (·.loops = 0)) hw (fun h => Nat.le_zero.mp (h ▸ hw.loops)) fun hw =>
      .pure hw .continueLoop) hw
  | .returnFrom _ none, _, _, _, _, _, _, hw => Stmt.boxIf_pads hfits.boxed (fun hw =>
    check (q := (·.role = .topLevel)) (r := (·.role = .topLevel)) hw (by rw [hw.role]; exact id)
      fun hw => .pure hw .returnNothing) hw
  | .returnFrom _ (some e), _, h, _, _, _, _, hw => Stmt.boxIf_pads hfits.boxed (fun hw =>
    check (q := (·.role = .topLevel)) (r := (·.role = .topLevel)) hw (by rw [hw.role]; exact id)
      fun hw => check (q := (·.role = .initializer)) (r := (·.role = .initializer)) hw
        (by rw [hw.role]; exact id) fun hw =>
          .bind (e.reshaped_pads hfits _ (h.first rfl) hw) fun _ _ hw => .pure hw .returnValue) hw
  | .functionDecl t _ body, _, h, _, _, _, hplace, hw => by
    have hΓ := hplace.resolve_left (List.cons_ne_nil _ _)
    exact .bind (declare hw hΓ) fun _ _ hw => .bind (define hw hΓ) fun _ _ hw =>
      .bind (inFunction hw (Stmt.reshapedAll_pads hfits body _ _ (fun _ hm => h.inside hm) rfl))
        fun _ _ hw => .pure hw fun hbody _ _ => .functionDecl (h.here.declares rfl hΓ) hbody
  | .classDecl t methods, _, h, _, _, _, hplace, hw => by
    have hΓ := hplace.resolve_left (List.cons_ne_nil _ _)
    exact .bind (inClass hw hΓ (Method.reshapedAll_pads hfits methods _ _ (fun _ hm => h.inside hm)))
      fun _ _ hw => .pure hw fun hms => .classDecl (h.here.declares rfl hΓ) hms

theorem Stmt.reshapedAll_pads (hfits : r.Fits P) : (ss : List RawStmt) →
    (p : Path) → (i : Nat) → (∀ m ∈ ss.map Node.stmt, m.Every P.Fits) →
      ∀ {Γ : List Link}, Γ.head? = some .both → ∀ {w w' : Walk}, Walk.Padded Γ w w' →
        Pads (Stmt.AllPadded P Γ) Γ w w' (Stmt.resolveAll ss)
          (Stmt.resolveAll (Stmt.reshapedAll r p i ss))
  | [], _, _, _, _, _, _, _, hw => .pure hw .nil
  | s :: ss, _, _, h, _, hΓ, _, _, hw => by
    obtain ⟨hhead, htail⟩ := List.forall_mem_cons.mp h
    exact .bind (s.reshaped_pads hfits _ hhead (.inr hΓ) hw) fun _ _ hw =>
      .bind (Stmt.reshapedAll_pads hfits ss _ _ htail hΓ hw) fun _ _ hw =>
        .pure hw fun hss hs => .cons hs hss

theorem Method.reshapedAll_pads (hfits : r.Fits P) : (ms : List RawMethod) →
    (p : Path) → (i : Nat) → (∀ m ∈ ms.flatMap (fun m => m.body.map Node.stmt), m.Every P.Fits) →
      ∀ {Γ : List Link} {w w' : Walk}, Walk.Padded (.receiver :: Γ) w w' →
        Pads (Method.AllPadded P Γ) (.receiver :: Γ) w w' (Method.resolveAll ms)
          (Method.resolveAll (Method.reshapedAll r p i ms))
  | [], _, _, _, _, _, _, hw => .pure hw .nil
  | .mk t ts body :: ms, _, _, h, Γ, _, _, hw => by
    obtain ⟨hhead, htail⟩ := List.forall_mem_append.mp h
    refine .bind (Q := fun m m' => ∃ b b', m = .mk t ts b ∧ m' = .mk t ts b' ∧
      Stmt.AllPadded P (.both :: .receiver :: Γ) b b') ?_ fun _ _ hw => ?_
    · exact .bind (inFunction hw (Stmt.reshapedAll_pads hfits body _ _ hhead rfl)) fun b b' hw =>
        .pure hw fun hb => ⟨b, b', rfl, rfl, hb⟩
    · refine .bind (Method.reshapedAll_pads hfits ms _ _ htail hw) fun _ _ hw => .pure hw ?_
      rintro hms ⟨b, b', rfl, rfl, hb⟩
      exact .cons hb hms

end
end Trees

/-! ### Accepted programs -/

theorem Node.Every.and_inherited {ρ : Type} {P Q : Node ρ → Prop} {n : Node ρ} (h : n.Every P)
    (hn : Q n) (hQ : ∀ {n : Node ρ}, Q n → ∀ m ∈ n.children, Q m) :
    n.Every fun n => P n ∧ Q n := by
  induction h with
  | mk here inside ih => exact .mk ⟨here, hn⟩ fun m hm => ih m hm (hQ hn m hm)

/-- Names are identifiers. -/
theorem Node.names_of_words {ρ : Type} {known : String → Prop} {n : Node ρ}
    (hwords : n.Words (fun t => t.kind = .identifier → known t.lexeme) (·.kind = .identifier))
    (hspelled : n.Spelled) : ∀ t ∈ n.names, known t.lexeme := by
  cases n with
  | expr e =>
    cases e with
    | «variable» t mark =>
      exact List.forall_mem_singleton.mpr (hwords (List.mem_singleton.mp hspelled.1))
    | assign t operator e mark =>
      exact List.forall_mem_singleton.mpr (hwords.1 (List.mem_singleton.mp hspelled.1.1))
    | _ => exact List.forall_mem_nil _
  | stmt s =>
    cases s with
    | varDecl t value =>
      cases value with
      | none => exact List.forall_mem_singleton.mpr (hwords.1 hwords.2)
      | some e => exact List.forall_mem_singleton.mpr (hwords.1.1 hwords.1.2)
    | functionDecl t params body => exact List.forall_mem_singleton.mpr (hwords.1.1 hwords.1.2)
    | classDecl t methods => exact List.forall_mem_singleton.mpr (hwords.1.1 hwords.1.2)
    | _ => exact List.forall_mem_nil _

section
variable {P : Padding} {source : String}

theorem Accepted.fits (h : Accepted source)
    (hknown : ∀ t ∈ wordsOf source, t.kind = .identifier → P.known t.lexeme) :
    ∀ m ∈ (programOf source).map Node.stmt, m.Every P.Fits := by
  intro m hm
  obtain ⟨s, hs, rfl⟩ := List.mem_map.mp hm
  obtain ⟨words, hworded, hderives⟩ := h.derives
  have hshaped : (Node.stmt s).Every Node.Shaped := hderives.shaped hworded s hs
  let Q (n : Node Unit) : Prop :=
    n.Words (fun t => t.kind = .identifier → P.known t.lexeme) (·.kind = .identifier) ∧ n.Spelled
  have hn : Q (.stmt s) := ⟨(h.words hknown).mem s hs, (spelled_programOf h.parsed).mem s hs⟩
  have hall : (Node.stmt s).Every fun n => n.Shaped ∧ Q n :=
    hshaped.and_inherited hn fun hn m hm => ⟨hn.1.inside m hm, hn.2.inside m hm⟩
  exact hall.mono fun hn => ⟨hn.1, Node.names_of_words hn.2.1 hn.2.2⟩

/-- An accepted program is accepted when some statements are reshaped, and is padded by what it then
is. -/
theorem Accepted.reshaped (h : Accepted source) (r : Reshaping)
    (hknown : ∀ t ∈ wordsOf source, t.kind = .identifier → P.known t.lexeme) (hfits : r.Fits P) :
    (resolve (Stmt.reshapedAll r [] 0 (programOf source))).diagnostics = [] ∧
      Stmt.AllPadded P [.both] (resolve (programOf source)).program
        (resolve (Stmt.reshapedAll r [] 0 (programOf source))).program := by
  have hstart : Walk.Padded [.both] .start .start := ⟨.global, rfl, rfl, Nat.le_refl _, id, nofun⟩
  have hpads := Stmt.reshapedAll_pads hfits (programOf source) [] 0 (h.fits hknown) rfl hstart
  have hclean : faults (programOf source) = [] := (faults_eq_nil_iff _).mpr h.resolved
  exact ⟨(faults_eq_nil_iff _).mp (hpads.walk.faults hclean), hpads.holds hclean⟩

/-- An accepted program is padded by itself. -/
theorem Accepted.padded_self (h : Accepted source)
    (hknown : ∀ t ∈ wordsOf source, t.kind = .identifier → P.known t.lexeme) :
    Stmt.AllPadded P [.both] (resolve (programOf source)).program
      (resolve (programOf source)).program := by
  have hreshaped := (h.reshaped .never hknown ⟨nofun, nofun⟩).2
  rwa [Stmt.reshapedAll_never] at hreshaped

end
end LoxScript
