import LoxScript.Proofs.Binding
import LoxScript.Proofs.Signals
import LoxScript.Proofs.Words

/-!
The methods around spots.

A receiver can be referred to inside a method only, and it is bound in the scope around the body of
the innermost one: no scope within that body is one of a receiver, and no other name is that of the
receiver.
-/
namespace LoxScript

open Resolve Scope Resolve.Yields

/-- Whether a node refers to a receiver. -/
def Node.isReceiver {ρ : Type} : Node ρ → Bool
  | .expr (.this _ _) => true
  | _ => false

def Node.isClass {ρ : Type} : Node ρ → Bool
  | .stmt (.classDecl _ _) => true
  | _ => false

theorem Node.not_isReceiver_of_isClass {ρ : Type} {n : Node ρ} (h : n.isClass) : ¬ n.isReceiver := by
  cases n with
  | expr e => cases h
  | stmt s => nofun

/-- No receiver is referred to outside of the classes in a node. -/
inductive Node.Seated : Node (Option Nat) → Prop
  | ofClass {n : Node (Option Nat)} (here : n.isClass) : Seated n
  | node {n : Node (Option Nat)} (here : n.isReceiver = false)
      (inside : ∀ m ∈ n.children, Seated m) : Seated n

theorem Node.Seated.inside {n : Node (Option Nat)} (h : n.Seated) (hplain : n.isClass = false) :
    ∀ m ∈ n.children, m.Seated := by
  cases h with
  | ofClass here =>
    rw [hplain] at here
    cases here
  | node here inside => exact inside

def Expr.Seated (e : ResolvedExpr) : Prop := (Node.expr e).Seated

def Expr.AllSeated (es : List ResolvedExpr) : Prop := ∀ e ∈ es, e.Seated

def Stmt.Seated (s : ResolvedStmt) : Prop := (Node.stmt s).Seated

def Stmt.AllSeated (ss : List ResolvedStmt) : Prop := ∀ s ∈ ss, s.Seated

section
variable {n m m' m'' : Node (Option Nat)}

theorem Node.seated_one (hm : m.Seated) : ∀ x ∈ [m], x.Seated := List.forall_mem_singleton.mpr hm

theorem Node.seated_two (hm : m.Seated) (hm' : m'.Seated) : ∀ x ∈ [m, m'], x.Seated :=
  List.forall_mem_cons.mpr ⟨hm, seated_one hm'⟩

theorem Node.seated_three (hm : m.Seated) (hm' : m'.Seated) (hm'' : m''.Seated) :
    ∀ x ∈ [m, m', m''], x.Seated := List.forall_mem_cons.mpr ⟨hm, seated_two hm' hm''⟩

theorem Stmt.AllSeated.nodes {body : List ResolvedStmt} (h : Stmt.AllSeated body) :
    ∀ x ∈ body.map Node.stmt, x.Seated := List.forall_mem_map.mpr h

end

/-- A step of a walk that is in no class, before another one. -/
theorem Resolve.Yields.outside {α β : Type} {w : Walk} {P : α → Prop} {Q : β → Prop} {c : Resolve α}
    {k : α → Resolve β} (hw : w.inClass = false) (hc : Yields w P c)
    (hk : ∀ a u, u.inClass = false → Yields u (fun b => P a → Q b) (k a)) : Yields w Q (c >>= k) :=
  .bind hc fun a u hu => hk a u (hu.inClass.trans hw)

mutual

/-- A walk that is in no class finds a fault at each receiver that is in no class. -/
theorem Expr.resolve_seated : (e : RawExpr) → (w : Walk) → w.inClass = false →
    Yields w Expr.Seated e.resolve
  | .literal _, _, _ => .pure (.node rfl (List.forall_mem_nil _))
  | .grouping e, w, hw =>
    outside hw (e.resolve_seated w hw) fun _ _ _ => .pure fun h => .node rfl (Node.seated_one h)
  | .unary _ e, w, hw =>
    outside hw (e.resolve_seated w hw) fun _ _ _ => .pure fun h => .node rfl (Node.seated_one h)
  | .binary a _ b, w, hw =>
    outside hw (a.resolve_seated w hw) fun _ u hu => outside hu (b.resolve_seated u hu)
      fun _ _ _ => .pure fun hb ha => .node rfl (Node.seated_two ha hb)
  | .logical a _ b, w, hw =>
    outside hw (a.resolve_seated w hw) fun _ u hu => outside hu (b.resolve_seated u hu)
      fun _ _ _ => .pure fun hb ha => .node rfl (Node.seated_two ha hb)
  | .variable _ _, _, _ =>
    check (q := fun w => isPending w.scopes _) fun _ _ => .bind (refer _ _ _) fun _ _ _ =>
      .pure fun _ _ => .node rfl (List.forall_mem_nil _)
  | .assign _ none e _, w, hw =>
    outside hw (e.resolve_seated w hw) fun _ _ _ => .bind (refer _ _ _) fun _ _ _ =>
      .pure fun _ h => .node rfl (Node.seated_one h)
  | .assign _ (some _) e _, w, hw =>
    outside hw (e.resolve_seated w hw) fun _ _ _ => .bind (refer _ _ _) fun _ _ _ =>
      .pure fun _ h => .node rfl (Node.seated_one h)
  | .call f _ es, w, hw =>
    outside hw (f.resolve_seated w hw) fun _ u hu => outside hu (Expr.resolveAll_seated es u hu)
      fun _ _ _ => .pure fun hes hf =>
        .node rfl (List.forall_mem_cons.mpr ⟨hf, List.forall_mem_map.mpr hes⟩)
  | .get o _, w, hw =>
    outside hw (o.resolve_seated w hw) fun _ _ _ => .pure fun h => .node rfl (Node.seated_one h)
  | .set o _ none e, w, hw =>
    outside hw (e.resolve_seated w hw) fun _ u hu => outside hu (o.resolve_seated u hu)
      fun _ _ _ => .pure fun ho he => .node rfl (Node.seated_two ho he)
  | .set o _ (some _) e, w, hw =>
    outside hw (e.resolve_seated w hw) fun _ u hu => outside hu (o.resolve_seated u hu)
      fun _ _ _ => .pure fun ho he => .node rfl (Node.seated_two ho he)
  | .this keyword mark, w, hw => by
    refine ⟨((Expr.this keyword mark).resolve_upright w).returns, fun hfaults => ?_⟩
    have houtside : ¬ w.inClass := by simp [hw]
    rw [Expr.resolve_this_outside keyword mark houtside] at hfaults
    cases hfaults
  | .function none _ body, _, hw =>
    .bind (inFunction (P := Stmt.AllSeated) fun u _ _ hu =>
      Stmt.resolveAll_seated body u (hu.trans hw)) fun _ _ _ => .pure fun h => .node rfl h.nodes
  | .function (some name) _ body, w, hw => by
    refine .bind (P := Stmt.AllSeated) (inScope ?_) fun _ _ _ => .pure fun h => .node rfl h.nodes
    refine outside hw (declare name) fun _ _ hu => outside hu (define name) fun _ x hx => ?_
    refine (inFunction (P := Stmt.AllSeated) fun u _ _ hu => ?_).imp fun _ h _ _ => h
    exact Stmt.resolveAll_seated body u (hu.trans hx)

theorem Expr.resolveAll_seated : (es : List RawExpr) → (w : Walk) → w.inClass = false →
    Yields w Expr.AllSeated (Expr.resolveAll es)
  | [], _, _ => .pure (List.forall_mem_nil _)
  | e :: es, w, hw =>
    outside hw (e.resolve_seated w hw) fun _ u hu => outside hu (Expr.resolveAll_seated es u hu)
      fun _ _ _ => .pure fun hes he => List.forall_mem_cons.mpr ⟨he, hes⟩

theorem Stmt.resolve_seated : (s : RawStmt) → (w : Walk) → w.inClass = false →
    Yields w Stmt.Seated s.resolve
  | .expression e, w, hw =>
    outside hw (e.resolve_seated w hw) fun _ _ _ => .pure fun h => .node rfl (Node.seated_one h)
  | .print e, w, hw =>
    outside hw (e.resolve_seated w hw) fun _ _ _ => .pure fun h => .node rfl (Node.seated_one h)
  | .varDecl name none, _, _ =>
    .bind (declare name) fun _ _ _ => .bind (define name) fun _ _ _ =>
      .pure fun _ _ => .node rfl (List.forall_mem_nil _)
  | .varDecl name (some e), _, hw => by
    refine outside hw (declare name) fun _ u hu => outside hu (e.resolve_seated u hu) fun _ _ _ => ?_
    exact .bind (define name) fun _ _ _ => .pure fun _ h _ => .node rfl (Node.seated_one h)
  | .block body, _, hw =>
    .bind (inScope (Stmt.resolveAll_seated body _ hw)) fun _ _ _ => .pure fun h => .node rfl h.nodes
  | .ifElse c yes none, w, hw =>
    outside hw (c.resolve_seated w hw) fun _ u hu => outside hu (yes.resolve_seated u hu)
      fun _ _ _ => .pure fun hyes hc => .node rfl (Node.seated_two hc hyes)
  | .ifElse c yes (some no), w, hw => by
    refine outside hw (c.resolve_seated w hw) fun _ u hu => outside hu (yes.resolve_seated u hu)
      fun _ x hx => ?_
    exact outside hx (no.resolve_seated x hx) fun _ _ _ => .pure fun hno hyes hc =>
      .node rfl (Node.seated_three hc hyes hno)
  | .loop c body none, w, hw =>
    outside hw (c.resolve_seated w hw) fun _ _ hu => outside hu (inLoop (body.resolve_seated _ hu))
      fun _ _ _ => .pure fun hbody hc => .node rfl (Node.seated_two hc hbody)
  | .loop c body (some n), w, hw => by
    refine outside hw (c.resolve_seated w hw) fun _ _ hu =>
      outside hu (inLoop (body.resolve_seated _ hu)) fun _ x hx => ?_
    exact outside hx (n.resolve_seated x hx) fun _ _ _ => .pure fun hn hbody hc =>
      .node rfl (Node.seated_three hc hbody hn)
  | .breakLoop _, _, _ =>
    check (q := (·.loops = 0)) fun _ _ => .pure fun _ => .node rfl (List.forall_mem_nil _)
  | .continueLoop _, _, _ =>
    check (q := (·.loops = 0)) fun _ _ => .pure fun _ => .node rfl (List.forall_mem_nil _)
  | .returnFrom _ none, _, _ =>
    check (q := (·.role = .topLevel)) fun _ _ => .pure fun _ => .node rfl (List.forall_mem_nil _)
  | .returnFrom _ (some e), _, hw => by
    refine check (q := (·.role = .topLevel)) fun _ hu => check (q := (·.role = .initializer))
      fun x hx => ?_
    have hclass : x.inClass = false := hx.inClass.trans (hu.inClass.trans hw)
    exact outside hclass (e.resolve_seated x hclass) fun _ _ _ =>
      .pure fun h _ _ => .node rfl (Node.seated_one h)
  | .functionDecl name _ body, w, hw => by
    refine outside hw (declare name) fun _ _ hu => outside hu (define name) fun _ x hx => ?_
    refine .bind (inFunction (P := Stmt.AllSeated) fun y _ _ hy => ?_) fun _ _ _ =>
      .pure fun h _ _ => .node rfl h.nodes
    exact Stmt.resolveAll_seated body y (hy.trans hx)
  | .classDecl _ methods, _, _ =>
    .bind (inClass fun u => Method.resolveAll_upright methods u) fun _ _ _ =>
      .pure fun _ => .ofClass rfl

theorem Stmt.resolveAll_seated : (ss : List RawStmt) → (w : Walk) → w.inClass = false →
    Yields w Stmt.AllSeated (Stmt.resolveAll ss)
  | [], _, _ => .pure (List.forall_mem_nil _)
  | s :: ss, w, hw =>
    outside hw (s.resolve_seated w hw) fun _ u hu => outside hu (Stmt.resolveAll_seated ss u hu)
      fun _ _ _ => .pure fun hss hs => List.forall_mem_cons.mpr ⟨hs, hss⟩

end

namespace Context

/-- The scopes with the name of the receiver are those of receivers. -/
def Fair (Γ : Context) : Prop :=
  ∀ l ∈ Γ, l.scope.has receiverName = decide (l.site.form = .receiver)

@[simp]
theorem map_site_set (Γ : Context) (name : String) (b : Bool) :
    (Γ.set name b).map (·.site) = Γ.map (·.site) := by
  cases Γ with
  | nil => rfl
  | cons l Γ => rfl

@[simp]
theorem map_site_declare (Γ : Context) (names : List String) :
    (Γ.declare names).map (·.site) = Γ.map (·.site) := by
  induction names generalizing Γ with
  | nil => rfl
  | cons name names ih => exact (ih _).trans (Γ.map_site_set name true)

namespace Fair
variable {Γ : Context} {name : String}

theorem set (h : Γ.Fair) (hname : name ≠ receiverName) (b : Bool) : (Γ.set name b).Fair := by
  cases Γ with
  | nil => exact h
  | cons l Γ =>
    obtain ⟨hl, hΓ⟩ := List.forall_mem_cons.mp h
    refine List.forall_mem_cons.mpr ⟨?_, hΓ⟩
    rw [← hl]
    simp only [Bindings.has, Bindings.get?_set_of_ne _ b hname.symm]

theorem declare {names : List String} (h : Γ.Fair) (hnames : receiverName ∉ names) :
    (Γ.declare names).Fair := by
  induction names generalizing Γ with
  | nil => exact h
  | cons name names ih =>
    have hname : name ≠ receiverName := (List.ne_of_not_mem_cons hnames).symm
    exact ih (h.set hname true) (List.not_mem_of_not_mem_cons hnames)

theorem sealed (h : Γ.Fair) : Γ.sealed.Fair := List.forall_mem_map.mpr h

theorem body {ρ : Type} {params : List String} (h : Γ.Fair) (p : Path) (body : List (Stmt ρ))
    (hparams : receiverName ∉ params) : Context.Fair (.body p params body :: Γ) := by
  refine List.forall_mem_cons.mpr ⟨?_, h⟩
  simp [Layer.body, Site.body, definedNames, Bindings.has, hparams, Bindings.get?]

theorem block {ρ : Type} (h : Γ.Fair) (p : Path) (body : List (Stmt ρ)) :
    Context.Fair (.block p body :: Γ) := List.forall_mem_cons.mpr ⟨rfl, h⟩

theorem literalName (h : Γ.Fair) (p : Path) (hname : name ≠ receiverName) :
    Context.Fair (.literalName p name :: Γ) := by
  refine List.forall_mem_cons.mpr ⟨?_, h⟩
  simp [Layer.literalName, Site.literalName, Bindings.has, Bindings.get?, hname]

theorem receiver (h : Γ.Fair) (p : Path) : Context.Fair (.receiver p :: Γ) :=
  List.forall_mem_cons.mpr ⟨rfl, h⟩

/-- Where scopes are fair, the receiver is found in the innermost one that is of a receiver. -/
theorem distance?_receiver {inner outer : List Site} {site : Site} (h : Γ.Fair)
    (hsites : Γ.map (·.site) = inner ++ site :: outer) (hsite : site.form = .receiver)
    (hinner : ∀ s ∈ inner, s.form ≠ .receiver) :
    distance? (Γ.map (·.scope)) receiverName = some inner.length := by
  have hforms : Γ.map (·.scope.has receiverName) =
      (inner ++ site :: outer).map fun s => decide (s.form = .receiver) := by
    rw [← hsites, List.map_map]
    exact List.map_congr_left h
  have hfound : Resolve.distance? (Γ.map (·.scope)) receiverName =
      (Γ.map (·.scope.has receiverName)).findIdx? id := by
    simp only [Resolve.distance?, List.findIdx?_map]
    rfl
  have hnone : (inner.map fun s => decide (s.form = .receiver)).findIdx? id = none := by
    refine List.findIdx?_eq_none_iff.mpr (List.forall_mem_map.mpr fun s hs => ?_)
    simpa using hinner s hs
  simp [hfound, hforms, List.findIdx?_append, hnone, List.findIdx?_cons, hsite]

end Fair
end Context

section
variable {P N : Token → Prop} (hP : ∀ t, P t → N t → t.lexeme ≠ receiverName)
include hP

/-- No declared name is that of the receiver. -/
theorem Stmt.Words.declares_ne : (s : ResolvedStmt) → s.Words P N → receiverName ∉ s.declares
  | .varDecl _ none, h => List.not_mem_cons_of_ne_of_not_mem (hP _ h.1 h.2).symm List.not_mem_nil
  | .varDecl _ (some _), h =>
    List.not_mem_cons_of_ne_of_not_mem (hP _ h.1.1 h.1.2).symm List.not_mem_nil
  | .functionDecl _ _ _, h =>
    List.not_mem_cons_of_ne_of_not_mem (hP _ h.1.1 h.1.2).symm List.not_mem_nil
  | .classDecl _ _, h =>
    List.not_mem_cons_of_ne_of_not_mem (hP _ h.1.1 h.1.2).symm List.not_mem_nil
  | .ifElse _ yes none, h => Stmt.Words.declares_ne yes h.2
  | .ifElse _ yes (some no), h => fun hmem => by
    rcases List.mem_append.mp hmem with hyes | hno
    · exact Stmt.Words.declares_ne yes h.2.1 hyes
    · exact Stmt.Words.declares_ne no h.2.2 hno
  | .loop _ body none, h => Stmt.Words.declares_ne body h.2
  | .loop _ body (some _), h => Stmt.Words.declares_ne body h.2.1
  | .expression _, _ => List.not_mem_nil
  | .print _, _ => List.not_mem_nil
  | .block _, _ => List.not_mem_nil
  | .breakLoop _, _ => List.not_mem_nil
  | .continueLoop _, _ => List.not_mem_nil
  | .returnFrom _ _, _ => List.not_mem_nil

theorem Stmt.AllWords.declared_ne {body : List ResolvedStmt} (h : Stmt.AllWords P N body) :
    receiverName ∉ declared body := by
  intro hmem
  obtain ⟨s, hs, hname⟩ := List.mem_flatMap.mp hmem
  exact Stmt.Words.declares_ne hP s (h.mem s hs) hname

theorem params_ne {params : List Token} (h : ∀ t ∈ params, P t ∧ N t) :
    receiverName ∉ params.map (·.lexeme) := by
  intro hmem
  obtain ⟨t, ht, hname⟩ := List.mem_map.mp hmem
  exact hP t (h t ht).1 (h t ht).2 hname

end

/-- An identifier does not have the name of the receiver. -/
theorem Token.Worded.ne_receiver (t : Token) (h : t.Worded) (hname : t.kind = .identifier) :
    t.lexeme ≠ receiverName := h.name hname

namespace Spot
variable {number : Nat} {source : String} {x y z : Spot} {p : Path}

/-- A spot in a method that a path leads to, and in no method within that one. -/
inductive InMethod (number : Nat) (source : String) : Spot → Path → Prop
  | body {z x : Spot} {name : Token} {methods : List ResolvedMethod} {m : ResolvedMethod} {i : Nat}
      (outer : z.In number source) (declared : z.node = .stmt (.classDecl name methods))
      (method : methods[i]? = some m) (stmt : x ∈ stmts (i :: z.path) 0
        ((z.context.set name.lexeme true).method (i :: z.path) m) m.body) :
      InMethod number source x (i :: z.path)
  | inner {z x : Spot} {p : Path} (outer : InMethod number source z p)
      (plain : z.node.isClass = false) (child : x ∈ z.children) : InMethod number source x p

/-- The spots inside a class are in its methods. -/
theorem mem_children_class (hclass : x.node.isClass) (hy : y ∈ x.children) :
    ∃ name methods i m, x.node = .stmt (.classDecl name methods) ∧ methods[i]? = some m ∧
      y ∈ stmts (i :: x.path) 0 ((x.context.set name.lexeme true).method (i :: x.path) m) m.body := by
  obtain ⟨q, Γ, n⟩ := x
  cases n with
  | expr e => cases hclass
  | stmt s =>
    cases s with
    | classDecl name methods =>
      obtain ⟨b, hb, hstmt⟩ := List.mem_flatMap.mp hy
      obtain ⟨i, hi, rfl⟩ := List.mem_mapIdx.mp hb
      exact ⟨name, methods, i, methods[i], rfl, List.getElem?_eq_getElem hi, hstmt⟩
    | _ => cases hclass

theorem mem_children_of_method {name : Token} {methods : List ResolvedMethod} {m : ResolvedMethod}
    {i : Nat} (hnode : x.node = .stmt (.classDecl name methods)) (hm : methods[i]? = some m)
    (hy : y ∈ stmts (i :: x.path) 0 ((x.context.set name.lexeme true).method (i :: x.path) m) m.body) :
    y ∈ x.children := by
  obtain ⟨q, Γ, n⟩ := x
  cases hnode
  obtain ⟨hi, rfl⟩ := List.getElem?_eq_some_iff.mp hm
  exact List.mem_flatMap.mpr ⟨_, List.mem_mapIdx.mpr ⟨i, hi, rfl⟩, hy⟩

theorem In.child (hx : x.In number source) (hy : y ∈ x.children) : y.In number source := by
  obtain ⟨root, hroot, hwithin⟩ := hx
  exact ⟨root, hroot, hwithin.tail hy⟩

theorem InMethod.inProgram (h : x.InMethod number source p) : x.In number source := by
  induction h with
  | body outer declared method stmt => exact outer.child (mem_children_of_method declared method stmt)
  | inner outer plain child ih => exact ih.child child

/-- A spot is in a method, or all receivers inside it are in classes inside it. -/
theorem In.inMethod_or_seated (hsource : Accepted source) (hx : x.In number source) :
    (∃ p, x.InMethod number source p) ∨ x.node.Seated := by
  obtain ⟨root, hroot, hwithin⟩ := hx
  induction hwithin with
  | refl =>
    obtain ⟨k, s, hs, rfl⟩ := mem_stmts hroot
    have hseated := (Stmt.resolveAll_seated (programOf source) .start rfl).result
      ((faults_eq_nil_iff _).mpr hsource.resolved)
    exact .inr (hseated s (List.mem_of_getElem? hs))
  | @tail y z hy hz ih =>
    have hin : y.In number source := ⟨root, hroot, hy⟩
    cases hclass : y.node.isClass with
    | true =>
      obtain ⟨name, methods, i, m, hnode, hm, hstmt⟩ := mem_children_class hclass hz
      exact .inl ⟨_, .body hin hnode hm hstmt⟩
    | false =>
      rcases ih with ⟨p, hp⟩ | hseated
      · exact .inl ⟨p, .inner hp hclass hz⟩
      · refine .inr (hseated.inside hclass _ ?_)
        rw [← map_node_children]
        exact List.mem_map_of_mem hz

/-- A receiver is referred to in methods only. -/
theorem In.inMethod (hsource : Accepted source) (hx : x.In number source)
    (hnode : x.node.isReceiver) : ∃ p, x.InMethod number source p := by
  rcases hx.inMethod_or_seated hsource with hmethod | hseated
  · exact hmethod
  · cases hseated with
    | ofClass here => exact absurd hnode (Node.not_isReceiver_of_isClass here)
    | node here inside =>
      rw [here] at hnode
      cases hnode

/-- The ways in which a node opens a body. -/
inductive Opening : Spot → Path → Context → List ResolvedStmt → Prop
  | literal (p : Path) (Γ : Context) (name : Option Token) (params : List Token)
      (body : List ResolvedStmt) :
      Opening ⟨p, Γ, .expr (.function name params body)⟩ p (Γ.literal p name params body) body
  | block (p : Path) (Γ : Context) (body : List ResolvedStmt) :
      Opening ⟨p, Γ, .stmt (.block body)⟩ p (.block p body :: Γ) body
  | function (p : Path) (Γ : Context) (name : Token) (params : List Token)
      (body : List ResolvedStmt) : Opening ⟨p, Γ, .stmt (.functionDecl name params body)⟩ p
        (.body p (params.map (·.lexeme)) body :: (Γ.set name.lexeme true).sealed) body
  | method (p : Path) (Γ : Context) (name : Token) {methods : List ResolvedMethod}
      {m : ResolvedMethod} {i : Nat} (found : methods[i]? = some m) :
      Opening ⟨p, Γ, .stmt (.classDecl name methods)⟩ (i :: p)
        ((Γ.set name.lexeme true).method (i :: p) m) m.body

theorem mem_bodies_iff {Γ : Context} {body : List ResolvedStmt} :
    (p, Γ, body) ∈ x.bodies ↔ x.Opening p Γ body := by
  constructor
  · intro h
    obtain ⟨q, Δ, n⟩ := x
    cases n with
    | expr e =>
      cases e with
      | function name params statements =>
        cases List.mem_singleton.mp h
        exact .literal _ _ _ _ _
      | _ => cases h
    | stmt s =>
      cases s with
      | block statements =>
        cases List.mem_singleton.mp h
        exact .block _ _ _
      | functionDecl name params statements =>
        cases List.mem_singleton.mp h
        exact .function _ _ _ _ _
      | classDecl name methods =>
        obtain ⟨i, hi, hopened⟩ := List.mem_mapIdx.mp h
        cases hopened
        exact .method _ _ _ (List.getElem?_eq_getElem hi)
      | _ => cases h
  · intro h
    cases h with
    | method q Δ name found =>
      obtain ⟨hi, rfl⟩ := List.getElem?_eq_some_iff.mp found
      exact List.mem_mapIdx.mpr ⟨_, hi, rfl⟩
    | _ => exact List.mem_singleton.mpr rfl

/-- The scopes that a node which is no class opens around its bodies are of no receivers. -/
theorem Opening.sites {Γ : Context} {body : List ResolvedStmt} (h : x.Opening p Γ body)
    (hplain : x.node.isClass = false) : ∃ fixed, Γ.map (·.site) = fixed ++ x.context.map (·.site) ∧
      ∀ s ∈ fixed, s.form ≠ .receiver := by
  cases h with
  | literal p Δ name params body =>
    cases name with
    | none =>
      exact ⟨[.body p (params.map (·.lexeme)) body], by simp [Context.literal, Layer.body],
        by simp [Site.body]⟩
    | some name =>
      exact ⟨[.body p (params.map (·.lexeme)) body, .literalName p name.lexeme],
        by simp [Context.literal, Layer.body, Layer.literalName],
        by simp [Site.body, Site.literalName]⟩
  | block p Δ body => exact ⟨[.block p body], by simp [Layer.block], by simp [Site.block]⟩
  | function p Δ name params body =>
    exact ⟨[.body p (params.map (·.lexeme)) body], by simp [Layer.body], by simp [Site.body]⟩
  | method p Δ name found => cases hplain

/-- The scopes around a spot in a method: those within the body of the method, the one of that
body, and the one of the receiver. -/
theorem InMethod.sites (hsource : Accepted source) (h : x.InMethod number source p) :
    ∃ inner names outer, x.context.map (·.site) = inner ++ ⟨p, .body, names⟩ :: .receiver p :: outer ∧
      ∀ s ∈ inner, s.form ≠ .receiver := by
  induction h with
  | body outer declared method stmt =>
    obtain ⟨k, s, hs, rfl⟩ := mem_stmts stmt
    exact ⟨[], _, _, Context.map_site_declare _ _, List.forall_mem_nil _⟩
  | @inner z x p hz plain child ih =>
    obtain ⟨inner, names, outer, hsites, hinner⟩ := ih
    cases child_of_mem (hsource.shaped hz.inProgram) child with
    | part context free quiet => exact ⟨inner, names, outer, by rw [context, hsites], hinner⟩
    | initializer declared =>
      refine ⟨inner, names, outer, ?_, hinner⟩
      rw [context_initializer declared, Context.map_site_set, hsites]
    | body opened stmt =>
      obtain ⟨fixed, hfixed, hforms⟩ := (mem_bodies_iff.mp opened).sites plain
      refine ⟨fixed ++ inner, names, outer, ?_, List.forall_mem_append.mpr ⟨hforms, hinner⟩⟩
      rw [Context.map_site_declare, hfixed, hsites, List.append_assoc]

/-- The bodies of a node stand in fair contexts if the node does. -/
theorem Opening.fair {P N : Token → Prop} (hP : ∀ t, P t → N t → t.lexeme ≠ receiverName)
    {Γ : Context} {body : List ResolvedStmt} (h : x.Opening p Γ body) (hwords : x.node.Words P N)
    (hfair : x.context.Fair) : Γ.Fair ∧ receiverName ∉ declared body := by
  cases h with
  | literal p Δ name params body =>
    obtain ⟨hname, hparams, hbody⟩ := hwords
    refine ⟨?_, Stmt.AllWords.declared_ne hP hbody⟩
    cases name with
    | none => exact hfair.sealed.body p body (params_ne hP hparams)
    | some name =>
      have hne : name.lexeme ≠ receiverName := hP name (hname name rfl).1 (hname name rfl).2
      exact (hfair.sealed.literalName p hne).body p body (params_ne hP hparams)
  | block p Δ body => exact ⟨hfair.block p body, Stmt.AllWords.declared_ne hP hwords⟩
  | function p Δ name params body =>
    obtain ⟨hname, hparams, hbody⟩ := hwords
    have hset := hfair.set (hP name hname.1 hname.2) true
    exact ⟨hset.sealed.body p body (params_ne hP hparams), Stmt.AllWords.declared_ne hP hbody⟩
  | method p Δ name found =>
    obtain ⟨hname, hmethods⟩ := hwords
    obtain ⟨hparams, hbody⟩ := hmethods.mem _ (List.mem_of_getElem? found)
    have hset := hfair.set (hP name hname.1 hname.2) true
    exact ⟨(hset.sealed.receiver _).body _ _ (params_ne hP hparams),
      Stmt.AllWords.declared_ne hP hbody⟩

theorem In.fair (hsource : Accepted source) (hx : x.In number source) : x.context.Fair := by
  have hworded : ∀ t ∈ wordsOf source, t.Worded :=
    fun t ht => scan_worded source t (List.dropLast_subset _ ht)
  apply hx.induction hsource (P := (·.context.Fair))
  · intro x _ hcontext
    rw [hcontext]
    exact List.forall_mem_nil _
  · intro x y hx _ hchild h
    cases hchild with
    | part context free quiet => rwa [context]
    | initializer declared =>
      rw [context_initializer declared]
      apply h.set
      have hshape := hsource.shaped hx
      unfold initializer? at declared
      split at declared
      next token value hnode =>
        cases declared
        rw [hnode] at hshape
        exact hshape
      next => cases declared
    | @body p Γ body k s opened stmt =>
      obtain ⟨hΓ, hdeclared⟩ :=
        (mem_bodies_iff.mp opened).fair Token.Worded.ne_receiver (hx.words hsource hworded) h
      apply hΓ.declare
      intro hmem
      apply hdeclared
      obtain ⟨t, ht, hname⟩ := List.mem_flatMap.mp hmem
      exact List.mem_flatMap.mpr ⟨t, List.mem_of_mem_take ht, hname⟩

/-- From within a method, the receiver is found in the scope around the body of the method. -/
theorem InMethod.distance (hsource : Accepted source) (h : x.InMethod number source p) :
    ∃ inner names outer, x.context.map (·.site) = inner ++ ⟨p, .body, names⟩ :: .receiver p :: outer ∧
      (∀ s ∈ inner, s.form ≠ .receiver) ∧
      distance? (x.context.map (·.scope)) receiverName = some (inner.length + 1) := by
  obtain ⟨inner, names, outer, hsites, hinner⟩ := h.sites hsource
  have hscopes : x.context.map (·.site) = (inner ++ [⟨p, .body, names⟩]) ++ .receiver p :: outer := by
    rw [hsites, List.append_assoc]
    rfl
  have hforms : ∀ s ∈ inner ++ [(⟨p, .body, names⟩ : Site)], s.form ≠ .receiver := by
    intro s hs
    rcases List.mem_append.mp hs with hin | hbody
    · exact hinner s hin
    · obtain rfl := List.mem_singleton.mp hbody
      intro hform
      cases hform
  have hfound := (h.inProgram.fair hsource).distance?_receiver hscopes rfl hforms
  rw [List.length_append] at hfound
  exact ⟨inner, names, outer, hsites, hinner, hfound⟩

/-- There is one innermost method around a spot. -/
theorem InMethod.unique (hsource : Accepted source) {q : Path} (h : x.InMethod number source p)
    (k : x.InMethod number source q) : p = q := by
  obtain ⟨inner, names, outer, hsites, -, hdistance⟩ := h.distance hsource
  obtain ⟨inner', names', outer', hsites', -, hdistance'⟩ := k.distance hsource
  have hlength : inner.length = inner'.length := by
    rw [hdistance] at hdistance'
    exact Nat.succ.inj (Option.some.inj hdistance')
  obtain ⟨-, htail⟩ := List.append_inj (hsites.symm.trans hsites') hlength
  cases htail
  rfl

/-- The mark of a receiver is the distance of the scope around the body of the innermost method. -/
theorem In.receiver_mark (hsource : Accepted source) (hx : x.In number source) {keyword : Token}
    {mark : Option Nat} (hnode : x.node = .expr (.this keyword mark)) :
    keyword.lexeme = receiverName ∧ ∃ p inner names outer, x.InMethod number source p ∧
      x.context.map (·.site) = inner ++ ⟨p, .body, names⟩ :: .receiver p :: outer ∧
      (∀ s ∈ inner, s.form ≠ .receiver) ∧ mark = some (inner.length + 1) := by
  have hkeyword : keyword.lexeme = receiverName := by
    have hshape := hsource.shaped hx
    rwa [hnode] at hshape
  have hreference : x.reference? = some (receiverName, mark) := by
    simp only [reference?, hnode, Node.referred?, Option.map_some, hkeyword]
  obtain ⟨p, hp⟩ := hx.inMethod hsource (by rw [hnode]; rfl)
  obtain ⟨inner, names, outer, hsites, hinner, hdistance⟩ := hp.distance hsource
  exact ⟨hkeyword, p, inner, names, outer, hp, hsites, hinner, (hx.mark hsource hreference).trans hdistance⟩

end Spot

end LoxScript
