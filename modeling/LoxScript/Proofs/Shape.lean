import LoxScript.Proofs.ParserSoundness
import LoxScript.Proofs.Sightings
import LoxScript.Proofs.Regime

/-!
The shape of the trees that are parsed from words, which resolution keeps.
-/
namespace LoxScript

open Grammar Resolve Scope

namespace Node
variable {ρ : Type}

/-- The nodes directly inside a node. -/
def children : Node ρ → List (Node ρ)
  | .expr (.grouping inner) => [.expr inner]
  | .expr (.unary _ right) => [.expr right]
  | .expr (.binary left _ right) => [.expr left, .expr right]
  | .expr (.logical left _ right) => [.expr left, .expr right]
  | .expr (.assign _ _ value _) => [.expr value]
  | .expr (.call callee _ arguments) => .expr callee :: arguments.map .expr
  | .expr (.get object _) => [.expr object]
  | .expr (.set object _ _ value) => [.expr object, .expr value]
  | .expr (.function _ _ body) => body.map .stmt
  | .stmt (.expression value) => [.expr value]
  | .stmt (.print value) => [.expr value]
  | .stmt (.varDecl _ (some value)) => [.expr value]
  | .stmt (.block body) => body.map .stmt
  | .stmt (.ifElse condition yes no) => .expr condition :: .stmt yes :: no.toList.map .stmt
  | .stmt (.loop condition body increment) =>
    .expr condition :: .stmt body :: increment.toList.map .expr
  | .stmt (.returnFrom _ (some value)) => [.expr value]
  | .stmt (.functionDecl _ _ body) => body.map .stmt
  | .stmt (.classDecl _ methods) => methods.flatMap fun m => m.body.map .stmt
  | _ => []

/-- Something holds of a node and of all nodes inside it. -/
inductive Every (P : Node ρ → Prop) : Node ρ → Prop
  | mk {n} (here : P n) (inside : ∀ m ∈ n.children, Every P m) : Every P n

theorem Every.here {P : Node ρ → Prop} {n : Node ρ} (h : n.Every P) : P n := by
  cases h with
  | mk here inside => exact here

theorem Every.inside {P : Node ρ → Prop} {n m : Node ρ} (h : n.Every P) (hm : m ∈ n.children) :
    m.Every P := by
  cases h with
  | mk here inside => exact inside m hm

theorem Every.leaf {P : Node ρ → Prop} {n : Node ρ} (here : P n) (hn : n.children = []) :
    n.Every P :=
  .mk here (hn ▸ List.forall_mem_nil _)

theorem Every.one {P : Node ρ → Prop} {n m : Node ρ} (here : P n) (hm : m.Every P)
    (hn : n.children = [m]) : n.Every P :=
  .mk here (hn ▸ List.forall_mem_singleton.mpr hm)

theorem Every.two {P : Node ρ → Prop} {n m m' : Node ρ} (here : P n) (hm : m.Every P)
    (hm' : m'.Every P) (hn : n.children = [m, m']) : n.Every P :=
  .mk here (hn ▸ List.forall_mem_cons.mpr ⟨hm, List.forall_mem_singleton.mpr hm'⟩)

end Node

theorem Spot.map_node_exprs (p : Path) (i : Nat) (Γ : Context) (es : List ResolvedExpr) :
    (Spot.exprs p i Γ es).map (·.node) = es.map .expr := by
  induction es generalizing i with
  | nil => rfl
  | cons e es ih => exact congrArg _ (ih (i + 1))

theorem Spot.map_node_stmts (p : Path) (i : Nat) (Γ : Context) (ss : List ResolvedStmt) :
    (Spot.stmts p i Γ ss).map (·.node) = ss.map .stmt := by
  induction ss generalizing i Γ with
  | nil => rfl
  | cons s ss ih => exact congrArg _ (ih (i + 1) _)

theorem Spot.map_node_methods (p : Path) (i : Nat) (Γ : Context) (ms : List ResolvedMethod) :
    (Spot.methods p i Γ ms).map (·.node) = ms.flatMap fun m => m.body.map .stmt := by
  induction ms generalizing i with
  | nil => rfl
  | cons m ms ih => rw [Spot.methods, List.map_append, Spot.map_node_stmts, ih]; rfl

/-- The spots directly inside a spot are those of the nodes directly inside its node. -/
theorem Spot.map_node_children (x : Spot) : x.children.map (·.node) = x.node.children := by
  obtain ⟨p, Γ, n⟩ := x
  match n with
  | .expr (.call callee paren arguments) =>
    simp [Spot.children, Spot.parts, Spot.bodies, Node.children, Spot.map_node_exprs]
  | .expr (.function name params body) =>
    rw [Spot.children_literal, Spot.map_node_stmts]
    rfl
  | .stmt (.block body) =>
    rw [Spot.children_block, Spot.map_node_stmts]
    rfl
  | .stmt (.functionDecl name params body) =>
    rw [Spot.children_functionDecl, Spot.map_node_stmts]
    rfl
  | .stmt (.classDecl name methods) =>
    rw [Spot.children_classDecl, Spot.map_node_methods]
    rfl
  | .stmt (.ifElse condition yes no) => cases no <;> rfl
  | .stmt (.loop condition body increment) => cases increment <;> rfl
  | .stmt (.varDecl name value) => cases value <;> rfl
  | .stmt (.returnFrom keyword value) => cases value <;> rfl
  | .expr (.literal _) => rfl
  | .expr (.grouping _) => rfl
  | .expr (.unary _ _) => rfl
  | .expr (.binary _ _ _) => rfl
  | .expr (.logical _ _ _) => rfl
  | .expr (.variable _ _) => rfl
  | .expr (.assign _ _ _ _) => rfl
  | .expr (.get _ _) => rfl
  | .expr (.set _ _ _ _) => rfl
  | .expr (.this _ _) => rfl
  | .stmt (.expression _) => rfl
  | .stmt (.print _) => rfl
  | .stmt (.breakLoop _) => rfl
  | .stmt (.continueLoop _) => rfl

theorem Node.Every.throughout {P : Node (Option Nat) → Prop} {x : Spot} (h : x.node.Every P) :
    x.Throughout fun y => P y.node := by
  intro y hy
  suffices hevery : y.node.Every P from hevery.here
  induction hy with
  | refl => exact h
  | @tail y z _ hz ih =>
    refine ih.inside ?_
    rw [← Spot.map_node_children]
    exact List.mem_map_of_mem hz

/-- A resolved node comes from a node that is resolved in some state of the walk. -/
def Node.Resolves (n : Node Unit) (m : Node (Option Nat)) : Prop := ∃ w, m = (n.resolve w).1

/-- Resolved nodes that come each from one of some nodes. -/
def Node.From (ns : List (Node Unit)) (ms : List (Node (Option Nat))) : Prop :=
  ∀ m ∈ ms, ∃ n ∈ ns, n.Resolves m

namespace Node.From
variable {n : Node Unit} {ns ns' : List (Node Unit)} {m : Node (Option Nat)}
  {ms ms' : List (Node (Option Nat))}

theorem nil : From ns [] := List.forall_mem_nil _

theorem cons (h : n.Resolves m) (hs : From ns ms) : From (n :: ns) (m :: ms) := by
  intro m' hm'
  rcases List.mem_cons.mp hm' with rfl | htail
  · exact ⟨n, List.mem_cons_self, h⟩
  · obtain ⟨n', hn', hresolves⟩ := hs m' htail
    exact ⟨n', List.mem_cons_of_mem _ hn', hresolves⟩

theorem one (h : n.Resolves m) : From [n] [m] := cons h nil

theorem append (h : From ns ms) (h' : From ns' ms') : From (ns ++ ns') (ms ++ ms') := by
  intro m hm
  rcases List.mem_append.mp hm with hleft | hright
  · obtain ⟨n, hn, hresolves⟩ := h m hleft
    exact ⟨n, List.mem_append_left _ hn, hresolves⟩
  · obtain ⟨n, hn, hresolves⟩ := h' m hright
    exact ⟨n, List.mem_append_right _ hn, hresolves⟩

end Node.From

theorem Node.resolve_expr (e : RawExpr) (w : Walk) :
    ((Node.expr e).resolve w).1 = .expr (e.resolve w).1 := rfl

theorem Node.resolve_stmt (s : RawStmt) (w : Walk) :
    ((Node.stmt s).resolve w).1 = .stmt (s.resolve w).1 := rfl

theorem Expr.resolves (e : RawExpr) (w : Walk) : (Node.expr e).Resolves (.expr (e.resolve w).1) :=
  ⟨w, rfl⟩

theorem Stmt.resolves (s : RawStmt) (w : Walk) : (Node.stmt s).Resolves (.stmt (s.resolve w).1) :=
  ⟨w, rfl⟩

theorem Expr.from_resolveAll (es : List RawExpr) (w : Walk) :
    Node.From (es.map .expr) ((Expr.resolveAll es w).1.map .expr) := by
  induction es generalizing w with
  | nil => exact .nil
  | cons e es ih => exact .cons (e.resolves w) (ih _)

theorem Stmt.from_resolveAll (ss : List RawStmt) (w : Walk) :
    Node.From (ss.map .stmt) ((Stmt.resolveAll ss w).1.map .stmt) := by
  induction ss generalizing w with
  | nil => exact .nil
  | cons s ss ih => exact .cons (s.resolves w) (ih _)

theorem Method.from_resolveAll (ms : List RawMethod) (w : Walk) :
    Node.From (ms.flatMap fun m => m.body.map .stmt)
      ((Method.resolveAll ms w).1.flatMap fun m => m.body.map .stmt) := by
  induction ms generalizing w with
  | nil => exact .nil
  | cons method ms ih =>
    obtain ⟨name, params, body⟩ := method
    exact .append (Stmt.from_resolveAll body _) (ih _)

/-- What is inside a resolved node comes from what is inside the node. -/
theorem Node.children_resolve (n : Node Unit) (w : Walk) :
    From n.children (n.resolve w).1.children := by
  match n with
  | .expr (.literal _) => exact .nil
  | .expr (.grouping inner) => exact .one (inner.resolves w)
  | .expr (.unary _ right) => exact .one (right.resolves w)
  | .expr (.binary left _ right) => exact .cons (left.resolves w) (.one (right.resolves _))
  | .expr (.logical left _ right) => exact .cons (left.resolves w) (.one (right.resolves _))
  | .expr (.variable name mark) =>
    rw [Node.resolve_expr, (Expr.resolve_variable name mark w).1]
    exact .nil
  | .expr (.assign _ _ value _) => exact .one (value.resolves w)
  | .expr (.call callee _ arguments) =>
    exact .cons (callee.resolves w) (Expr.from_resolveAll arguments _)
  | .expr (.get object _) => exact .one (object.resolves w)
  | .expr (.set object _ _ value) => exact .cons (object.resolves _) (.one (value.resolves w))
  | .expr (.this keyword mark) =>
    rw [Node.resolve_expr, (Expr.resolve_this keyword mark w).1]
    exact .nil
  | .expr (.function none _ body) => exact Stmt.from_resolveAll body _
  | .expr (.function (some _) _ body) => exact Stmt.from_resolveAll body _
  | .stmt (.expression value) => exact .one (value.resolves w)
  | .stmt (.print value) => exact .one (value.resolves w)
  | .stmt (.varDecl _ none) => exact .nil
  | .stmt (.varDecl _ (some value)) => exact .one (value.resolves _)
  | .stmt (.block body) => exact Stmt.from_resolveAll body _
  | .stmt (.ifElse condition yes none) => exact .cons (condition.resolves w) (.one (yes.resolves _))
  | .stmt (.ifElse condition yes (some no)) =>
    exact .cons (condition.resolves w) (.cons (yes.resolves _) (.one (no.resolves _)))
  | .stmt (.loop condition body none) =>
    exact .cons (condition.resolves w) (.one (body.resolves _))
  | .stmt (.loop condition body (some increment)) =>
    exact .cons (condition.resolves w) (.cons (body.resolves _) (.one (increment.resolves _)))
  | .stmt (.breakLoop keyword) =>
    rw [Node.resolve_stmt, Stmt.resolve_breakLoop]
    exact .nil
  | .stmt (.continueLoop keyword) =>
    rw [Node.resolve_stmt, Stmt.resolve_continueLoop]
    exact .nil
  | .stmt (.returnFrom keyword none) =>
    rw [Node.resolve_stmt, Stmt.resolve_returnNothing]
    exact .nil
  | .stmt (.returnFrom keyword (some value)) =>
    obtain ⟨w', h⟩ := Stmt.resolve_returnValue keyword value w
    rw [Node.resolve_stmt, h]
    exact .one (value.resolves w')
  | .stmt (.functionDecl _ _ body) => exact Stmt.from_resolveAll body _
  | .stmt (.classDecl _ methods) => exact Method.from_resolveAll methods _

theorem Node.Shaped.resolve {n : Node Unit} (h : n.Shaped) (w : Walk) : (n.resolve w).1.Shaped := by
  match n with
  | .expr (.literal _) => trivial
  | .expr (.grouping _) => trivial
  | .expr (.unary _ _) => trivial
  | .expr (.binary _ _ _) => exact h
  | .expr (.logical _ _ _) => trivial
  | .expr (.variable name mark) =>
    rw [Node.resolve_expr, (Expr.resolve_variable name mark w).1]
    trivial
  | .expr (.assign _ none _ _) => trivial
  | .expr (.assign _ (some _) _ _) => exact h
  | .expr (.call _ _ _) => trivial
  | .expr (.get _ _) => trivial
  | .expr (.set _ _ none _) => trivial
  | .expr (.set _ _ (some _) _) => exact h
  | .expr (.this keyword mark) =>
    rw [Node.resolve_expr, (Expr.resolve_this keyword mark w).1]
    exact h
  | .expr (.function none _ _) => trivial
  | .expr (.function (some _) _ _) => trivial
  | .stmt (.expression _) => trivial
  | .stmt (.print _) => trivial
  | .stmt (.varDecl _ none) => exact h
  | .stmt (.varDecl _ (some _)) => exact h
  | .stmt (.block _) => trivial
  | .stmt (.ifElse condition yes none) =>
    exact ⟨(Stmt.declares_resolve _ yes).trans h.1, fun s hs => by cases hs⟩
  | .stmt (.ifElse condition yes (some no)) =>
    refine ⟨(Stmt.declares_resolve _ yes).trans h.1, fun s hs => ?_⟩
    cases hs
    exact (Stmt.declares_resolve _ no).trans (h.2 no rfl)
  | .stmt (.loop condition body none) => exact (Stmt.declares_resolve _ body).trans h
  | .stmt (.loop condition body (some increment)) => exact (Stmt.declares_resolve _ body).trans h
  | .stmt (.breakLoop keyword) =>
    rw [Node.resolve_stmt, Stmt.resolve_breakLoop]
    trivial
  | .stmt (.continueLoop keyword) =>
    rw [Node.resolve_stmt, Stmt.resolve_continueLoop]
    trivial
  | .stmt (.returnFrom keyword none) =>
    rw [Node.resolve_stmt, Stmt.resolve_returnNothing]
    trivial
  | .stmt (.returnFrom keyword (some value)) =>
    obtain ⟨w', h⟩ := Stmt.resolve_returnValue keyword value w
    rw [Node.resolve_stmt, h]
    trivial
  | .stmt (.functionDecl _ _ _) => trivial
  | .stmt (.classDecl _ _) => trivial

/-- Resolution keeps the shape of trees. -/
theorem Node.Every.resolve {n : Node Unit} (h : n.Every Node.Shaped) (w : Walk) :
    (n.resolve w).1.Every Node.Shaped := by
  induction h generalizing w with
  | mk here inside ih =>
    refine .mk (here.resolve w) fun m hm => ?_
    obtain ⟨n', hn', w', rfl⟩ := Node.children_resolve _ w m hm
    exact ih n' hn' w'

/-- Reserved words are what their kinds say. -/
structure Token.Worded (t : Token) : Prop where
  this : t.kind = .kwThis → t.lexeme = receiverName
  name : t.kind = .identifier → t.lexeme ≠ receiverName

theorem Grammar.Derives.suffix {s : Symbol} {ts rest : List Token} {tree : s.Tree}
    (h : Derives s ts tree rest) : rest <:+ ts := by
  induction h <;> grind [List.IsSuffix.trans, List.suffix_cons]

/-- What holds of all tokens holds of those that a phrase leaves. -/
theorem Grammar.Derives.forall_rest {P : Token → Prop} {s : Symbol} {ts rest : List Token}
    {tree : s.Tree} (h : Derives s ts tree rest) (hts : ∀ t ∈ ts, P t) : ∀ t ∈ rest, P t :=
  fun t ht => hts t (h.suffix.subset ht)

/-- The trees of a symbol have a shape. -/
def Grammar.Symbol.Shaped : (s : Symbol) → s.Tree → Prop
  | .expr _, e => (Node.expr e).Every Node.Shaped
  | .option, value => ∀ e ∈ value, (Node.expr e).Every Node.Shaped
  | .argumentList, es => ∀ e ∈ es, (Node.expr e).Every Node.Shaped
  | .arguments, es => ∀ e ∈ es, (Node.expr e).Every Node.Shaped
  | .parameterList, _ => True
  | .parameters, _ => True
  | .block, body => ∀ s ∈ body, (Node.stmt s).Every Node.Shaped
  | .routine, (_, body) => ∀ s ∈ body, (Node.stmt s).Every Node.Shaped
  | .methods, ms => ∀ m ∈ ms, ∀ s ∈ m.body, (Node.stmt s).Every Node.Shaped
  | .varDecl, s => (Node.stmt s).Every Node.Shaped
  | .exprStmt, s => (Node.stmt s).Every Node.Shaped ∧ s.declares = []
  | .forStart, start => ∀ s ∈ start, (Node.stmt s).Every Node.Shaped
  | .statement _, s => (Node.stmt s).Every Node.Shaped ∧ s.declares = []
  | .declaration, s => (Node.stmt s).Every Node.Shaped
  | .declarations, body => ∀ s ∈ body, (Node.stmt s).Every Node.Shaped

theorem Grammar.Tier.isOperator_of_mem {l : Tier} (hor : l ≠ .or) (hand : l ≠ .and) :
    ∀ kind ∈ l.operators, kind = .comma ∨ kind.isOperator := by
  cases l <;> first | decide | contradiction

theorem shaped_node {l : Tier} {left right : RawExpr} {operator : Token}
    (hsign : operator.kind ∈ l.operators) (hleft : (Node.expr left).Every Node.Shaped)
    (hright : (Node.expr right).Every Node.Shaped) :
    (Node.expr (l.node left operator right)).Every Node.Shaped := by
  cases l with
  | or => exact .two trivial hleft hright rfl
  | and => exact .two trivial hleft hright rfl
  | _ => exact .two (Tier.isOperator_of_mem (by decide) (by decide) _ hsign) hleft hright rfl

theorem compound_eq {sign : Token} (h : sign.kind ∈ signs) :
    compound sign = none ∨ (compound sign = some sign ∧ sign.kind.compound?.isSome) := by
  revert h
  unfold compound
  generalize sign.kind = kind
  cases kind <;> simp [signs, Kind.compound?]

theorem shaped_forTree {initializer : Option RawStmt} {condition increment : Option RawExpr}
    {body : RawStmt} (hinitializer : ∀ s ∈ initializer, (Node.stmt s).Every Node.Shaped)
    (hcondition : ∀ e ∈ condition, (Node.expr e).Every Node.Shaped)
    (hincrement : ∀ e ∈ increment, (Node.expr e).Every Node.Shaped)
    (hbody : (Node.stmt body).Every Node.Shaped) (hdeclares : body.declares = []) :
    (Node.stmt (forTree initializer condition increment body)).Every Node.Shaped ∧
      (forTree initializer condition increment body).declares = [] := by
  have htest : (Node.expr (condition.getD (.literal (.bool true)))).Every Node.Shaped := by
    cases condition with
    | none => exact .leaf trivial rfl
    | some e => exact hcondition e rfl
  have hsteps : ∀ m ∈ increment.toList.map Node.expr, m.Every Node.Shaped := by
    intro m hm
    obtain ⟨e, he, rfl⟩ := List.mem_map.mp hm
    exact hincrement e (Option.mem_toList.mp he)
  have hloop : (Node.stmt (.loop (condition.getD (.literal (.bool true))) body increment)).Every
      Node.Shaped :=
    .mk hdeclares (List.forall_mem_cons.mpr ⟨htest, List.forall_mem_cons.mpr ⟨hbody, hsteps⟩⟩)
  cases initializer with
  | none => exact ⟨hloop, hdeclares⟩
  | some first => exact ⟨.two trivial (hinitializer first rfl) hloop rfl, rfl⟩

theorem every_stmts {body : List RawStmt} (h : ∀ s ∈ body, (Node.stmt s).Every Node.Shaped) :
    ∀ m ∈ body.map Node.stmt, m.Every Node.Shaped := by
  intro m hm
  obtain ⟨s, hs, rfl⟩ := List.mem_map.mp hm
  exact h s hs

theorem shaped_compound {sign : Token} {f : Option Token → RawExpr}
    (hsigned : sign.kind ∈ signs) (hnone : (Node.expr (f none)).Every Node.Shaped)
    (hsome : sign.kind.compound?.isSome → (Node.expr (f (some sign))).Every Node.Shaped) :
    (Node.expr (f (compound sign))).Every Node.Shaped := by
  rcases compound_eq hsigned with hplain | ⟨hcompound, hsign⟩
  · rwa [hplain]
  · rw [hcompound]
    exact hsome hsign

/-- What is derived from words has the shape of programs. -/
theorem Grammar.Derives.shaped {s : Symbol} {ts rest : List Token} {tree : s.Tree}
    (h : Derives s ts tree rest) : (∀ t ∈ ts, t.Worded) → s.Shaped tree := by
  -- A later part stands in what an earlier one leaves, so its tokens are words as well.
  induction h with
  | pass _ _ ih => exact ih
  | chain first sign _ ihfirst ihsecond =>
    intro hts
    obtain ⟨-, hmid⟩ := List.forall_mem_cons.mp (first.forall_rest hts)
    exact shaped_node sign (ihfirst hts) (ihsecond hmid)
  | assignName _ signed _ ih =>
    intro hts
    obtain ⟨-, -, hts⟩ := by simpa only [List.forall_mem_cons] using hts
    exact shaped_compound (f := (.assign _ · _ ())) signed (.one trivial (ih hts) rfl)
      fun hsign => .one hsign (ih hts) rfl
  | assignField target _ _ signed _ ihtarget ih =>
    intro hts
    obtain ⟨-, -, -, hmid⟩ := by simpa only [List.forall_mem_cons] using target.forall_rest hts
    exact shaped_compound (f := (.set _ _ · _)) signed
      (.two trivial (ihtarget hts) (ih hmid) rfl)
      fun hsign => .two hsign (ihtarget hts) (ih hmid) rfl
  | unary _ _ ih => exact fun hts => .one trivial (ih (List.forall_mem_cons.mp hts).2) rfl
  | call called _ _ _ ihcalled ihgiven =>
    intro hts
    have hgiven := ihgiven (List.forall_mem_cons.mp (called.forall_rest hts)).2
    refine .mk trivial (List.forall_mem_cons.mpr ⟨ihcalled hts, fun m hm => ?_⟩)
    obtain ⟨e, he, rfl⟩ := List.mem_map.mp hm
    exact hgiven e he
  | get _ _ _ ih => exact fun hts => .one trivial (ih hts) rfl
  | constant _ => exact fun _ => .leaf trivial rfl
  | this keyword => exact fun hts => .leaf ((hts _ List.mem_cons_self).this keyword) rfl
  | name _ => exact fun _ => .leaf trivial rfl
  | grouping _ _ _ ih => exact fun hts => .one trivial (ih (List.forall_mem_cons.mp hts).2) rfl
  | function _ _ ih => exact fun hts => .mk trivial (every_stmts (ih (List.forall_mem_cons.mp hts).2))
  | namedFunction _ _ _ ih =>
    intro hts
    obtain ⟨-, -, hts⟩ := by simpa only [List.forall_mem_cons] using hts
    exact .mk trivial (every_stmts (ih hts))
  | noExpr => exact fun _ e he => by cases he
  | someExpr _ ih =>
    intro hts e he
    cases he
    exact ih hts
  | argument _ ih => exact fun hts => List.forall_mem_singleton.mpr (ih hts)
  | moreArguments front _ _ ihfront ihlast =>
    intro hts
    have hlast := ihlast (List.forall_mem_cons.mp (front.forall_rest hts)).2
    exact List.forall_mem_append.mpr ⟨ihfront hts, List.forall_mem_singleton.mpr hlast⟩
  | noArguments => exact fun _ => List.forall_mem_nil _
  | someArguments _ _ ih => exact ih
  | parameter _ => exact fun _ => trivial
  | moreParameters _ _ _ _ => exact fun _ => trivial
  | noParameters => exact fun _ => trivial
  | someParameters _ _ _ => exact fun _ => trivial
  | block _ _ _ ih => exact fun hts => ih (List.forall_mem_cons.mp hts).2
  | routine _ given _ _ _ ih =>
    intro hts
    have hmid := given.forall_rest (List.forall_mem_cons.mp hts).2
    exact ih (List.forall_mem_cons.mp hmid).2
  | noMethods => exact fun _ => List.forall_mem_nil _
  | moreMethods _ first _ ihfirst ihothers =>
    intro hts
    obtain ⟨-, hts⟩ := List.forall_mem_cons.mp hts
    exact List.forall_mem_cons.mpr ⟨ihfirst hts, ihothers (first.forall_rest hts)⟩
  | exprStmt _ _ ih => exact fun hts => ⟨.one trivial (ih hts) rfl, rfl⟩
  | varDecl _ named _ =>
    exact fun hts => .leaf ((hts _ (List.mem_cons_of_mem _ List.mem_cons_self)).name named) rfl
  | varDeclWith _ named _ _ _ ih =>
    intro hts
    obtain ⟨-, hname, -, hts⟩ := by simpa only [List.forall_mem_cons] using hts
    exact .one (hname.name named) (ih hts) rfl
  | forNothing _ => exact fun _ s hs => by cases hs
  | forVar _ ih =>
    intro hts s hs
    cases hs
    exact ih hts
  | forExpr _ ih =>
    intro hts s hs
    cases hs
    exact (ih hts).1
  | expression _ ih => exact ih
  | blockStmt _ ih => exact fun hts => ⟨.mk trivial (every_stmts (ih hts)), rfl⟩
  | print _ _ _ ih =>
    exact fun hts => ⟨.one trivial (ih (List.forall_mem_cons.mp hts).2) rfl, rfl⟩
  | @returnStmt _ _ _ value _ _ _ _ _ ih =>
    intro hts
    have hvalue := ih (List.forall_mem_cons.mp hts).2
    cases value with
    | none => exact ⟨.leaf trivial rfl, rfl⟩
    | some e => exact ⟨.one trivial (hvalue e rfl) rfl, rfl⟩
  | breakStmt _ _ => exact fun _ => ⟨.leaf trivial rfl, rfl⟩
  | continueStmt _ _ => exact fun _ => ⟨.leaf trivial rfl, rfl⟩
  | whileStmt _ _ condition _ _ ihcondition ihbody =>
    intro hts
    obtain ⟨-, -, hts⟩ := by simpa only [List.forall_mem_cons] using hts
    obtain ⟨-, hmid⟩ := List.forall_mem_cons.mp (condition.forall_rest hts)
    obtain ⟨hbody, hdeclares⟩ := ihbody hmid
    exact ⟨.two hdeclares (ihcondition hts) hbody rfl, hdeclares⟩
  | forStmt _ _ start test _ step _ _ ihstart ihtest ihstep ihbody =>
    intro hts
    obtain ⟨-, -, hts⟩ := by simpa only [List.forall_mem_cons] using hts
    have htest := start.forall_rest hts
    obtain ⟨-, hstep⟩ := List.forall_mem_cons.mp (test.forall_rest htest)
    obtain ⟨-, hmid⟩ := List.forall_mem_cons.mp (step.forall_rest hstep)
    obtain ⟨hbody, hdeclares⟩ := ihbody hmid
    exact shaped_forTree (ihstart hts) (ihtest htest) (ihstep hstep) hbody hdeclares
  | ifStmt _ _ condition _ _ ihcondition ihyes =>
    intro hts
    obtain ⟨-, -, hts⟩ := by simpa only [List.forall_mem_cons] using hts
    obtain ⟨-, hmid⟩ := List.forall_mem_cons.mp (condition.forall_rest hts)
    obtain ⟨hyes, hdeclares⟩ := ihyes hmid
    exact ⟨.two ⟨hdeclares, fun s hs => by cases hs⟩ (ihcondition hts) hyes rfl, hdeclares⟩
  | ifElseStmt _ _ condition _ first _ _ ihcondition ihfirst ihsecond =>
    intro hts
    obtain ⟨-, -, hts⟩ := by simpa only [List.forall_mem_cons] using hts
    obtain ⟨-, hfirst⟩ := List.forall_mem_cons.mp (condition.forall_rest hts)
    obtain ⟨-, hsecond⟩ := List.forall_mem_cons.mp (first.forall_rest hfirst)
    obtain ⟨hyes, hnone⟩ := ihfirst hfirst
    obtain ⟨hno, hnone'⟩ := ihsecond hsecond
    refine ⟨.mk ⟨hnone, fun s hs => ?_⟩ ?_, by rw [Stmt.declares, hnone, hnone']; rfl⟩
    · cases hs
      exact hnone'
    · exact List.forall_mem_cons.mpr ⟨ihcondition hts,
        List.forall_mem_cons.mpr ⟨hyes, List.forall_mem_singleton.mpr hno⟩⟩
  | classDecl _ _ _ _ _ ih =>
    intro hts
    obtain ⟨-, -, -, hts⟩ := by simpa only [List.forall_mem_cons] using hts
    refine .mk trivial fun n hn => ?_
    obtain ⟨m, hm, hbody⟩ := List.mem_flatMap.mp hn
    exact every_stmts (ih hts m hm) n hbody
  | funDecl _ _ _ ih =>
    intro hts
    obtain ⟨-, -, hts⟩ := by simpa only [List.forall_mem_cons] using hts
    exact .mk trivial (every_stmts (ih hts))
  | variableDecl _ ih => exact ih
  | statement _ _ ih => exact fun hts => (ih hts).1
  | noDeclarations => exact fun _ => List.forall_mem_nil _
  | moreDeclarations first _ ihfirst ihothers =>
    exact fun hts => List.forall_mem_cons.mpr ⟨ihfirst hts, ihothers (first.forall_rest hts)⟩

end LoxScript
