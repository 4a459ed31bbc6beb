import LoxScript.Proofs.Regime
import LoxScript.Proofs.Watch

/-!
A watched walk sees every spot of the program that it resolves, and its stack of scopes is then the
context of the spot.
-/
namespace LoxScript

open Resolve Scope

/-- The spots of the bodies of some methods, the first of them being child `i` of a class. -/
def Spot.methods (p : Path) (i : Nat) (Γ : Context) : List ResolvedMethod → List Spot
  | [] => []
  | m :: ms => Spot.stmts (i :: p) 0 (Γ.method (i :: p) m) m.body ++ methods p (i + 1) Γ ms

/-- A walk came to a spot, and its stack was the context of the spot. -/
structure Sighting.Shows (g : Sighting) (x : Spot) : Prop where
  path : g.path = x.path
  node : (g.node.resolve g.walk).1 = x.node
  scopes : g.walk.scopes = x.context.map (·.scope)
  sites : g.sites = x.context.map (·.site)

namespace Lookout

/-- The stack of a walk is a context. -/
structure Stands (l : Lookout) (Γ : Context) : Prop where
  scopes : l.walk.scopes = Γ.map (·.scope)
  sites : l.sites = Γ.map (·.site)

/-- A walk came to a spot, and has kept the faults that it found there. -/
def Saw (l : Lookout) (x : Spot) : Prop :=
  ∃ g ∈ l.sightings, g.Shows x ∧ (g.node.resolve g.walk).2.faults <:+ l.walk.faults

/-- A later state of a walk has all that an earlier one has. -/
structure Before (l l' : Lookout) : Prop where
  sightings : l.sightings ⊆ l'.sightings
  faults : l.walk.faults <:+ l'.walk.faults

theorem Before.refl (l : Lookout) : l.Before l := ⟨fun _ h => h, List.suffix_refl _⟩

theorem Before.trans {l l' l'' : Lookout} (h : l.Before l') (k : l'.Before l'') : l.Before l'' :=
  ⟨fun _ hg => k.sightings (h.sightings hg), h.faults.trans k.faults⟩

theorem Saw.mono {l l' : Lookout} {x : Spot} (hx : l.Saw x) (h : l.Before l') : l'.Saw x := by
  obtain ⟨g, hg, hshows, hfaults⟩ := hx
  exact ⟨g, h.sightings hg, hshows, hfaults.trans h.faults⟩

end Lookout

theorem Spot.Throughout.mono {h k : Spot → Prop} {x : Spot} (hx : x.Throughout h)
    (hk : ∀ y, h y → k y) : x.Throughout k := fun y hy => hk y (hx y hy)

theorem Spot.Throughout.node {h : Spot → Prop} {x : Spot} (hx : h x)
    (hc : ∀ y ∈ x.children, y.Throughout h) : x.Throughout h := by
  intro y hy
  rcases Relation.ReflTransGen.cases_head hy with rfl | ⟨z, hz, hzy⟩
  · exact hx
  · exact hc z hz y hzy

@[simp]
theorem Context.set_set (Γ : Context) (name : String) (b c : Bool) :
    (Γ.set name b).set name c = Γ.set name c := by
  cases Γ with
  | nil => rfl
  | cons e Γ => simp [Context.set]

@[simp]
theorem Context.scopes_sealed (Γ : Context) : Γ.sealed.map (·.scope) = Γ.map (·.scope) := by
  simp [Context.sealed, Layer.sealed, Function.comp_def]

@[simp]
theorem Context.sites_sealed (Γ : Context) : Γ.sealed.map (·.site) = Γ.map (·.site) := by
  simp [Context.sealed, Layer.sealed, Function.comp_def]

/-- A walk cannot tell whether it is inside a function. -/
theorem Lookout.stands_sealed {l : Lookout} {Γ : Context} : l.Stands Γ.sealed ↔ l.Stands Γ :=
  ⟨fun h => ⟨by simpa using h.scopes, by simpa using h.sites⟩,
    fun h => ⟨by simpa using h.scopes, by simpa using h.sites⟩⟩

theorem Resolve.define_run (name : Token) (w : Walk) :
    (define name w).2 = { w with scopes := w.scopes.modifyHead (·.set name.lexeme true) } := by
  obtain ⟨scopes, role, inClass, loops, faults, references⟩ := w
  cases scopes <;> rfl

namespace Watch

/-- A step leads to a context, and has then seen some spots that depend on its result. -/
structure Shows {α : Type} (Γ : Context) (l : Lookout) (spots : α → List Spot) (c : Watch α) :
    Prop where
  stands : (c l).2.Stands Γ
  before : l.Before (c l).2
  seen : ∀ x ∈ spots (c l).1, x.Throughout (c l).2.Saw

namespace Shows
variable {α β : Type} {Γ Δ : Context} {l : Lookout} {spots : α → List Spot}
  {others : β → List Spot} {c : Watch α}

theorem pure {a : α} (hS : l.Stands Γ) (hseen : ∀ x ∈ spots a, x.Throughout l.Saw) :
    Shows Γ l spots (Pure.pure a) := ⟨hS, .refl l, hseen⟩

theorem bind {k : α → Watch β} (hc : Shows Γ l spots c)
    (hk : ∀ a m, a = (c l).1 → m.Stands Γ → l.Before m →
      (∀ m', m.Before m' → ∀ x ∈ spots a, x.Throughout m'.Saw) → Shows Δ m others (k a)) :
    Shows Δ l others (c >>= k) := by
  have h := hk _ _ rfl hc.stands hc.before fun m' hm x hx => (hc.seen x hx).mono fun _ hy => hy.mono hm
  exact ⟨h.stands, hc.before.trans h.before, h.seen⟩

/-- A step of the walk that comes to no node. -/
theorem lift {r : Resolve α} (hscopes : (r l.walk).2.scopes = Γ.map (·.scope))
    (hsites : l.sites = Γ.map (·.site)) (hfaults : l.walk.faults <:+ (r l.walk).2.faults) :
    Shows Γ l (fun _ => []) (Watch.lift r) :=
  ⟨⟨hscopes, hsites⟩, ⟨fun _ h => h, hfaults⟩, fun _ h => by cases h⟩

theorem quiet {f : Walk → Walk} (hS : l.Stands Γ) (hscopes : ∀ w, (f w).scopes = w.scopes)
    (hfaults : ∀ w, (f w).faults = w.faults) :
    Shows Γ l (fun _ => []) (Watch.lift (modify f)) :=
  lift ((hscopes l.walk).trans hS.scopes) hS.sites
    ((hfaults l.walk).symm ▸ List.suffix_refl _)

/-- A node is seen once its children are. -/
theorem node {p : Path} {n : Node Unit} {wrap : α → Node (Option Nat)} {r : Resolve α}
    (he : Erases (Watch.sighting p n c) r) (hn : n.resolve = wrap <$> r) (hS : l.Stands Δ)
    (hc : ∀ m, m.Stands Δ → Shows Γ m (fun a => Spot.children ⟨p, Δ, wrap a⟩) c) :
    Shows Γ l (fun a => [⟨p, Δ, wrap a⟩]) (Watch.sighting p n c) := by
  have hstep := hc { l with sightings := ⟨p, n, l.walk, l.sites⟩ :: l.sightings }
    ⟨hS.scopes, hS.sites⟩
  have hbefore : l.Before (Watch.sighting p n c l).2 :=
    ⟨fun g hg => hstep.before.sightings (List.mem_cons_of_mem _ hg), hstep.before.faults⟩
  refine ⟨hstep.stands, hbefore, fun x hx => ?_⟩
  rw [List.mem_singleton.mp hx]
  have herase := he l
  refine .node ⟨⟨p, n, l.walk, l.sites⟩, hstep.before.sightings List.mem_cons_self,
    ⟨rfl, ?_, hS.scopes, hS.sites⟩, ?_⟩ hstep.seen
  · rw [hn]
    exact congrArg (fun y => wrap y.1) herase
  · rw [hn]
    exact (congrArg (fun y => y.2.faults) herase) ▸ List.suffix_refl _

theorem declare {name : Token} (hS : l.Stands Γ) :
    Shows (Γ.set name.lexeme false) l (fun _ => []) (Watch.lift (Resolve.declare name)) := by
  have hscopes := hS.scopes
  cases Γ with
  | nil =>
    have hw : Resolve.declare name l.walk = ((), l.walk) := by
      simp only [Resolve.declare, Bind.bind, StateT.bind, get, getThe, MonadStateOf.get, StateT.get,
        Pure.pure, hscopes, List.map_nil]
      rfl
    exact lift (by rw [hw, hscopes]; rfl) hS.sites (by simp only [hw, List.suffix_refl])
  | cons e Γ =>
    have hw : (Resolve.declare name l.walk).2.scopes = e.scope.set name.lexeme false :: Γ.map (·.scope) ∧
        l.walk.faults <:+ (Resolve.declare name l.walk).2.faults := by
      simp only [Resolve.declare, Bind.bind, StateT.bind, get, getThe, MonadStateOf.get, StateT.get,
        Pure.pure, hscopes, List.map_cons]
      by_cases hhas : e.scope.has name.lexeme
      · simp only [hhas, if_true]
        exact ⟨rfl, List.suffix_cons _ _⟩
      · simp only [hhas]
        exact ⟨rfl, List.suffix_refl _⟩
    exact lift hw.1 hS.sites hw.2

theorem define {name : Token} (hS : l.Stands Γ) :
    Shows (Γ.set name.lexeme true) l (fun _ => []) (Watch.lift (Resolve.define name)) := by
  have hw := Resolve.define_run name l.walk
  rw [hS.scopes] at hw
  have hfaults : l.walk.faults <:+ (Resolve.define name l.walk).2.faults := by
    simp only [hw, List.suffix_refl]
  cases Γ with
  | nil => exact lift (by rw [hw]; rfl) hS.sites hfaults
  | cons e Γ => exact lift (by rw [hw]; rfl) hS.sites hfaults

theorem declareDefine {name : Token} (hS : l.Stands Γ) {k : Watch β}
    (hk : ∀ m, m.Stands (Γ.set name.lexeme true) → Shows Δ m others k) :
    Shows Δ l others (do
      Watch.lift (Resolve.declare name)
      Watch.lift (Resolve.define name)
      k) := by
  refine bind (declare hS) fun _ m _ hM _ _ => bind (define hM) fun _ m' _ hM' _ _ => hk m' ?_
  rwa [Context.set_set] at hM'

theorem declareAll {names : List Token} (hS : l.Stands Γ) :
    Shows (Γ.declare (names.map (·.lexeme))) l (fun _ => [])
      (Watch.lift (Resolve.declareAll names)) := by
  induction names generalizing l Γ with
  | nil => exact lift hS.scopes hS.sites (List.suffix_refl _)
  | cons name names ih => exact declareDefine hS fun m hM => ih hM

theorem reading {k : Lookout → Watch β} (hk : Shows Γ l others (k l)) :
    Shows Γ l others (get >>= k) := ⟨hk.stands, hk.before, hk.seen⟩

theorem checked {q : Lookout → Prop} [DecidablePred q] {token : Token} {cause : Cause}
    {k : Watch β} (hS : l.Stands Γ) (hk : ∀ m, m.Stands Γ → Shows Δ m others k) :
    Shows Δ l others (do
      if q (← get) then Watch.lift (report token cause)
      k) := by
  refine reading ?_
  split
  · exact bind (lift (Γ := Γ) hS.scopes hS.sites (List.suffix_cons _ _)) fun _ m _ hM _ _ => hk m hM
  · exact hk l hS

/-- A step inside a scope of its own. What it adds to the scope is gone afterwards. -/
theorem inScope {e : Layer} (names : List String) (hS : l.Stands Γ)
    (hc : ∀ m, m.Stands (e :: Γ) → Shows (Context.declare (e :: Γ) names) m spots c) :
    Shows Γ l spots (Watch.inScope e.site e.scope c) := by
  have h := hc { l with
    walk := { l.walk with scopes := e.scope :: l.walk.scopes }
    sites := e.site :: l.sites } ⟨by simp [hS.scopes], by simp [hS.sites]⟩
  have hstands := h.stands
  rw [Context.declare_cons] at hstands
  refine ⟨⟨?_, ?_⟩, ⟨h.before.sightings, h.before.faults⟩, fun x hx => (h.seen x hx).mono ?_⟩
  · exact congrArg List.tail hstands.scopes
  · exact congrArg List.tail hstands.sites
  · exact fun y hy => hy

theorem inLoop (hS : l.Stands Δ) (hc : ∀ m, m.Stands Δ → Shows Γ m spots c) :
    Shows Γ l spots (Watch.inLoop c) := by
  refine bind (quiet hS (fun _ => rfl) fun _ => rfl) fun _ m _ hM _ _ => ?_
  refine bind (hc m hM) fun a m' _ hM' _ hseen => ?_
  refine bind (quiet hM' (fun _ => rfl) fun _ => rfl) fun _ m'' _ hM'' hb _ => ?_
  exact pure hM'' (hseen m'' hb)

/-- The body of a function is walked in the scope of its parameters. -/
theorem inFunction {p : Path} {params : List Token} {body : List RawStmt} {role : Role}
    {names : List String} (hS : l.Stands Γ)
    (hc : ∀ m, m.Stands (.body p (params.map (·.lexeme)) body :: Γ.sealed) →
      Shows (Context.declare (.body p (params.map (·.lexeme)) body :: Γ.sealed) names) m spots c) :
    Shows Γ l spots (Watch.inFunction (.body p (params.map (·.lexeme)) body) role params c) := by
  refine reading ?_
  refine bind (quiet (Lookout.stands_sealed.mpr hS) (fun _ => rfl) fun _ => rfl)
    fun _ m _ hM _ _ => ?_
  have hscope : Shows Γ.sealed m spots (Watch.inScope (.body p (params.map (·.lexeme)) body) [] do
      Watch.lift (Resolve.declareAll params)
      c) := by
    refine inScope (e := ⟨.body p (params.map (·.lexeme)) body, [], true⟩)
      (params.map (·.lexeme) ++ names) hM fun m hM => bind (declareAll hM) fun _ m _ hM _ _ => ?_
    rw [Context.declare_append]
    rw [Context.declare_cons] at hM ⊢
    exact hc m hM
  refine bind hscope fun a m _ hM _ hseen => ?_
  refine bind (quiet (Lookout.stands_sealed.mp hM) (fun _ => rfl) fun _ => rfl)
    fun _ m' _ hM' hb _ => ?_
  exact pure hM' (hseen m' hb)

theorem inClass {p : Path} {name : Token} (hS : l.Stands Γ)
    (hc : ∀ m, m.Stands (.receiver p :: (Γ.set name.lexeme true).sealed) →
      Shows (.receiver p :: (Γ.set name.lexeme true).sealed) m spots c) :
    Shows (Γ.set name.lexeme true) l spots (Watch.inClass (.receiver p) name c) := by
  refine reading ?_
  refine bind (quiet hS (fun _ => rfl) fun _ => rfl) fun _ m _ hM _ _ => ?_
  refine declareDefine hM fun m hM => ?_
  refine bind (inScope (e := .receiver p) [] (Lookout.stands_sealed.mpr hM) hc)
    fun a m _ hM _ hseen => ?_
  refine bind (quiet (Lookout.stands_sealed.mp hM) (fun _ => rfl) fun _ => rfl)
    fun _ m' _ hM' hb _ => ?_
  exact pure hM' (hseen m' hb)

end Shows
end Watch

/-- What a step of a walk leaves as it is. -/
structure Resolve.Leaves (w w' : Walk) : Prop where
  scopes : w'.scopes = w.scopes
  faults : w.faults <:+ w'.faults

theorem Resolve.refer_run (form : Form) (token : Token) (name : String) (w : Walk) :
    (refer form token name w).1 = distance? w.scopes name ∧
      Leaves w (refer form token name w).2 := by
  simp only [refer, Bind.bind, StateT.bind, get, getThe, MonadStateOf.get, StateT.get, Pure.pure]
  cases distance? w.scopes name with
  | none => exact ⟨rfl, rfl, List.suffix_refl _⟩
  | some d => exact ⟨rfl, rfl, List.suffix_refl _⟩

/-- A check may report a fault, and leaves the rest as it is. -/
theorem Resolve.check_run {α : Type} (q : Walk → Prop) [DecidablePred q] (token : Token)
    (cause : Cause) (k : Resolve α) (w : Walk) : ∃ faults, w.faults <:+ faults ∧
      (do if q (← get) then report token cause
          k : Resolve α) w = k { w with faults := faults } := by
  by_cases hq : q w
  · refine ⟨⟨token, cause⟩ :: w.faults, List.suffix_cons _ _, ?_⟩
    simp only [Bind.bind, StateT.bind, get, getThe, MonadStateOf.get, StateT.get, Pure.pure, hq,
      if_true]
    rfl
  · refine ⟨w.faults, List.suffix_refl _, ?_⟩
    simp only [Bind.bind, StateT.bind, get, getThe, MonadStateOf.get, StateT.get, Pure.pure, hq,
      if_false]

theorem Stmt.resolve_returnFrom (keyword : Token) (value : RawExpr) (w : Walk) :
    ∃ faults, w.faults <:+ faults ∧ (Stmt.returnFrom keyword (some value)).resolve w =
      (do return Stmt.returnFrom keyword (some (← value.resolve)) : Resolve ResolvedStmt)
        { w with faults := faults } := by
  obtain ⟨first, hfirst, htop⟩ := check_run (·.role = .topLevel) keyword .returnOutsideFunction (do
    if (← get).role = .initializer then report keyword .valueFromInitializer
    return Stmt.returnFrom keyword (some (← value.resolve))) w
  obtain ⟨second, hsecond, hinit⟩ := check_run (·.role = .initializer) keyword
    .valueFromInitializer (do return Stmt.returnFrom keyword (some (← value.resolve)))
    { w with faults := first }
  exact ⟨second, hfirst.trans hsecond, htop.trans hinit⟩

theorem Stmt.resolve_breakLoop (keyword : Token) (w : Walk) :
    ((Stmt.breakLoop keyword).resolve w).1 = .breakLoop keyword := by
  obtain ⟨faults, -, h⟩ := check_run (·.loops = 0) keyword .breakOutsideLoop
    (Pure.pure (Stmt.breakLoop keyword)) w
  exact congrArg Prod.fst h

theorem Stmt.resolve_continueLoop (keyword : Token) (w : Walk) :
    ((Stmt.continueLoop keyword).resolve w).1 = .continueLoop keyword := by
  obtain ⟨faults, -, h⟩ := check_run (·.loops = 0) keyword .continueOutsideLoop
    (Pure.pure (Stmt.continueLoop keyword)) w
  exact congrArg Prod.fst h

theorem Stmt.resolve_returnNothing (keyword : Token) (w : Walk) :
    ((Stmt.returnFrom keyword none).resolve w).1 = .returnFrom keyword none := by
  obtain ⟨faults, -, h⟩ := check_run (·.role = .topLevel) keyword .returnOutsideFunction
    (Pure.pure (Stmt.returnFrom keyword none)) w
  exact congrArg Prod.fst h

theorem Stmt.resolve_returnValue (keyword : Token) (value : RawExpr) (w : Walk) :
    ∃ w', ((Stmt.returnFrom keyword (some value)).resolve w).1 =
      .returnFrom keyword (some (value.resolve w').1) := by
  obtain ⟨faults, -, h⟩ := Stmt.resolve_returnFrom keyword value w
  exact ⟨_, congrArg Prod.fst h⟩

theorem Expr.resolve_variable (name : Token) (mark : Unit) (w : Walk) :
    ((Expr.variable name mark).resolve w).1 = .variable name (distance? w.scopes name.lexeme) ∧
      Leaves w ((Expr.variable name mark).resolve w).2 := by
  obtain ⟨faults, hfaults, hcheck⟩ := check_run (fun w => isPending w.scopes name.lexeme) name
    .readInInitializer (do return Expr.variable name (← refer .variable name name.lexeme)) w
  have hrefer := refer_run .variable name name.lexeme { w with faults := faults }
  have hrun : (Expr.variable name mark).resolve w =
      (.variable name (refer .variable name name.lexeme { w with faults := faults }).1,
        (refer .variable name name.lexeme { w with faults := faults }).2) := hcheck
  rw [hrun]
  exact ⟨congrArg _ hrefer.1, hrefer.2.scopes, hfaults.trans hrefer.2.faults⟩

theorem Expr.resolve_this (keyword : Token) (mark : Unit) (w : Walk) :
    ((Expr.this keyword mark).resolve w).1 =
        .this keyword (if w.inClass then distance? w.scopes receiverName else none) ∧
      Leaves w ((Expr.this keyword mark).resolve w).2 := by
  have hrun : (Expr.this keyword mark).resolve w =
      (if w.inClass then do return .this keyword (← refer .this keyword receiverName)
        else do
          report keyword .thisOutsideClass
          return .this keyword none : Resolve ResolvedExpr) w := rfl
  rw [hrun]
  by_cases hclass : w.inClass
  · have hrefer := refer_run .this keyword receiverName w
    simp only [hclass, if_true]
    exact ⟨congrArg _ hrefer.1, hrefer.2⟩
  · simp only [hclass]
    exact ⟨rfl, rfl, List.suffix_cons _ _⟩

theorem Expr.resolve_this_outside (keyword : Token) (mark : Unit) {w : Walk} (h : ¬ w.inClass) :
    ((Expr.this keyword mark).resolve w).2.faults = ⟨keyword, .thisOutsideClass⟩ :: w.faults := by
  have hrun : (Expr.this keyword mark).resolve w =
      (if w.inClass then do return .this keyword (← refer .this keyword receiverName)
        else do
          report keyword .thisOutsideClass
          return .this keyword none : Resolve ResolvedExpr) w := rfl
  rw [hrun, if_neg h]
  rfl

theorem Stmt.declares_resolve (w : Walk) : (s : RawStmt) → (s.resolve w).1.declares = s.declares
  | .ifElse c yes none => Stmt.declares_resolve _ yes
  | .ifElse c yes (some no) =>
    congrArg₂ (· ++ ·) (Stmt.declares_resolve _ yes) (Stmt.declares_resolve _ no)
  | .loop c body none => Stmt.declares_resolve _ body
  | .loop c body (some n) => Stmt.declares_resolve _ body
  | .expression _ => rfl
  | .print _ => rfl
  | .varDecl _ none => rfl
  | .varDecl _ (some _) => rfl
  | .block _ => rfl
  | .breakLoop keyword => by rw [Stmt.resolve_breakLoop]; rfl
  | .continueLoop keyword => by rw [Stmt.resolve_continueLoop]; rfl
  | .returnFrom keyword none => by rw [Stmt.resolve_returnNothing]; rfl
  | .returnFrom keyword (some value) => by
    obtain ⟨w', h⟩ := Stmt.resolve_returnValue keyword value w
    rw [h]
    rfl
  | .functionDecl _ _ _ => rfl
  | .classDecl _ _ => rfl

theorem declared_resolveAll (ss : List RawStmt) (w : Walk) :
    declared (Stmt.resolveAll ss w).1 = declared ss := by
  induction ss generalizing w with
  | nil => rfl
  | cons s ss ih => exact congrArg₂ (· ++ ·) (Stmt.declares_resolve w s) (ih _)

theorem Layer.body_congr {p : Path} {params : List String} {body : List RawStmt}
    {body' : List ResolvedStmt} (h : declared body' = declared body) :
    Layer.body p params body' = Layer.body p params body := by
  simp only [Layer.body, Site.body, h]

theorem Layer.block_congr {p : Path} {body : List RawStmt} {body' : List ResolvedStmt}
    (h : declared body' = declared body) : Layer.block p body' = Layer.block p body := by
  simp only [Layer.block, Site.block, h]

theorem Spot.children_block (p : Path) (Γ : Context) (body : List ResolvedStmt) :
    Spot.children ⟨p, Γ, .stmt (.block body)⟩ = Spot.stmts p 0 (.block p body :: Γ) body := by
  simp [Spot.children, Spot.parts, Spot.bodies]

theorem Spot.children_functionDecl (p : Path) (Γ : Context) (name : Token) (params : List Token)
    (body : List ResolvedStmt) : Spot.children ⟨p, Γ, .stmt (.functionDecl name params body)⟩ =
      Spot.stmts p 0
        (.body p (params.map (·.lexeme)) body :: (Γ.set name.lexeme true).sealed) body := by
  simp [Spot.children, Spot.parts, Spot.bodies]

theorem Spot.children_literal (p : Path) (Γ : Context) (name : Option Token) (params : List Token)
    (body : List ResolvedStmt) : Spot.children ⟨p, Γ, .expr (.function name params body)⟩ =
      Spot.stmts p 0 (Γ.literal p name params body) body := by
  simp [Spot.children, Spot.parts, Spot.bodies]

theorem Spot.children_classDecl (p : Path) (Γ : Context) (name : Token)
    (methods : List ResolvedMethod) : Spot.children ⟨p, Γ, .stmt (.classDecl name methods)⟩ =
      Spot.methods p 0 (Γ.set name.lexeme true) methods := by
  suffices h : ∀ i, (methods.mapIdx fun k m => ((i + k) :: p,
      (Γ.set name.lexeme true).method ((i + k) :: p) m, m.body)).flatMap
        (fun (p, Γ, body) => Spot.stmts p 0 Γ body) =
      Spot.methods p i (Γ.set name.lexeme true) methods by
    simpa [Spot.children, Spot.parts, Spot.bodies] using h 0
  induction methods with
  | nil => exact fun i => rfl
  | cons m ms ih =>
    intro i
    rw [List.mapIdx_cons, List.flatMap_cons, Spot.methods, ← ih (i + 1)]
    simp only [Nat.add_zero, Nat.add_assoc, Nat.add_comm 1]

/-- A step of the walk after which nothing is left to see. -/
theorem Watch.Shows.leaf {α : Type} {Γ : Context} {l : Lookout} {spots : α → List Spot}
    {r : Resolve α} (hS : l.Stands Γ) (hleaves : Leaves l.walk (r l.walk).2)
    (hspots : spots (r l.walk).1 = []) : (Watch.lift r).Shows Γ l spots := by
  refine ⟨⟨hleaves.scopes.trans hS.scopes, hS.sites⟩, ⟨fun _ h => h, hleaves.faults⟩, ?_⟩
  intro x hx
  rw [show (Watch.lift r l).1 = (r l.walk).1 from rfl, hspots] at hx
  cases hx

theorem Watch.Shows.leafRun {α : Type} {Γ : Context} {l : Lookout} {spots : α → List Spot}
    {r : Resolve α} {a : α} {faults : List Scope.Fault} (hS : l.Stands Γ)
    (hrun : r l.walk = (a, { l.walk with faults := faults })) (hfaults : l.walk.faults <:+ faults)
    (hspots : spots a = []) : (Watch.lift r).Shows Γ l spots := by
  refine .leaf hS ?_ ?_
  · rw [hrun]
    exact ⟨rfl, hfaults⟩
  · rw [hrun]
    exact hspots

mutual

/-- A walk over an expression sees all that is in it. -/
theorem Expr.watch_shows {p : Path} {Γ : Context} {l : Lookout} : (e : RawExpr) → l.Stands Γ →
    (e.watch p).Shows Γ l fun e' => [⟨p, Γ, .expr e'⟩]
  | .literal value, hS => .node (Expr.watch_erases p (.literal value)) rfl hS fun m hM =>
    .pure hM fun _ h => by cases h
  | .grouping inner, hS => .node (Expr.watch_erases p (.grouping inner)) rfl hS fun m hM =>
    .bind (inner.watch_shows hM) fun _ m _ hM _ hinner => .pure hM (hinner m (.refl m))
  | .unary operator right, hS =>
    .node (Expr.watch_erases p (.unary operator right)) rfl hS fun m hM =>
      .bind (right.watch_shows hM) fun _ m _ hM _ hright => .pure hM (hright m (.refl m))
  | .binary left operator right, hS =>
    .node (Expr.watch_erases p (.binary left operator right)) rfl hS fun m hM => by
      refine .bind (left.watch_shows hM) fun _ m _ hM _ hleft => ?_
      refine .bind (right.watch_shows hM) fun _ m' _ hM' hb hright => .pure hM' ?_
      exact List.forall_mem_cons.mpr ⟨hleft m' hb _ List.mem_cons_self, hright m' (.refl m')⟩
  | .logical left operator right, hS =>
    .node (Expr.watch_erases p (.logical left operator right)) rfl hS fun m hM => by
      refine .bind (left.watch_shows hM) fun _ m _ hM _ hleft => ?_
      refine .bind (right.watch_shows hM) fun _ m' _ hM' hb hright => .pure hM' ?_
      exact List.forall_mem_cons.mpr ⟨hleft m' hb _ List.mem_cons_self, hright m' (.refl m')⟩
  | .variable name mark, hS =>
    .node (Expr.watch_erases p (.variable name mark)) rfl hS fun m hM => by
      obtain ⟨hnode, hleaves⟩ := Expr.resolve_variable name mark m.walk
      exact .leaf hM hleaves (by rw [hnode]; rfl)
  | .assign name operator value mark, hS =>
    .node (Expr.watch_erases p (.assign name operator value mark)) rfl hS fun m hM => by
      refine .bind (value.watch_shows hM) fun _ m _ hM _ hvalue => ?_
      have hleaves := (refer_run .assign name name.lexeme m.walk).2
      exact .bind (.lift (hleaves.scopes.trans hM.scopes) hM.sites hleaves.faults)
        fun _ m' _ hM' hb _ => .pure hM' (hvalue m' hb)
  | .call callee paren arguments, hS =>
    .node (Expr.watch_erases p (.call callee paren arguments)) rfl hS fun m hM => by
      refine .bind (callee.watch_shows hM) fun _ m _ hM _ hcallee => ?_
      refine .bind (Expr.watchAll_shows 1 arguments hM) fun _ m' _ hM' hb harguments =>
        .pure hM' ?_
      simp only [Spot.children, Spot.parts, Spot.bodies, List.flatMap_nil, List.append_nil]
      exact List.forall_mem_cons.mpr ⟨hcallee m' hb _ List.mem_cons_self, harguments m' (.refl m')⟩
  | .get object name, hS => .node (Expr.watch_erases p (.get object name)) rfl hS fun m hM =>
    .bind (object.watch_shows hM) fun _ m _ hM _ hobject => .pure hM (hobject m (.refl m))
  | .set object name operator value, hS =>
    .node (Expr.watch_erases p (.set object name operator value)) rfl hS fun m hM => by
      refine .bind (value.watch_shows hM) fun _ m _ hM _ hvalue => ?_
      refine .bind (object.watch_shows hM) fun _ m' _ hM' hb hobject => .pure hM' ?_
      exact List.forall_mem_cons.mpr
        ⟨hobject m' (.refl m') _ List.mem_cons_self, hvalue m' hb⟩
  | .this keyword mark, hS => .node (Expr.watch_erases p (.this keyword mark)) rfl hS fun m hM => by
      obtain ⟨hnode, hleaves⟩ := Expr.resolve_this keyword mark m.walk
      exact .leaf hM hleaves (by rw [hnode]; rfl)
  | .function none params body, hS =>
    .node (Expr.watch_erases p (.function none params body)) rfl hS fun m hM => by
      refine .bind (.inFunction hM fun m hM => Stmt.watchAll_shows 0 body hM)
        fun body' m' hbody hM' _ hseen => .pure hM' ?_
      have hdeclared : declared body' = declared body := by
        rw [hbody, (Watch.Erases.inFunction _ _ _ (Stmt.watchAll_erases p 0 body)).result]
        exact declared_resolveAll body _
      simp only [Spot.children_literal, Context.literal, Layer.body_congr hdeclared]
      exact hseen m' (.refl m')
  | .function (some name) params body, hS =>
    .node (Expr.watch_erases p (.function (some name) params body)) rfl hS fun m hM => by
      refine .bind (.inScope (e := ⟨.literalName p name.lexeme, [], false⟩) [name.lexeme]
        (Lookout.stands_sealed.mpr hM) fun m hM => .declareDefine hM fun m hM =>
          .inFunction hM fun m hM => Stmt.watchAll_shows 0 body hM)
        fun body' m' hbody hM' _ hseen => .pure (Lookout.stands_sealed.mp hM') ?_
      have hdeclared : declared body' = declared body := by
        rw [hbody, (Watch.Erases.inScope _ _ (.bind (.lift _) fun _ => .bind (.lift _) fun _ =>
          .inFunction _ _ _ (Stmt.watchAll_erases p 0 body))).result]
        exact declared_resolveAll body _
      have hlayer : (Context.declare (⟨.literalName p name.lexeme, [], false⟩ :: Γ.sealed)
          [name.lexeme]).sealed = .literalName p name.lexeme :: Γ.sealed := by
        simp [Context.declare, Context.set, Layer.literalName, Layer.sealed, Bindings.set]
      simp only [Spot.children_literal, Context.literal, Layer.body_congr hdeclared, ← hlayer]
      exact hseen m' (.refl m')

theorem Expr.watchAll_shows {p : Path} {Γ : Context} {l : Lookout} (i : Nat) :
    (es : List RawExpr) → l.Stands Γ →
      (Expr.watchAll p i es).Shows Γ l fun es' => Spot.exprs p i Γ es'
  | [], hS => .pure hS fun _ h => by cases h
  | e :: es, hS => by
    refine .bind (e.watch_shows hS) fun _ m _ hM _ he => ?_
    refine .bind (Expr.watchAll_shows (i + 1) es hM) fun _ m' _ hM' hb hes => .pure hM' ?_
    exact List.forall_mem_cons.mpr ⟨he m' hb _ List.mem_cons_self, hes m' (.refl m')⟩

theorem Stmt.watch_shows {p : Path} {Γ : Context} {l : Lookout} : (s : RawStmt) → l.Stands Γ →
    (s.watch p).Shows (Γ.declare s.declares) l fun s' => [⟨p, Γ, .stmt s'⟩]
  | .expression value, hS =>
    .node (Stmt.watch_erases p (.expression value)) rfl hS fun m hM =>
      .bind (value.watch_shows hM) fun _ m _ hM _ hvalue => .pure hM (hvalue m (.refl m))
  | .print value, hS =>
    .node (Stmt.watch_erases p (.print value)) rfl hS fun m hM =>
      .bind (value.watch_shows hM) fun _ m _ hM _ hvalue => .pure hM (hvalue m (.refl m))
  | .varDecl name none, hS =>
    .node (Stmt.watch_erases p (.varDecl name none)) rfl hS fun m hM =>
      .declareDefine hM fun m hM => .pure hM fun _ h => by cases h
  | .varDecl name (some value), hS =>
    .node (Stmt.watch_erases p (.varDecl name (some value))) rfl hS fun m hM => by
      refine .bind (.declare hM) fun _ m _ hM _ _ => ?_
      refine .bind (value.watch_shows hM) fun _ m _ hM _ hvalue => ?_
      refine .bind (.define hM) fun _ m' _ hM' hb _ => .pure ?_ (hvalue m' hb)
      rwa [Context.set_set] at hM'
  | .block body, hS =>
    .node (Stmt.watch_erases p (.block body)) rfl hS fun m hM => by
      refine .bind (.inScope (e := .block p body) _ hM fun m hM => Stmt.watchAll_shows 0 body hM)
        fun body' m' hbody hM' _ hseen => .pure hM' ?_
      have hdeclared : declared body' = declared body := by
        rw [hbody, (Watch.Erases.inScope _ _ (Stmt.watchAll_erases p 0 body)).result]
        exact declared_resolveAll body _
      simp only [Spot.children_block, Layer.block_congr hdeclared]
      exact hseen m' (.refl m')
  | .ifElse condition yes none, hS =>
    .node (Stmt.watch_erases p (.ifElse condition yes none)) rfl hS fun m hM => by
      refine .bind (condition.watch_shows hM) fun _ m _ hM _ hcondition => ?_
      refine .bind (yes.watch_shows hM) fun _ m' _ hM' hb hyes => .pure hM' ?_
      exact List.forall_mem_cons.mpr ⟨hcondition m' hb _ List.mem_cons_self, hyes m' (.refl m')⟩
  | .ifElse condition yes (some no), hS =>
    .node (Stmt.watch_erases p (.ifElse condition yes (some no))) rfl hS fun m hM => by
      refine .bind (condition.watch_shows hM) fun _ m _ hM _ hcondition => ?_
      refine .bind (yes.watch_shows hM) fun yes' m' hyes' hM' hb hyes => ?_
      refine .bind (no.watch_shows hM') fun _ m'' _ hM'' hb' hno => .pure ?_ ?_
      · rwa [← Context.declare_append] at hM''
      · have hdeclares : yes'.declares = yes.declares := by
          rw [hyes', (Stmt.watch_erases _ yes).result]
          exact Stmt.declares_resolve _ yes
        refine List.forall_mem_cons.mpr ⟨hcondition m'' (hb.trans hb') _ List.mem_cons_self,
          List.forall_mem_cons.mpr ⟨hyes m'' hb' _ List.mem_cons_self, ?_⟩⟩
        simp only [hdeclares]
        exact hno m'' (.refl m'')
  | .loop condition body none, hS =>
    .node (Stmt.watch_erases p (.loop condition body none)) rfl hS fun m hM => by
      refine .bind (condition.watch_shows hM) fun _ m _ hM _ hcondition => ?_
      refine .bind (.inLoop hM fun m hM => body.watch_shows hM) fun _ m' _ hM' hb hbody =>
        .pure hM' ?_
      exact List.forall_mem_cons.mpr ⟨hcondition m' hb _ List.mem_cons_self, hbody m' (.refl m')⟩
  | .loop condition body (some increment), hS =>
    .node (Stmt.watch_erases p (.loop condition body (some increment))) rfl hS fun m hM => by
      refine .bind (condition.watch_shows hM) fun _ m _ hM _ hcondition => ?_
      refine .bind (.inLoop hM fun m hM => body.watch_shows hM) fun body' m' hbody' hM' hb hbody => ?_
      refine .bind (increment.watch_shows hM') fun _ m'' _ hM'' hb' hincrement => .pure hM'' ?_
      have hdeclares : body'.declares = body.declares := by
        rw [hbody', (Watch.Erases.inLoop (Stmt.watch_erases _ body)).result]
        exact Stmt.declares_resolve _ body
      refine List.forall_mem_cons.mpr ⟨hcondition m'' (hb.trans hb') _ List.mem_cons_self,
        List.forall_mem_cons.mpr ⟨hbody m'' hb' _ List.mem_cons_self, ?_⟩⟩
      simp only [hdeclares]
      exact hincrement m'' (.refl m'')
  | .breakLoop keyword, hS =>
    .node (Stmt.watch_erases p (.breakLoop keyword)) rfl hS fun m hM => by
      obtain ⟨faults, hfaults, hrun⟩ := check_run (·.loops = 0) keyword .breakOutsideLoop
        (Pure.pure (Stmt.breakLoop keyword)) m.walk
      exact .leafRun hM hrun hfaults rfl
  | .continueLoop keyword, hS =>
    .node (Stmt.watch_erases p (.continueLoop keyword)) rfl hS fun m hM => by
      obtain ⟨faults, hfaults, hrun⟩ := check_run (·.loops = 0) keyword .continueOutsideLoop
        (Pure.pure (Stmt.continueLoop keyword)) m.walk
      exact .leafRun hM hrun hfaults rfl
  | .returnFrom keyword none, hS =>
    .node (Stmt.watch_erases p (.returnFrom keyword none)) rfl hS fun m hM => by
      obtain ⟨faults, hfaults, hrun⟩ := check_run (·.role = .topLevel) keyword
        .returnOutsideFunction (Pure.pure (Stmt.returnFrom keyword none)) m.walk
      exact .leafRun hM hrun hfaults rfl
  | .returnFrom keyword (some value), hS =>
    .node (Stmt.watch_erases p (.returnFrom keyword (some value))) rfl hS fun m hM =>
      .checked (q := (·.walk.role = .topLevel)) hM fun m hM =>
        .checked (q := (·.walk.role = .initializer)) hM fun m hM =>
          .bind (value.watch_shows hM) fun _ m _ hM _ hvalue => .pure hM (hvalue m (.refl m))
  | .functionDecl name params body, hS =>
    .node (Stmt.watch_erases p (.functionDecl name params body)) rfl hS fun m hM => by
      refine .declareDefine hM fun m hM => ?_
      refine .bind (.inFunction hM fun m hM => Stmt.watchAll_shows 0 body hM)
        fun body' m' hbody hM' _ hseen => .pure hM' ?_
      have hdeclared : declared body' = declared body := by
        rw [hbody, (Watch.Erases.inFunction _ _ _ (Stmt.watchAll_erases p 0 body)).result]
        exact declared_resolveAll body _
      simp only [Spot.children_functionDecl, Layer.body_congr hdeclared]
      exact hseen m' (.refl m')
  | .classDecl name methods, hS =>
    .node (Stmt.watch_erases p (.classDecl name methods)) rfl hS fun m hM => by
      refine .bind (.inClass hM fun m hM => Method.watchAll_shows 0 methods hM)
        fun methods' m' _ hM' _ hseen => .pure hM' ?_
      simp only [Spot.children_classDecl]
      exact hseen m' (.refl m')

theorem Stmt.watchAll_shows {p : Path} {Γ : Context} {l : Lookout} (i : Nat) :
    (ss : List RawStmt) → l.Stands Γ →
      (Stmt.watchAll p i ss).Shows (Γ.declare (declared ss)) l fun ss' => Spot.stmts p i Γ ss'
  | [], hS => .pure hS fun _ h => by cases h
  | s :: ss, hS => by
    refine .bind (s.watch_shows hS) fun s' m hs hM _ he => ?_
    refine .bind (Stmt.watchAll_shows (i + 1) ss hM) fun ss' m' _ hM' hb hes => .pure ?_ ?_
    · rw [← Context.declare_append] at hM'
      exact hM'
    · have hdeclares : s'.declares = s.declares := by
        rw [hs, ← congrArg Prod.fst (Stmt.watch_erases (i :: p) s l)]
        exact Stmt.declares_resolve _ s
      refine List.forall_mem_cons.mpr ⟨he m' hb _ List.mem_cons_self, ?_⟩
      rw [hdeclares]
      exact hes m' (.refl m')

theorem Method.watchAll_shows {p : Path} {Γ : Context} {l : Lookout} (i : Nat) :
    (ms : List RawMethod) → l.Stands (.receiver (0 :: p) :: Γ.sealed) →
      (Method.watchAll p i ms).Shows (.receiver (0 :: p) :: Γ.sealed) l
        fun ms' => Spot.methods p i Γ ms'
  | [], hS => .pure hS fun _ h => by cases h
  | .mk name params body :: ms, hS => by
    have hmethod : (Method.watch (i :: p) (.mk name params body)).Shows
        (.receiver (0 :: p) :: Γ.sealed) l
        fun m => Spot.stmts (i :: p) 0 (Γ.method (i :: p) m) m.body := by
      refine .bind (.inFunction hS fun m hM => Stmt.watchAll_shows 0 body hM)
        fun body' m' hbody hM' _ hseen => .pure hM' ?_
      have hdeclared : declared body' = declared body := by
        rw [hbody, (Watch.Erases.inFunction _ _ _ (Stmt.watchAll_erases (i :: p) 0 body)).result]
        exact declared_resolveAll body _
      have hlayer : Context.sealed (.receiver (0 :: p) :: Γ.sealed) =
          .receiver (i :: p) :: Γ.sealed := by
        rw [Context.sealed_cons, Context.sealed_sealed]
        rfl
      simp only [Context.method, Method.params, Method.body, Layer.body_congr hdeclared, ← hlayer]
      exact hseen m' (.refl m')
    refine .bind hmethod fun _ m _ hM _ hm => ?_
    refine .bind (Method.watchAll_shows (i + 1) ms hM) fun _ m' _ hM' hb hms => .pure hM' ?_
    exact List.forall_mem_append.mpr ⟨hm m' hb, hms m' (.refl m')⟩

end

/-- Some context with given scopes. -/
def Context.ofScopes (scopes : List (Bindings Bool)) : Context :=
  scopes.map fun scope => ⟨.literalName [] "", scope, true⟩

/-- A watched walk in a given state. -/
def Lookout.ofWalk (w : Walk) : Lookout := ⟨w, (Context.ofScopes w.scopes).map (·.site), []⟩

theorem Lookout.ofWalk_stands (w : Walk) : (ofWalk w).Stands (.ofScopes w.scopes) :=
  ⟨by simp [ofWalk, Context.ofScopes, Function.comp_def], rfl⟩

/-- A walk keeps the faults that it has found. -/
theorem Watch.Shows.faults {α : Type} {Γ : Context} {w : Walk} {spots : α → List Spot}
    {c : Watch α} {r : Resolve α} (h : c.Shows Γ (.ofWalk w) spots) (herases : c.Erases r) :
    w.faults <:+ (r w).2.faults := by
  have hwalk : (r w).2 = (c (.ofWalk w)).2.walk := congrArg Prod.snd (herases (.ofWalk w))
  rw [hwalk]
  exact h.before.faults

/-- An expression leaves the scopes as they are. -/
theorem Expr.resolve_leaves (e : RawExpr) (w : Walk) : Leaves w (e.resolve w).2 := by
  have hS := Lookout.ofWalk_stands w
  have h := e.watch_shows (p := []) hS
  refine ⟨?_, h.faults (e.watch_erases [])⟩
  have hwalk : (e.resolve w).2 = (e.watch [] (.ofWalk w)).2.walk :=
    congrArg Prod.snd (e.watch_erases [] (.ofWalk w))
  rw [hwalk]
  exact h.stands.scopes.trans hS.scopes.symm

/-- The faults that a walk finds in a program, latest first. -/
def faults (program : List RawStmt) : List Scope.Fault :=
  (Stmt.resolveAll program .start).2.faults

theorem faults_eq_nil_iff (program : List RawStmt) :
    faults program = [] ↔ (resolve program).diagnostics = [] := by
  have hdiagnostics : (resolve program).diagnostics =
      (faults program).reverse.map (·.diagnostic) := rfl
  rw [hdiagnostics, List.map_eq_nil_iff, List.reverse_eq_nil_iff]

/-- The walk over a program sees every spot of the resolved program. -/
theorem sightings_show (number : Nat) (program : List RawStmt) :
    ∀ x ∈ Spot.stmts [number] 0 [] (resolve program).program, x.Throughout fun y =>
      ∃ g ∈ sightings number program,
        g.Shows y ∧ (g.node.resolve g.walk).2.faults <:+ faults program := by
  have hshows := Stmt.watchAll_shows (p := [number]) (Γ := []) (l := ⟨.start, [], []⟩) 0 program
    ⟨rfl, rfl⟩
  have herases := Stmt.watchAll_erases [number] 0 program ⟨.start, [], []⟩
  have hprogram : (resolve program).program =
      (Stmt.watchAll [number] 0 program ⟨.start, [], []⟩).1 := congrArg Prod.fst herases
  have hfaults : faults program =
      (Stmt.watchAll [number] 0 program ⟨.start, [], []⟩).2.walk.faults :=
    congrArg (fun r => r.2.faults) herases
  rw [hprogram, hfaults]
  exact hshows.seen

end LoxScript
