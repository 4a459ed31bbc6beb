import LoxScript.Proofs.Spot

/-!
Walks that keep a record of themselves.

A watched walk resolves a program as a walk does. Besides, it notes for which syntactic scope each
entry of its stack of scopes was opened, and writes down its state whenever it comes to a node.
-/
namespace LoxScript

open Resolve Scope

/-- Marks the references of a node. -/
def Node.resolve : Node Unit → Resolve (Node (Option Nat))
  | .expr e => .expr <$> e.resolve
  | .stmt s => .stmt <$> s.resolve

/-- A moment at which a walk came to a node: its state, and the scopes of its stack. -/
structure Sighting where
  path : Path
  node : Node Unit
  walk : Walk
  sites : List Site

/-- The state of a watched walk. What it came to stands latest first. -/
structure Lookout where
  walk : Walk
  sites : List Site
  sightings : List Sighting

abbrev Watch := StateM Lookout

namespace Watch
variable {α : Type}

def lift (step : Resolve α) : Watch α := fun l =>
  ((step l.walk).1, { l with walk := (step l.walk).2 })

/-- Writes down that the walk comes to a node, and goes on. -/
def sighting (p : Path) (n : Node Unit) (step : Watch α) : Watch α := fun l =>
  step { l with sightings := ⟨p, n, l.walk, l.sites⟩ :: l.sightings }

def inScope (site : Site) (names : Bindings Bool) (step : Watch α) : Watch α := do
  modify fun l => { l with
    walk := { l.walk with scopes := names :: l.walk.scopes }
    sites := site :: l.sites }
  let a ← step
  modify fun l => { l with
    walk := { l.walk with scopes := l.walk.scopes.tail }
    sites := l.sites.tail }
  return a

def inLoop (step : Watch α) : Watch α := do
  lift (modify fun w => { w with loops := w.loops + 1 })
  let a ← step
  lift (modify fun w => { w with loops := w.loops - 1 })
  return a

def inClass (site : Site) (name : Token) (step : Watch α) : Watch α := do
  let enclosing := (← get).walk.inClass
  lift (modify fun w => { w with inClass := true })
  lift (declare name)
  lift (define name)
  let a ← inScope site [(receiverName, true)] step
  lift (modify fun w => { w with inClass := enclosing })
  return a

def inFunction (site : Site) (role : Role) (params : List Token) (step : Watch α) : Watch α := do
  let enclosing := (← get).walk
  lift (modify fun w => { w with role := role, loops := 0 })
  let a ← inScope site [] do
    lift (declareAll params)
    step
  lift (modify fun w => { w with role := enclosing.role, loops := enclosing.loops })
  return a

end Watch

mutual

def Expr.watch : Path → RawExpr → Watch ResolvedExpr
  | p, e@(.literal value) => Watch.sighting p (.expr e) do return .literal value
  | p, e@(.grouping inner) => Watch.sighting p (.expr e) do
    return .grouping (← inner.watch (0 :: p))
  | p, e@(.unary operator right) => Watch.sighting p (.expr e) do
    return .unary operator (← right.watch (0 :: p))
  | p, e@(.binary left operator right) => Watch.sighting p (.expr e) do
    return .binary (← left.watch (0 :: p)) operator (← right.watch (1 :: p))
  | p, e@(.logical left operator right) => Watch.sighting p (.expr e) do
    return .logical (← left.watch (0 :: p)) operator (← right.watch (1 :: p))
  | p, e@(.variable _ _) => Watch.sighting p (.expr e) do Watch.lift e.resolve
  | p, e@(.assign name operator value _) => Watch.sighting p (.expr e) do
    let value ← value.watch (0 :: p)
    return .assign name operator value (← Watch.lift (refer .assign name name.lexeme))
  | p, e@(.call callee paren arguments) => Watch.sighting p (.expr e) do
    return .call (← callee.watch (0 :: p)) paren (← Expr.watchAll p 1 arguments)
  | p, e@(.get object name) => Watch.sighting p (.expr e) do
    return .get (← object.watch (0 :: p)) name
  | p, e@(.set object name operator value) => Watch.sighting p (.expr e) do
    let value ← value.watch (1 :: p)
    return .set (← object.watch (0 :: p)) name operator value
  | p, e@(.this _ _) => Watch.sighting p (.expr e) do Watch.lift e.resolve
  | p, e@(.function none params body) => Watch.sighting p (.expr e) do
    let body ← Watch.inFunction (.body p (params.map (·.lexeme)) body) .function params
      (Stmt.watchAll p 0 body)
    return .function none params body
  | p, e@(.function (some name) params body) => Watch.sighting p (.expr e) do
    let body ← Watch.inScope (.literalName p name.lexeme) [] do
      Watch.lift (declare name)
      Watch.lift (define name)
      Watch.inFunction (.body p (params.map (·.lexeme)) body) .function params
        (Stmt.watchAll p 0 body)
    return .function (some name) params body

def Expr.watchAll : Path → Nat → List RawExpr → Watch (List ResolvedExpr)
  | _, _, [] => return []
  | p, i, e :: es => return (← e.watch (i :: p)) :: (← Expr.watchAll p (i + 1) es)

def Stmt.watch : Path → RawStmt → Watch ResolvedStmt
  | p, s@(.expression value) => Watch.sighting p (.stmt s) do
    return .expression (← value.watch (0 :: p))
  | p, s@(.print value) => Watch.sighting p (.stmt s) do return .print (← value.watch (0 :: p))
  | p, s@(.varDecl name none) => Watch.sighting p (.stmt s) do
    Watch.lift (declare name)
    Watch.lift (define name)
    return .varDecl name none
  | p, s@(.varDecl name (some value)) => Watch.sighting p (.stmt s) do
    Watch.lift (declare name)
    let value ← value.watch (0 :: p)
    Watch.lift (define name)
    return .varDecl name (some value)
  | p, s@(.block body) => Watch.sighting p (.stmt s) do
    return .block (← Watch.inScope (.block p body) [] (Stmt.watchAll p 0 body))
  | p, s@(.ifElse condition yes none) => Watch.sighting p (.stmt s) do
    return .ifElse (← condition.watch (0 :: p)) (← yes.watch (1 :: p)) none
  | p, s@(.ifElse condition yes (some no)) => Watch.sighting p (.stmt s) do
    return .ifElse (← condition.watch (0 :: p)) (← yes.watch (1 :: p))
      (some (← no.watch (2 :: p)))
  | p, s@(.loop condition body none) => Watch.sighting p (.stmt s) do
    return .loop (← condition.watch (0 :: p)) (← Watch.inLoop (body.watch (1 :: p))) none
  | p, s@(.loop condition body (some increment)) => Watch.sighting p (.stmt s) do
    return .loop (← condition.watch (0 :: p)) (← Watch.inLoop (body.watch (1 :: p)))
      (some (← increment.watch (2 :: p)))
  | p, s@(.breakLoop _) => Watch.sighting p (.stmt s) do Watch.lift s.resolve
  | p, s@(.continueLoop _) => Watch.sighting p (.stmt s) do Watch.lift s.resolve
  | p, s@(.returnFrom _ none) => Watch.sighting p (.stmt s) do Watch.lift s.resolve
  | p, s@(.returnFrom keyword (some value)) => Watch.sighting p (.stmt s) do
    if (← get).walk.role = .topLevel then Watch.lift (report keyword .returnOutsideFunction)
    if (← get).walk.role = .initializer then Watch.lift (report keyword .valueFromInitializer)
    return .returnFrom keyword (some (← value.watch (0 :: p)))
  | p, s@(.functionDecl name params body) => Watch.sighting p (.stmt s) do
    Watch.lift (declare name)
    Watch.lift (define name)
    let body ← Watch.inFunction (.body p (params.map (·.lexeme)) body) .function params
      (Stmt.watchAll p 0 body)
    return .functionDecl name params body
  | p, s@(.classDecl name methods) => Watch.sighting p (.stmt s) do
    let methods ← Watch.inClass (.receiver (0 :: p)) name (Method.watchAll p 0 methods)
    return .classDecl name methods

def Stmt.watchAll : Path → Nat → List RawStmt → Watch (List ResolvedStmt)
  | _, _, [] => return []
  | p, i, s :: ss => return (← s.watch (i :: p)) :: (← Stmt.watchAll p (i + 1) ss)

def Method.watch : Path → RawMethod → Watch ResolvedMethod
  | p, .mk name params body => do
    let body ← Watch.inFunction (.body p (params.map (·.lexeme)) body) (methodRole name.lexeme)
      params (Stmt.watchAll p 0 body)
    return .mk name params body

def Method.watchAll : Path → Nat → List RawMethod → Watch (List ResolvedMethod)
  | _, _, [] => return []
  | p, i, m :: ms => return (← m.watch (i :: p)) :: (← Method.watchAll p (i + 1) ms)

end

/-- What a walk over a program comes to, if the program has a number. -/
def sightings (number : Nat) (program : List RawStmt) : List Sighting :=
  ((Stmt.watchAll [number] 0 program).run ⟨.start, [], []⟩).2.sightings

namespace Watch

/-- A watched step does what a step of a walk does. -/
def Erases {α : Type} (c : Watch α) (r : Resolve α) : Prop :=
  ∀ l, r l.walk = ((c l).1, (c l).2.walk)

namespace Erases
variable {α β : Type}

theorem result {c : Watch α} {r : Resolve α} (hc : Erases c r) (l : Lookout) :
    (c l).1 = (r l.walk).1 := (congrArg Prod.fst (hc l)).symm

theorem pure (a : α) : Erases (Pure.pure a) (Pure.pure a) := fun _ => rfl

theorem bind {c : Watch α} {r : Resolve α} {k : α → Watch β} {m : α → Resolve β}
    (hc : Erases c r) (hk : ∀ a, Erases (k a) (m a)) : Erases (c >>= k) (r >>= m) := by
  intro l
  have h := hc l
  simp only [Bind.bind, StateT.bind, h]
  exact hk _ _

theorem lift (r : Resolve α) : Erases (Watch.lift r) r := fun _ => rfl

theorem sighting {c : Watch α} {r : Resolve α} (p : Path) (n : Node Unit) (hc : Erases c r) :
    Erases (Watch.sighting p n c) r :=
  fun l => hc { l with sightings := ⟨p, n, l.walk, l.sites⟩ :: l.sightings }

theorem reading {k : Lookout → Watch α} {m : Walk → Resolve α}
    (hk : ∀ l, Erases (k l) (m l.walk)) : Erases (get >>= k) (get >>= m) := fun l => hk l l

theorem ite {q : Prop} [Decidable q] {c d : Watch α} {r m : Resolve α} (hc : Erases c r)
    (hd : Erases d m) : Erases (if q then c else d) (if q then r else m) := by
  split
  · exact hc
  · exact hd

theorem inScope {c : Watch α} {r : Resolve α} (site : Site) (names : Bindings Bool)
    (hc : Erases c r) : Erases (Watch.inScope site names c) (Resolve.inScope names r) := by
  intro l
  have h := hc { l with
    walk := { l.walk with scopes := names :: l.walk.scopes }
    sites := site :: l.sites }
  have hrun : Resolve.inScope names r l.walk =
      let x := r { l.walk with scopes := names :: l.walk.scopes }
      (x.1, { x.2 with scopes := x.2.scopes.tail }) := rfl
  rw [hrun, h]
  rfl

theorem inLoop {c : Watch α} {r : Resolve α} (hc : Erases c r) :
    Erases (Watch.inLoop c) (Resolve.inLoop r) :=
  bind (lift _) fun _ => bind hc fun _ => bind (lift _) fun _ => pure _

theorem inFunction {c : Watch α} {r : Resolve α} (site : Site) (role : Role) (params : List Token)
    (hc : Erases c r) :
    Erases (Watch.inFunction site role params c) (Resolve.inFunction role params r) :=
  reading fun _ => bind (lift _) fun _ => bind (inScope site [] (bind (lift _) fun _ => hc))
    fun _ => bind (lift _) fun _ => pure _

theorem inClass {c : Watch α} {r : Resolve α} (site : Site) (name : Token) (hc : Erases c r) :
    Erases (Watch.inClass site name c) (Resolve.inClass name r) :=
  reading fun _ => bind (lift _) fun _ => bind (lift _) fun _ => bind (lift _) fun _ =>
    bind (inScope site _ hc) fun _ => bind (lift _) fun _ => pure _

end Erases
end Watch

mutual

theorem Expr.watch_erases (p : Path) : (e : RawExpr) → (e.watch p).Erases e.resolve
  | .literal _ => .sighting _ _ (.pure _)
  | .grouping inner => .sighting _ _ (.bind (inner.watch_erases _) fun _ => .pure _)
  | .unary _ right => .sighting _ _ (.bind (right.watch_erases _) fun _ => .pure _)
  | .binary left _ right =>
    .sighting _ _ (.bind (left.watch_erases _) fun _ =>
      .bind (right.watch_erases _) fun _ => .pure _)
  | .logical left _ right =>
    .sighting _ _ (.bind (left.watch_erases _) fun _ =>
      .bind (right.watch_erases _) fun _ => .pure _)
  | .variable _ _ => .sighting _ _ (.lift _)
  | .assign _ _ value _ =>
    .sighting _ _ (.bind (value.watch_erases _) fun _ => .bind (.lift _) fun _ => .pure _)
  | .call callee _ arguments =>
    .sighting _ _ (.bind (callee.watch_erases _) fun _ =>
      .bind (Expr.watchAll_erases p 1 arguments) fun _ => .pure _)
  | .get object _ => .sighting _ _ (.bind (object.watch_erases _) fun _ => .pure _)
  | .set object _ _ value =>
    .sighting _ _ (.bind (value.watch_erases _) fun _ =>
      .bind (object.watch_erases _) fun _ => .pure _)
  | .this _ _ => .sighting _ _ (.lift _)
  | .function none _ body =>
    .sighting _ _ (.bind (.inFunction _ _ _ (Stmt.watchAll_erases p 0 body)) fun _ => .pure _)
  | .function (some _) _ body =>
    .sighting _ _ (.bind (.inScope _ _ (.bind (.lift _) fun _ => .bind (.lift _) fun _ =>
      .inFunction _ _ _ (Stmt.watchAll_erases p 0 body))) fun _ => .pure _)

theorem Expr.watchAll_erases (p : Path) (i : Nat) :
    (es : List RawExpr) → (Expr.watchAll p i es).Erases (Expr.resolveAll es)
  | [] => .pure _
  | e :: es =>
    .bind (e.watch_erases _) fun _ => .bind (Expr.watchAll_erases p (i + 1) es) fun _ => .pure _

theorem Stmt.watch_erases (p : Path) : (s : RawStmt) → (s.watch p).Erases s.resolve
  | .expression value => .sighting _ _ (.bind (value.watch_erases _) fun _ => .pure _)
  | .print value => .sighting _ _ (.bind (value.watch_erases _) fun _ => .pure _)
  | .varDecl _ none =>
    .sighting _ _ (.bind (.lift _) fun _ => .bind (.lift _) fun _ => .pure _)
  | .varDecl _ (some value) =>
    .sighting _ _ (.bind (.lift _) fun _ => .bind (value.watch_erases _) fun _ =>
      .bind (.lift _) fun _ => .pure _)
  | .block body =>
    .sighting _ _ (.bind (.inScope _ _ (Stmt.watchAll_erases p 0 body)) fun _ => .pure _)
  | .ifElse condition yes none =>
    .sighting _ _ (.bind (condition.watch_erases _) fun _ =>
      .bind (yes.watch_erases _) fun _ => .pure _)
  | .ifElse condition yes (some no) =>
    .sighting _ _ (.bind (condition.watch_erases _) fun _ =>
      .bind (yes.watch_erases _) fun _ => .bind (no.watch_erases _) fun _ => .pure _)
  | .loop condition body none =>
    .sighting _ _ (.bind (condition.watch_erases _) fun _ =>
      .bind (.inLoop (body.watch_erases _)) fun _ => .pure _)
  | .loop condition body (some increment) =>
    .sighting _ _ (.bind (condition.watch_erases _) fun _ =>
      .bind (.inLoop (body.watch_erases _)) fun _ =>
        .bind (increment.watch_erases _) fun _ => .pure _)
  | .breakLoop _ => .sighting _ _ (.lift _)
  | .continueLoop _ => .sighting _ _ (.lift _)
  | .returnFrom _ none => .sighting _ _ (.lift _)
  | .returnFrom keyword (some value) => by
    have hvalue : Watch.Erases (do return Stmt.returnFrom keyword (some (← value.watch (0 :: p))))
        (do return Stmt.returnFrom keyword (some (← value.resolve))) :=
      .bind (value.watch_erases _) fun _ => .pure _
    refine .sighting _ _ (.reading fun _ => .ite (.bind (.lift _) fun _ => ?_) ?_)
    all_goals exact .reading fun _ => .ite (.bind (.lift _) fun _ => hvalue) hvalue
  | .functionDecl _ _ body =>
    .sighting _ _ (.bind (.lift _) fun _ => .bind (.lift _) fun _ =>
      .bind (.inFunction _ _ _ (Stmt.watchAll_erases p 0 body)) fun _ => .pure _)
  | .classDecl _ methods =>
    .sighting _ _ (.bind (.inClass _ _ (Method.watchAll_erases p 0 methods)) fun _ => .pure _)

theorem Stmt.watchAll_erases (p : Path) (i : Nat) :
    (ss : List RawStmt) → (Stmt.watchAll p i ss).Erases (Stmt.resolveAll ss)
  | [] => .pure _
  | s :: ss =>
    .bind (s.watch_erases _) fun _ => .bind (Stmt.watchAll_erases p (i + 1) ss) fun _ => .pure _

theorem Method.watch_erases (p : Path) : (m : RawMethod) → (m.watch p).Erases m.resolve
  | .mk _ _ body => .bind (.inFunction _ _ _ (Stmt.watchAll_erases p 0 body)) fun _ => .pure _

theorem Method.watchAll_erases (p : Path) (i : Nat) :
    (ms : List RawMethod) → (Method.watchAll p i ms).Erases (Method.resolveAll ms)
  | [] => .pure _
  | m :: ms =>
    .bind (m.watch_erases _) fun _ => .bind (Method.watchAll_erases p (i + 1) ms) fun _ => .pure _

end
end LoxScript
