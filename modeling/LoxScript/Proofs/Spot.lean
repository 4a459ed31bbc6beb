import Mathlib.Logic.Relation
import LoxScript.Scope

/-!
Places in programs and the syntactic scopes around them.

A spot is a node of a resolved program together with its path and its context, the scopes that
enclose it. The children of a spot are the nodes that stand directly inside it, each in the context
in which it stands, so what holds of a program and of all that is inside it can be said of spots.
-/
namespace LoxScript

/-- The way from a node up to the root. The last step is the number of the program. -/
abbrev Path := List Nat

/-- The forms of syntactic scopes: a block, the parameters and the body of a function, the name of
a function literal, and the receiver of the methods of a class. -/
inductive ScopeForm where
  | block
  | body
  | name
  | receiver
deriving DecidableEq, Repr

/-- A syntactic scope: the node that opens it, its form, and the names that it declares
from its beginning to its end. -/
structure Site where
  path : Path
  form : ScopeForm
  names : List String
deriving DecidableEq, Repr

/-- The names that a statement declares in the scope in which it stands. -/
def Stmt.declares {ρ : Type} : Stmt ρ → List String
  | .varDecl name _ => [name.lexeme]
  | .functionDecl name _ _ => [name.lexeme]
  | .classDecl name _ => [name.lexeme]
  | .ifElse _ yes none => yes.declares
  | .ifElse _ yes (some no) => yes.declares ++ no.declares
  | .loop _ body _ => body.declares
  | _ => []

def declared {ρ : Type} (body : List (Stmt ρ)) : List String := body.flatMap (·.declares)

namespace Site
variable {ρ : Type}

def block (p : Path) (body : List (Stmt ρ)) : Site := ⟨p, .block, declared body⟩

def body (p : Path) (params : List String) (body : List (Stmt ρ)) : Site :=
  ⟨p, .body, params ++ declared body⟩

def literalName (p : Path) (name : String) : Site := ⟨p, .name, [name]⟩

/-- The scope around the methods of a class, given the path of one of them. -/
def receiver (method : Path) : Site := ⟨method.tail, .receiver, [receiverName]⟩

end Site

inductive Node (ρ : Type) where
  | expr (e : Expr ρ)
  | stmt (s : Stmt ρ)

/-- A scope around a node: what it is, and its names at the node with whether their initializers
have been passed. It is active if no function stands between it and the node. -/
structure Layer where
  site : Site
  scope : Bindings Bool
  active : Bool

/-- The scopes around a node, innermost first. -/
abbrev Context := List Layer

def definedNames (names : List String) : Bindings Bool :=
  names.foldl (fun b name => b.set name true) []

namespace Layer
variable {ρ : Type}

def block (p : Path) (body : List (Stmt ρ)) : Layer := ⟨.block p body, [], true⟩

def body (p : Path) (params : List String) (body : List (Stmt ρ)) : Layer :=
  ⟨.body p params body, definedNames params, true⟩

def literalName (p : Path) (name : String) : Layer := ⟨.literalName p name, [(name, true)], false⟩

def receiver (method : Path) : Layer := ⟨.receiver method, [(receiverName, true)], false⟩

/-- The layer as it is seen from inside a function. -/
def sealed (e : Layer) : Layer := { e with active := false }

/-- Whether a frame of the scope may bind a name: an active scope has only the names that
were passed, another one may have come to have all of its names. -/
def MayBind (e : Layer) (name : String) : Prop :=
  if e.active then e.scope.get? name = some true else name ∈ e.site.names

end Layer

namespace Context

/-- The context as it is seen from inside a function. -/
def sealed (Γ : Context) : Context := Γ.map (·.sealed)

/-- The context with a name set in its innermost scope. -/
def set (Γ : Context) (name : String) (defined : Bool) : Context :=
  match Γ with
  | [] => []
  | e :: Γ => { e with scope := e.scope.set name defined } :: Γ

/-- The context behind declarations of some names. -/
def declare (Γ : Context) (names : List String) : Context :=
  names.foldl (fun Γ name => Γ.set name true) Γ

/-- Whether the scope at a distance has a name whose initializer has been passed. -/
def Binds (Γ : Context) (distance : Nat) (name : String) : Prop :=
  ∃ e, Γ[distance]? = some e ∧ e.scope.get? name = some true

def literal {ρ : Type} (Γ : Context) (p : Path) (name : Option Token) (params : List Token)
    (body : List (Stmt ρ)) : Context :=
  let inner := Layer.body p (params.map (·.lexeme)) body
  match name with
  | none => inner :: Γ.sealed
  | some name => inner :: .literalName p name.lexeme :: Γ.sealed

def method (Γ : Context) (p : Path) (m : ResolvedMethod) : Context :=
  .body p (m.params.map (·.lexeme)) m.body :: .receiver p :: Γ.sealed

end Context

/-- A node of a resolved program with its place. -/
structure Spot where
  path : Path
  context : Context
  node : Node (Option Nat)

namespace Spot

/-- Some expressions side by side, the first of them being child `i`. -/
def exprs (p : Path) (i : Nat) (Γ : Context) : List ResolvedExpr → List Spot
  | [] => []
  | e :: es => ⟨i :: p, Γ, .expr e⟩ :: exprs p (i + 1) Γ es

/-- Statements one after another, each behind the declarations of those before it. -/
def stmts (p : Path) (i : Nat) (Γ : Context) : List ResolvedStmt → List Spot
  | [] => []
  | s :: ss => ⟨i :: p, Γ, .stmt s⟩ :: stmts p (i + 1) (Γ.declare s.declares) ss

/-- The bodies that a node opens: the path and the context of each, and its statements. -/
def bodies : Spot → List (Path × Context × List ResolvedStmt)
  | ⟨p, Γ, .expr (.function name params body)⟩ => [(p, Γ.literal p name params body, body)]
  | ⟨p, Γ, .stmt (.block body)⟩ => [(p, .block p body :: Γ, body)]
  | ⟨p, Γ, .stmt (.functionDecl name params body)⟩ =>
    [(p, .body p (params.map (·.lexeme)) body :: (Γ.set name.lexeme true).sealed, body)]
  | ⟨p, Γ, .stmt (.classDecl name methods)⟩ =>
    methods.mapIdx fun i m => (i :: p, (Γ.set name.lexeme true).method (i :: p) m, m.body)
  | _ => []

/-- The children of a node that stand in no scope of its own. -/
def parts : Spot → List Spot
  | ⟨p, Γ, .expr e⟩ =>
    match e with
    | .grouping inner => [⟨0 :: p, Γ, .expr inner⟩]
    | .unary _ right => [⟨0 :: p, Γ, .expr right⟩]
    | .binary left _ right => [⟨0 :: p, Γ, .expr left⟩, ⟨1 :: p, Γ, .expr right⟩]
    | .logical left _ right => [⟨0 :: p, Γ, .expr left⟩, ⟨1 :: p, Γ, .expr right⟩]
    | .assign _ _ value _ => [⟨0 :: p, Γ, .expr value⟩]
    | .call callee _ arguments => ⟨0 :: p, Γ, .expr callee⟩ :: exprs p 1 Γ arguments
    | .get object _ => [⟨0 :: p, Γ, .expr object⟩]
    | .set object _ _ value => [⟨0 :: p, Γ, .expr object⟩, ⟨1 :: p, Γ, .expr value⟩]
    | _ => []
  | ⟨p, Γ, .stmt s⟩ =>
    match s with
    | .expression value => [⟨0 :: p, Γ, .expr value⟩]
    | .print value => [⟨0 :: p, Γ, .expr value⟩]
    | .varDecl name (some value) => [⟨0 :: p, Γ.set name.lexeme false, .expr value⟩]
    | .ifElse condition yes no =>
      ⟨0 :: p, Γ, .expr condition⟩ :: ⟨1 :: p, Γ, .stmt yes⟩ ::
        no.toList.map (⟨2 :: p, Γ.declare yes.declares, .stmt ·⟩)
    | .loop condition body increment =>
      ⟨0 :: p, Γ, .expr condition⟩ :: ⟨1 :: p, Γ, .stmt body⟩ ::
        increment.toList.map (⟨2 :: p, Γ.declare body.declares, .expr ·⟩)
    | .returnFrom _ (some value) => [⟨0 :: p, Γ, .expr value⟩]
    | _ => []

def children (x : Spot) : List Spot :=
  x.parts ++ x.bodies.flatMap fun (p, Γ, body) => stmts p 0 Γ body

/-- A spot is within another one if it is that one or stands inside it. -/
def Within : Spot → Spot → Prop := Relation.ReflTransGen fun x y => y ∈ x.children

/-- Something holds at a spot and everywhere inside it. -/
def Throughout (h : Spot → Prop) (x : Spot) : Prop := ∀ y, Within x y → h y

variable {h : Spot → Prop} {x y : Spot}

theorem Throughout.here (hx : x.Throughout h) : h x := hx x .refl

theorem Throughout.child (hx : x.Throughout h) (hy : y ∈ x.children) : y.Throughout h :=
  fun z hz => hx z (.head hy hz)

theorem Throughout.part (hx : x.Throughout h) (hy : y ∈ x.parts) : y.Throughout h :=
  hx.child (List.mem_append_left _ hy)

theorem Throughout.body (hx : x.Throughout h) {p : Path} {Γ : Context} {body : List ResolvedStmt}
    (hb : (p, Γ, body) ∈ x.bodies) : ∀ y ∈ stmts p 0 Γ body, y.Throughout h :=
  fun _ hy => hx.child (List.mem_append_right _ (List.mem_flatMap.mpr ⟨_, hb, hy⟩))

end Spot
end LoxScript
