import LoxScript.Scope

/-!
The static rules, as conditions on places.

A place is the way from a part of a program up to the root, and each of its steps says what it
leaves. The function, the loop, the class and the scope around a part can be read off its place, so
each rule is a condition on the place of what it is about. That a name is declared once in a scope
is besides a condition on what stands in front.
-/
namespace LoxScript

open Scope

/-- A step up from a part of a program. -/
inductive Nesting where
  /-- Part `i` of a node or of a list, in no scope of its own. -/
  | part (i : Nat)
  | loopBody
  /-- The initializer of a variable. -/
  | initializer (name : String)
  | block
  /-- The scope of the name of a function literal. -/
  | ownName
  /-- The methods of a class, in the scope of their receiver. -/
  | methods
  /-- The parameters and the body of a function, with its name if it is a method. -/
  | body (method : Option String)
deriving DecidableEq, Repr

namespace Nesting

/-- Whether a step leaves a scope. -/
def opens : Nesting → Bool
  | block | ownName | methods | body _ => true
  | part _ | loopBody | initializer _ => false

/-- The function that a step leaves: the name of a method, and none for another function. -/
def function? : Nesting → Option (Option String)
  | body method => some method
  | _ => none

def initialized? : Nesting → Option String
  | initializer name => some name
  | _ => none

end Nesting

/-- The way from a part of a program up to the root. -/
abbrev Place := List Nesting

namespace Place

/-- The innermost function around a place, if there is one. -/
def function? (p : Place) : Option (Option String) := p.findSome? (·.function?)

/-- A place is in the body of a loop, with no function between. -/
def InLoop (p : Place) : Prop := .loopBody ∈ p.takeWhile fun s => s.function? = none

def InClass (p : Place) : Prop := .methods ∈ p

/-- The place of the innermost scope around a place. Around global code there is none. -/
def scope (p : Place) : Place := p.dropWhile fun s => !s.opens

/-- The variable of the innermost scope in whose initializer a place is. -/
def initialized? (p : Place) : Option String :=
  (p.takeWhile fun s => !s.opens).findSome? (·.initialized?)

instance (p : Place) : Decidable p.InLoop := inferInstanceAs (Decidable (_ ∈ _))

instance (p : Place) : Decidable p.InClass := inferInstanceAs (Decidable (_ ∈ _))

end Place

/-- The uses of tokens that the static rules are about. -/
inductive Usage where
  | breakLoop
  | continueLoop
  | returnFrom (withValue : Bool)
  | receiver
  /-- The name of a variable, a parameter, a function or a class, where it is declared. -/
  | declaration
  /-- A name by itself. -/
  | read
  /-- The name in front of a compound assignment, which reads it. -/
  | update
deriving DecidableEq, Repr

/-- A token of a program that the static rules are about, its use and its place. -/
structure Occurrence where
  place : Place
  usage : Usage
  token : Token

mutual

/-- The occurrences of an expression at a place, in the order in which they are met. The value of
an assignment comes before its target. -/
def Expr.occurrences {ρ : Type} (p : Place) : Expr ρ → List Occurrence
  | .literal _ => []
  | .grouping inner => inner.occurrences (.part 0 :: p)
  | .unary _ right => right.occurrences (.part 0 :: p)
  | .binary left _ right => left.occurrences (.part 0 :: p) ++ right.occurrences (.part 1 :: p)
  | .logical left _ right => left.occurrences (.part 0 :: p) ++ right.occurrences (.part 1 :: p)
  | .variable name _ => [⟨p, .read, name⟩]
  | .assign _ none value _ => value.occurrences (.part 0 :: p)
  | .assign name (some _) value _ => value.occurrences (.part 0 :: p) ++ [⟨p, .update, name⟩]
  | .call callee _ arguments =>
    callee.occurrences (.part 0 :: p) ++ Expr.occurrencesAll p 1 arguments
  | .get object _ => object.occurrences (.part 0 :: p)
  | .set object _ _ value =>
    value.occurrences (.part 1 :: p) ++ object.occurrences (.part 0 :: p)
  | .this keyword _ => [⟨p, .receiver, keyword⟩]
  | .function none params body =>
    params.map (⟨.body none :: p, .declaration, ·⟩) ++
      Stmt.occurrencesAll (.body none :: p) 0 body
  | .function (some name) params body =>
    ⟨.ownName :: p, .declaration, name⟩ ::
      (params.map (⟨.body none :: .ownName :: p, .declaration, ·⟩) ++
        Stmt.occurrencesAll (.body none :: .ownName :: p) 0 body)

/-- The occurrences of some expressions, the first of them being part `i`. -/
def Expr.occurrencesAll {ρ : Type} (p : Place) (i : Nat) : List (Expr ρ) → List Occurrence
  | [] => []
  | e :: es => e.occurrences (.part i :: p) ++ Expr.occurrencesAll p (i + 1) es

/-- The occurrences of a statement at a place. -/
def Stmt.occurrences {ρ : Type} (p : Place) : Stmt ρ → List Occurrence
  | .expression value => value.occurrences (.part 0 :: p)
  | .print value => value.occurrences (.part 0 :: p)
  | .varDecl name none => [⟨p, .declaration, name⟩]
  | .varDecl name (some value) =>
    ⟨p, .declaration, name⟩ :: value.occurrences (.initializer name.lexeme :: p)
  | .block body => Stmt.occurrencesAll (.block :: p) 0 body
  | .ifElse condition yes none =>
    condition.occurrences (.part 0 :: p) ++ yes.occurrences (.part 1 :: p)
  | .ifElse condition yes (some no) =>
    condition.occurrences (.part 0 :: p) ++
      (yes.occurrences (.part 1 :: p) ++ no.occurrences (.part 2 :: p))
  | .loop condition body none =>
    condition.occurrences (.part 0 :: p) ++ body.occurrences (.loopBody :: p)
  | .loop condition body (some increment) =>
    condition.occurrences (.part 0 :: p) ++
      (body.occurrences (.loopBody :: p) ++ increment.occurrences (.part 2 :: p))
  | .breakLoop keyword => [⟨p, .breakLoop, keyword⟩]
  | .continueLoop keyword => [⟨p, .continueLoop, keyword⟩]
  | .returnFrom keyword none => [⟨p, .returnFrom false, keyword⟩]
  | .returnFrom keyword (some value) =>
    ⟨p, .returnFrom true, keyword⟩ :: value.occurrences (.part 0 :: p)
  | .functionDecl name params body =>
    ⟨p, .declaration, name⟩ :: (params.map (⟨.body none :: p, .declaration, ·⟩) ++
      Stmt.occurrencesAll (.body none :: p) 0 body)
  | .classDecl name methods =>
    ⟨p, .declaration, name⟩ :: Method.occurrencesAll (.methods :: p) 0 methods

/-- The occurrences of some statements, the first of them being part `i`. -/
def Stmt.occurrencesAll {ρ : Type} (p : Place) (i : Nat) : List (Stmt ρ) → List Occurrence
  | [] => []
  | s :: ss => s.occurrences (.part i :: p) ++ Stmt.occurrencesAll p (i + 1) ss

/-- The occurrences of some methods, the first of them being part `i`. -/
def Method.occurrencesAll {ρ : Type} (p : Place) (i : Nat) : List (Method ρ) → List Occurrence
  | [] => []
  | .mk name params body :: ms =>
    (params.map (⟨.body (some name.lexeme) :: .part i :: p, .declaration, ·⟩) ++
      Stmt.occurrencesAll (.body (some name.lexeme) :: .part i :: p) 0 body) ++
        Method.occurrencesAll p (i + 1) ms

end

namespace Occurrence

/-- A scope has a name from here on. -/
def Declares (x : Occurrence) (scope : Place) (name : String) : Prop :=
  x.usage = .declaration ∧ x.place.scope = scope ∧ x.token.lexeme = name

instance (x : Occurrence) (scope : Place) (name : String) : Decidable (x.Declares scope name) :=
  inferInstanceAs (Decidable (_ ∧ _))

/-- The rule of structure that an occurrence breaks, behind some others. -/
def violation? (before : List Occurrence) (x : Occurrence) : Option Cause :=
  match x.usage with
  | .breakLoop => if x.place.InLoop then none else some .breakOutsideLoop
  | .continueLoop => if x.place.InLoop then none else some .continueOutsideLoop
  | .returnFrom withValue =>
    match x.place.function? with
    | none => some .returnOutsideFunction
    | some method =>
      if withValue ∧ method = some initializerName then some .valueFromInitializer else none
  | .receiver => if x.place.InClass then none else some .thisOutsideClass
  | .declaration =>
    if x.place.scope ≠ [] ∧ ∃ y ∈ before, y.Declares x.place.scope x.token.lexeme then
      some .alreadyDeclared
    else none
  | .read => none
  | .update => none

/-- A local variable is read in its own initializer. -/
def ReadsItself (x : Occurrence) : Prop :=
  (x.usage = .read ∨ x.usage = .update) ∧ x.place.scope ≠ [] ∧
    x.place.initialized? = some x.token.lexeme

instance (x : Occurrence) : Decidable x.ReadsItself := inferInstanceAs (Decidable (_ ∧ _))

end Occurrence

/-- The violations of the rules of structure among some occurrences, behind some others. -/
def violations (before : List Occurrence) : List Occurrence → List Scope.Fault
  | [] => []
  | x :: xs => (x.violation? before).toList.map (⟨x.token, ·⟩) ++ violations (before ++ [x]) xs

end LoxScript
