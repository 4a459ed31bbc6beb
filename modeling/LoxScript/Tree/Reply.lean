import LoxScript.Tree

/-!
Parsers over a list of tokens. A parser answers with a value or gives up, and in both cases says
which tokens are left and which faults it found; a fault need not make it give up.
-/
namespace LoxScript.Parse

/-- What is wrong with the tokens at some place. -/
inductive Cause where
  /-- Something else should stand here. -/
  | expected (what : String)
  /-- Something else than a name or a field is assigned to. -/
  | invalidTarget
  /-- A list of parameters or arguments is too long. -/
  | tooMany (what : String)
deriving DecidableEq, Repr

/-- The most parameters of a function and arguments of a call. -/
def mostItems : Nat := 8

def Cause.message : Cause → String
  | .expected what => "Expect " ++ what ++ "."
  | .invalidTarget => "Invalid assignment target."
  | .tooMany what => "Can't have more than " ++ toString mostItems ++ " " ++ what ++ "."

/-- A cause and the token at which it was found; no token stands for the end of the text. -/
structure Fault where
  token : Option Token
  cause : Cause
deriving DecidableEq

/-- The answer of a parser. -/
structure Reply (α : Type) where
  value : Option α
  rest : List Token
  faults : List Fault

/-- A function on the value of an answer. -/
def Reply.map {α β : Type} (f : α → β) (r : Reply α) : Reply β := ⟨r.value.map f, r.rest, r.faults⟩

end Parse

/-- Parsers with results of type `α`. -/
def Parser (α : Type) : Type := List Token → Parse.Reply α

namespace Parser
open Parse

def done {α : Type} (a : α) : Parser α := fun ts => ⟨some a, ts, []⟩

/-- One parser after another. The faults of both are kept; the second runs if the first succeeds. -/
def andThen {α β : Type} (p : Parser α) (f : α → Parser β) : Parser β := fun ts =>
  match p ts with
  | ⟨none, rest, faults⟩ => ⟨none, rest, faults⟩
  | ⟨some a, rest, faults⟩ =>
    let reply := f a rest
    ⟨reply.value, reply.rest, faults ++ reply.faults⟩

instance : Monad Parser where
  pure := done
  bind := andThen

/-- Records a fault at a token and goes on. -/
def noteAt (token : Option Token) (cause : Cause) : Parser Unit := fun ts =>
  ⟨some (), ts, [⟨token, cause⟩]⟩

/-- Records a fault at the next token and goes on. -/
def note (cause : Cause) : Parser Unit := fun ts => noteAt ts.head? cause ts

/-- Records a fault at the next token and gives up. -/
def fail {α : Type} (cause : Cause) : Parser α := fun ts => ⟨none, ts, [⟨ts.head?, cause⟩]⟩

/-- Gives up without a fault. -/
def stuck {α : Type} : Parser α := fun ts => ⟨none, ts, []⟩

/-- Whether the next token has one of the kinds. -/
def nextIs (kinds : List Kind) : List Token → Bool
  | [] => false
  | t :: _ => kinds.contains t.kind

/-- Whether the next token is of a kind. -/
def check (kind : Kind) : Parser Bool := fun ts => done (nextIs [kind] ts) ts

/-- Takes the next token if it has one of the kinds. -/
def accept (kinds : List Kind) : Parser (Option Token)
  | [] => done none []
  | t :: ts => if kinds.contains t.kind then done (some t) ts else done none (t :: ts)

/-- Takes the next token, which must be of a kind. -/
def expect (kind : Kind) (what : String) : Parser Token
  | [] => fail (.expected what) []
  | t :: ts => if t.kind = kind then done t ts else fail (.expected what) (t :: ts)

/-- Repeats a step until it has nothing to add, once for each token of `fuel` at most. -/
def repeatUpTo {α : Type} (step : α → Parser (Option α)) : List Token → α → Parser α
  | [], a => done a
  | _ :: fuel, a => do
    match ← step a with
    | none => done a
    | some b => repeatUpTo step fuel b

/-- Repeats a step until it has nothing to add. A step that adds something takes a token, so there
are no more steps than tokens. -/
def repeated {α : Type} (step : α → Parser (Option α)) (a : α) : Parser α := fun ts =>
  repeatUpTo step ts a ts

/-- Collects items until `stop` holds, one for each token of `fuel` at most. -/
def collectUpTo {α : Type} (stop : List Token → Bool) (item : Parser (Option α)) :
    List Token → Parser (List α)
  | [] => done []
  | _ :: fuel => fun ts =>
    if stop ts then done [] ts
    else (do
      let a ← item
      let others ← collectUpTo stop item fuel
      done (a.toList ++ others)) ts

/-- Collects items until `stop` holds, which it does at the end. Every item takes a token, so
there are no more items than tokens. -/
def collect {α : Type} (stop : List Token → Bool) (item : Parser (Option α)) :
    Parser (List α) := fun ts =>
  collectUpTo stop item ts ts

/-- One more item behind a comma. An item above the most that are allowed is a fault. -/
def nextItem? {α : Type} (what : String) (item : Parser α) (found : List α) :
    Parser (Option (List α)) := do
  match ← accept [.comma] with
  | none => done none
  | some _ => do
    if mostItems ≤ found.length then note (.tooMany what)
    let a ← item
    done (some (found ++ [a]))

def items {α : Type} (what : String) (item : Parser α) : Parser (List α) := do
  let first ← item
  repeated (nextItem? what item) [first]

/-- One more operator and operand behind an operand. -/
def nextOperand? {α : Type} (kinds : List Kind) (node : α → Token → α → α) (operand : Parser α)
    (left : α) : Parser (Option α) := do
  match ← accept kinds with
  | none => done none
  | some operator => do
    let right ← operand
    done (some (node left operator right))

/-- Operands with operators between them, grouped to the left. -/
def chain {α : Type} (kinds : List Kind) (node : α → Token → α → α) (operand : Parser α) :
    Parser α := do
  let first ← operand
  repeated (nextOperand? kinds node operand) first

end Parser
end LoxScript
