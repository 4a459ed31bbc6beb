import Mathlib.Algebra.GroupWithZero.Nat
import LoxScript.Tree.Parser

/-!
The parser with a record of what it does.

A recorded parser comes with the places it visits, each given by the tokens that are left there, and
with every sequence of declarations it reads, at the top or in a block, call by call. The grammar is
written once more over recorded parsers; without the record it is the grammar of the parser.
-/
namespace LoxScript

namespace Parse

/-- A call for one declaration: the tokens at which it is made, and the answer. -/
structure Call where
  tokens : List Token
  reply : Reply (Option RawStmt)

/-- What a call gives, which is nothing if the declaration is left out. -/
def Call.statement? (c : Call) : Option RawStmt := c.reply.value.join

/-- The calls for the declarations of a program or a block, and what is made of them. -/
structure Sweep where
  calls : List Call
  reply : Reply (List RawStmt)

def Sweep.leftOut (s : Sweep) : Nat := s.calls.countP (·.statement?.isNone)

/-- The places that a parser visits and the sweeps it makes, both in order. -/
structure Record where
  places : List (List Token)
  sweeps : List Sweep

namespace Record

def empty : Record := ⟨[], []⟩

def append (r s : Record) : Record := ⟨r.places ++ s.places, r.sweeps ++ s.sweeps⟩

/-- The number of declarations that are left out, at the top and in blocks. -/
def leftOut (r : Record) : Nat := (r.sweeps.map Sweep.leftOut).sum

end Record
end Parse

open Parse (Call Sweep Record Cause Reply Level)

/-- A parser and the record of what it does with some tokens. -/
structure Recorded (α : Type) where
  run : Parser α
  record : List Token → Record

namespace Recorded
variable {α β : Type}

def done (a : α) : Recorded α := ⟨.done a, fun _ => .empty⟩

/-- One parser after another. The second adds to the record if it is run. -/
def andThen (p : Recorded α) (f : α → Recorded β) : Recorded β where
  run := p.run >>= fun a => (f a).run
  record ts :=
    match (p.run ts).value with
    | none => p.record ts
    | some a => (p.record ts).append ((f a).record (p.run ts).rest)

instance : Monad Recorded where
  pure := done
  bind := andThen

/-- A parser without parts visits the place it starts at and the place it leaves. -/
def single (p : Parser α) : Recorded α := ⟨p, fun ts => ⟨[ts, (p ts).rest], []⟩⟩

def fail (cause : Cause) : Recorded α := single (.fail cause)

def note (cause : Cause) : Recorded Unit := single (.note cause)

def noteAt (token : Option Token) (cause : Cause) : Recorded Unit := single (.noteAt token cause)

def check (kind : Kind) : Recorded Bool := single (.check kind)

def accept (kinds : List Kind) : Recorded (Option Token) := single (.accept kinds)

def expect (kind : Kind) (what : String) : Recorded Token := single (.expect kind what)

/-- Takes the next token if it is one to go on behind, and else goes on in front of it. -/
def taking (behind? : Token → List Token → Option (Recorded α)) (otherwise : Recorded α) :
    Recorded α where
  run
    | [] => otherwise.run []
    | t :: ts =>
      match behind? t ts with
      | some p => p.run ts
      | none => otherwise.run (t :: ts)
  record
    | [] => otherwise.record []
    | t :: ts =>
      match behind? t ts with
      | some p => .append ⟨[t :: ts, ts], []⟩ (p.record ts)
      | none => otherwise.record (t :: ts)

def mapped (f : α → β) (p : Recorded α) : Recorded β := ⟨fun ts => (p.run ts).map f, p.record⟩

def repeatUpTo (step : α → Recorded (Option α)) : List Token → α → Recorded α
  | [], a => done a
  | _ :: fuel, a => do
    match ← step a with
    | none => done a
    | some b => repeatUpTo step fuel b

def repeated (step : α → Recorded (Option α)) (a : α) : Recorded α where
  run := .repeated (fun a => (step a).run) a
  record ts := (repeatUpTo step ts a).record ts

/-- Ends with `a` where `stop` holds. -/
def endingAt (stop : List Token → Bool) (a : α) (p : Recorded α) : Recorded α where
  run ts := if stop ts then Parser.done a ts else p.run ts
  record ts := if stop ts then .empty else p.record ts

def collectUpTo (stop : List Token → Bool) (item : Recorded (Option α)) :
    List Token → Recorded (List α)
  | [] => done []
  | _ :: fuel => endingAt stop [] do
    let a ← item
    let others ← collectUpTo stop item fuel
    done (a.toList ++ others)

def collect (stop : List Token → Bool) (item : Recorded (Option α)) : Recorded (List α) where
  run := .collect stop item.run
  record ts := (collectUpTo stop item ts).record ts

def nextItem? (what : String) (item : Recorded α) (found : List α) :
    Recorded (Option (List α)) := do
  match ← accept [.comma] with
  | none => done none
  | some _ => do
    if Parse.mostItems ≤ found.length then note (.tooMany what)
    let a ← item
    done (some (found ++ [a]))

def items (what : String) (item : Recorded α) : Recorded (List α) := do
  let first ← item
  repeated (nextItem? what item) [first]

def nextOperand? (kinds : List Kind) (node : α → Token → α → α) (operand : Recorded α) (left : α) :
    Recorded (Option α) := do
  match ← accept kinds with
  | none => done none
  | some operator => do
    let right ← operand
    done (some (node left operator right))

def chain (kinds : List Kind) (node : α → Token → α → α) (operand : Recorded α) : Recorded α := do
  let first ← operand
  repeated (nextOperand? kinds node operand) first

/-- The calls for declarations that are made until `stop` holds. -/
def callsUpTo (stop : List Token → Bool) (item : Parser (Option RawStmt)) :
    List Token → List Token → List Call
  | [], _ => []
  | _ :: fuel, ts =>
    if stop ts then []
    else ⟨ts, item ts⟩ :: if (item ts).value.isSome then callsUpTo stop item fuel (item ts).rest else []

/-- Declarations up to where `stop` holds, which are recorded call by call. -/
def sweep (stop : List Token → Bool) (item : Recorded (Option RawStmt)) :
    Recorded (List RawStmt) where
  run := .collect stop item.run
  record ts := ((collect stop item).record ts).append
    ⟨[], [⟨callsUpTo stop item.run ts ts, Parser.collect stop item.run ts⟩]⟩

/-- The recorded parsers for what stands inside an expression or a statement. -/
structure Nested where
  assignment : Recorded RawExpr
  statement : Recorded RawStmt
  block : Recorded (List RawStmt)

def Nested.run (k : Nested) : Parse.Nested := ⟨k.assignment.run, k.statement.run, k.block.run⟩

section Grammar
variable (k : Nested)

def expression : Recorded RawExpr := chain [.comma] .binary k.assignment

def varRest : Recorded RawStmt := do
  let name ← expect .identifier "variable name"
  let equal ← accept [.equal]
  let initializer ← if equal.isSome then some <$> expression k else done none
  let _ ← expect .semicolon "';' after variable declaration"
  done (.varDecl name initializer)

def routine (before role : String) : Recorded (List Token × List RawStmt) := do
  let _ ← expect .leftParen ("'(' after " ++ before)
  let empty ← check .rightParen
  let params ← if empty then done [] else
    items "parameters" (expect .identifier "parameter name")
  let _ ← expect .rightParen "')' after parameters"
  let _ ← expect .leftBrace ("'\x7b' before " ++ role ++ " body")
  let body ← k.block
  done (params, body)

def method : Recorded RawMethod := do
  let name ← expect .identifier "method name"
  let (params, body) ← routine k "method name" "method"
  done (.mk name params body)

def classRest : Recorded RawStmt := do
  let name ← expect .identifier "class name"
  let _ ← expect .leftBrace "'\x7b' before class body"
  let methods ← collect Parse.atClose (some <$> method k)
  let _ ← expect .rightBrace "'\x7d' after class body"
  done (.classDecl name methods)

def functionRest : Recorded RawStmt := do
  let name ← expect .identifier "function name"
  let (params, body) ← routine k "function name" "function"
  done (.functionDecl name params body)

def declarationBody : Recorded RawStmt :=
  taking (fun t ts =>
    match t.kind with
    | .kwClass => some (classRest k)
    | .kwFun => if Parser.nextIs [.identifier] ts then some (functionRest k) else none
    | .kwVar => some (varRest k)
    | _ => none) k.statement

/-- A parser whose failure is caught. After it, tokens are skipped. -/
def attempt (p : Recorded α) : Recorded (Option α) where
  run ts :=
    let reply := p.run ts
    match reply.value with
    | some a => ⟨some (some a), reply.rest, reply.faults⟩
    | none => ⟨some none, Parse.recover reply.rest, reply.faults⟩
  record ts :=
    match (p.run ts).value with
    | some _ => p.record ts
    | none => (p.record ts).append ⟨[(p.run ts).rest, Parse.recover (p.run ts).rest], []⟩

def declaration : Recorded (Option RawStmt) := attempt (declarationBody k)

def block : Recorded (List RawStmt) := do
  let body ← sweep Parse.atClose (declaration k)
  let _ ← expect .rightBrace "'\x7d' after block"
  done body

def functionLiteral : Recorded RawExpr := do
  let name ← accept [.identifier]
  let before := if name.isSome then "function name" else "'fun'"
  let (params, body) ← routine k before "function"
  done (.function name params body)

def groupRest : Recorded RawExpr := do
  let inner ← expression k
  let _ ← expect .rightParen "')' after expression"
  done (.grouping inner)

def primary : Recorded RawExpr :=
  taking (fun t _ =>
    match t.kind with
    | .kwFalse => some (done (.literal (.bool false)))
    | .kwTrue => some (done (.literal (.bool true)))
    | .kwNil => some (done (.literal .nil))
    | .number => some (done (.literal t.literal))
    | .string => some (done (.literal t.literal))
    | .kwThis => some (done (.this t ()))
    | .identifier => some (done (.variable t ()))
    | .kwFun => some (functionLiteral k)
    | .leftParen => some (groupRest k)
    | _ => none) (fail (.expected "expression"))

def callRest (callee : RawExpr) : Recorded RawExpr := do
  let empty ← check .rightParen
  let arguments ← if empty then done [] else items "arguments" k.assignment
  let paren ← expect .rightParen "')' after arguments"
  done (.call callee paren arguments)

def suffix? (left : RawExpr) : Recorded (Option RawExpr) :=
  taking (fun t _ =>
    match t.kind with
    | .leftParen => some (some <$> callRest k left)
    | .dot => some do
        let name ← expect .identifier "property name after '.'"
        done (some (Expr.get left name))
    | _ => none) (done none)

def call : Recorded RawExpr := do
  let first ← primary k
  repeated (suffix? k) first

def unaryRecord : List Token → Record
  | [] => (call k).record []
  | t :: ts =>
    if t.kind = .bang ∨ t.kind = .minus then .append ⟨[t :: ts, ts], []⟩ (unaryRecord ts)
    else (call k).record (t :: ts)

def unary : Recorded RawExpr := ⟨Parse.unary k.run, unaryRecord k⟩

def operation : Recorded RawExpr :=
  Parse.levels.foldr (fun level operand => chain level.kinds level.node operand) (unary k)

def assignment : Recorded RawExpr := do
  let left ← operation k
  match ← accept Parse.assignmentSigns with
  | none => done left
  | some sign => do
    let value ← k.assignment
    match left with
    | .variable name _ => done (.assign name (Parse.compoundOperator sign) value ())
    | .get object name => done (.set object name (Parse.compoundOperator sign) value)
    | _ => do
      noteAt (some sign) .invalidTarget
      done left

def expressionStatement : Recorded RawStmt := do
  let value ← expression k
  let _ ← expect .semicolon "';' after expression"
  done (.expression value)

def printRest : Recorded RawStmt := do
  let value ← expression k
  let _ ← expect .semicolon "';' after value"
  done (.print value)

def returnRest (keyword : Token) : Recorded RawStmt := do
  let bare ← check .semicolon
  let value ← if bare then done none else some <$> expression k
  let _ ← expect .semicolon "';' after return value"
  done (.returnFrom keyword value)

def loopExitRest (keyword : Token) (make : Token → RawStmt) : Recorded RawStmt := do
  let _ ← expect .semicolon ("';' after '" ++ keyword.lexeme ++ "'")
  done (make keyword)

def ifRest : Recorded RawStmt := do
  let _ ← expect .leftParen "'(' after 'if'"
  let condition ← expression k
  let _ ← expect .rightParen "')' after if condition"
  let yes ← k.statement
  let other ← accept [.kwElse]
  let no ← if other.isSome then some <$> k.statement else done none
  done (.ifElse condition yes no)

def whileRest : Recorded RawStmt := do
  let _ ← expect .leftParen "'(' after 'while'"
  let condition ← expression k
  let _ ← expect .rightParen "')' after while condition"
  let body ← k.statement
  done (.loop condition body none)

def forInitializer : Recorded (Option RawStmt) :=
  taking (fun t _ =>
    match t.kind with
    | .semicolon => some (done none)
    | .kwVar => some (some <$> varRest k)
    | _ => none) (some <$> expressionStatement k)

def expressionUnless (kind : Kind) : Recorded (Option RawExpr) := do
  let missing ← check kind
  if missing then done none else some <$> expression k

def forRest : Recorded RawStmt := do
  let _ ← expect .leftParen "'(' after 'for'"
  let initializer ← forInitializer k
  let condition ← expressionUnless k .semicolon
  let _ ← expect .semicolon "';' after loop condition"
  let increment ← expressionUnless k .rightParen
  let _ ← expect .rightParen "')' after for clauses"
  let body ← k.statement
  let loop := .loop (condition.getD (.literal (.bool true))) body increment
  match initializer with
  | none => done loop
  | some first => done (.block [first, loop])

def statement : Recorded RawStmt :=
  taking (fun t _ =>
    match t.kind with
    | .kwFor => some (forRest k)
    | .kwIf => some (ifRest k)
    | .kwWhile => some (whileRest k)
    | .kwPrint => some (printRest k)
    | .kwReturn => some (returnRest k t)
    | .kwBreak => some (loopExitRest t .breakLoop)
    | .kwContinue => some (loopExitRest t .continueLoop)
    | .leftBrace => some (mapped .block k.block)
    | _ => none) (expressionStatement k)

end Grammar

def nested : Nat → Nested
  | 0 => ⟨single .stuck, single .stuck, single .stuck⟩
  | depth + 1 =>
    let inner := nested depth
    ⟨assignment inner, statement inner, block inner⟩

/-- The declarations of a program, closed deeply enough for some words. -/
def declarations (words : List Token) : Recorded (List RawStmt) :=
  sweep List.isEmpty (declaration (nested (Parse.depthFor words.length)))

def program : Recorded (List RawStmt) where
  run words := (declarations words).run words
  record words := (declarations words).record words

theorem run_bind (p : Recorded α) (f : α → Recorded β) :
    (p >>= f).run = p.run >>= fun a => (f a).run := rfl

theorem run_map (f : α → β) (p : Recorded α) : (f <$> p).run = f <$> p.run := rfl

theorem run_ite {c : Prop} [Decidable c] (p q : Recorded α) :
    (if c then p else q).run = if c then p.run else q.run := apply_ite run c p q

theorem run_repeatUpTo (step : α → Recorded (Option α)) (fuel : List Token) (a : α) :
    (repeatUpTo step fuel a).run = .repeatUpTo (fun a => (step a).run) fuel a := by
  induction fuel generalizing a with
  | nil => rfl
  | cons _ fuel ih =>
    rw [repeatUpTo, Parser.repeatUpTo, run_bind]
    congr
    funext b
    cases b with
    | none => rfl
    | some b => exact ih b

theorem run_collectUpTo (stop : List Token → Bool) (item : Recorded (Option α))
    (fuel : List Token) :
    (collectUpTo stop item fuel).run = .collectUpTo stop item.run fuel := by
  induction fuel with
  | nil => rfl
  | cons _ fuel ih =>
    funext ts
    simp only [collectUpTo, Parser.collectUpTo, endingAt, run_bind, ih]
    rfl

section Combinators
variable (what : String) (kinds : List Kind) (node : α → Token → α → α) (item : Recorded α)

@[simp] theorem run_items : (items what item).run = .items what item.run := by
  have hstep (found : List α) : (nextItem? what item found).run =
      .nextItem? what item.run found := by
    simp only [nextItem?, Parser.nextItem?, run_bind]
    congr
    funext comma
    cases comma with
    | none => rfl
    | some comma => 
      simp only [run_ite, run_bind]
      rfl
  simp only [items, Parser.items, run_bind, repeated, hstep]

@[simp] theorem run_chain : (chain kinds node item).run = .chain kinds node item.run := by
  have hstep (left : α) : (nextOperand? kinds node item left).run =
      .nextOperand? kinds node item.run left := by
    simp only [nextOperand?, Parser.nextOperand?, run_bind]
    congr
    funext operator
    cases operator <;> rfl
  simp only [chain, Parser.chain, run_bind, repeated, hstep]

end Combinators

section Grammar
variable (k : Nested)

@[simp] theorem run_expression : (expression k).run = Parse.expression k.run :=
  run_chain _ _ _

@[simp] theorem run_varRest : (varRest k).run = Parse.varRest k.run := by
  simp only [varRest, Parse.varRest, run_bind, run_ite, run_map, run_expression]
  rfl

@[simp] theorem run_routine (before role : String) :
    (routine k before role).run = Parse.routine k.run before role := by
  simp only [routine, Parse.routine, run_bind, run_ite, run_items]
  rfl

@[simp] theorem run_method : (method k).run = Parse.method k.run := by
  simp only [method, Parse.method, run_bind, run_routine]
  rfl

@[simp] theorem run_classRest : (classRest k).run = Parse.classRest k.run := by
  simp only [classRest, Parse.classRest, run_bind, run_map, collect, run_method]
  rfl

@[simp] theorem run_functionRest : (functionRest k).run = Parse.functionRest k.run := by
  simp only [functionRest, Parse.functionRest, run_bind, run_routine]
  rfl

@[simp] theorem run_declarationBody : (declarationBody k).run = Parse.declarationBody k.run := by
  funext ts
  cases ts with
  | nil => rfl
  | cons t ts =>
    simp only [declarationBody, taking, Parse.declarationBody]
    cases t.kind with
    | kwFun => by_cases h : Parser.nextIs [.identifier] ts <;> simp [h, Nested.run]
    | _ => simp [Nested.run]

@[simp] theorem run_declaration : (declaration k).run = Parse.declaration k.run := by
  funext ts
  simp only [declaration, attempt, Parse.declaration, run_declarationBody]
  cases (Parse.declarationBody k.run ts).value <;> rfl

@[simp] theorem run_block : (block k).run = Parse.block k.run := by
  simp only [block, Parse.block, run_bind, sweep, run_declaration]
  rfl

@[simp] theorem run_functionLiteral : (functionLiteral k).run = Parse.functionLiteral k.run := by
  simp only [functionLiteral, Parse.functionLiteral, run_bind, run_routine]
  rfl

@[simp] theorem run_groupRest : (groupRest k).run = Parse.groupRest k.run := by
  simp only [groupRest, Parse.groupRest, run_bind, run_expression]
  rfl

@[simp] theorem run_primary : (primary k).run = Parse.primary k.run := by
  funext ts
  cases ts with
  | nil => rfl
  | cons t ts =>
    simp only [primary, taking, Parse.primary]
    cases t.kind <;> simp [done, fail, single]

@[simp] theorem run_callRest (callee : RawExpr) :
    (callRest k callee).run = Parse.callRest k.run callee := by
  simp only [callRest, Parse.callRest, run_bind, run_ite, run_items]
  rfl

@[simp] theorem run_suffix? (left : RawExpr) :
    (suffix? k left).run = Parse.suffix? k.run left := by
  funext ts
  cases ts with
  | nil => rfl
  | cons t ts =>
    simp only [suffix?, taking, Parse.suffix?]
    cases t.kind with
    | leftParen => simp only [run_map, run_callRest]
    | _ => rfl

@[simp] theorem run_call : (call k).run = Parse.call k.run := by
  simp only [call, Parse.call, run_bind, repeated, run_primary, run_suffix?]

@[simp] theorem run_operation : (operation k).run = Parse.operation k.run := by
  have hlevels (levels : List Level) :
      (levels.foldr (fun level operand => chain level.kinds level.node operand) (unary k)).run =
        levels.foldr (fun level operand => Parser.chain level.kinds level.node operand)
          (Parse.unary k.run) := by
    induction levels with
    | nil => rfl
    | cons level levels ih => simp only [List.foldr_cons, run_chain, ih]
  exact hlevels Parse.levels

@[simp] theorem run_assignment : (assignment k).run = Parse.assignment k.run := by
  simp only [assignment, Parse.assignment, run_bind, run_operation]
  congr
  funext left
  congr
  funext sign
  cases sign with
  | none => rfl
  | some sign =>
    simp only [run_bind]
    congr
    funext value
    cases left <;> rfl

@[simp] theorem run_expressionStatement :
    (expressionStatement k).run = Parse.expressionStatement k.run := by
  simp only [expressionStatement, Parse.expressionStatement, run_bind, run_expression]
  rfl

@[simp] theorem run_printRest : (printRest k).run = Parse.printRest k.run := by
  simp only [printRest, Parse.printRest, run_bind, run_expression]
  rfl

@[simp] theorem run_returnRest (keyword : Token) :
    (returnRest k keyword).run = Parse.returnRest k.run keyword := by
  simp only [returnRest, Parse.returnRest, run_bind, run_ite, run_map, run_expression]
  rfl

@[simp] theorem run_ifRest : (ifRest k).run = Parse.ifRest k.run := by
  simp only [ifRest, Parse.ifRest, run_bind, run_ite, run_map, run_expression]
  rfl

@[simp] theorem run_whileRest : (whileRest k).run = Parse.whileRest k.run := by
  simp only [whileRest, Parse.whileRest, run_bind, run_expression]
  rfl

@[simp] theorem run_forInitializer : (forInitializer k).run = Parse.forInitializer k.run := by
  funext ts
  cases ts with
  | nil => simp [forInitializer, taking, Parse.forInitializer, run_map]
  | cons t ts =>
    simp only [forInitializer, taking, Parse.forInitializer]
    cases t.kind <;> simp [run_map, done]

@[simp] theorem run_expressionUnless (kind : Kind) :
    (expressionUnless k kind).run = Parse.expressionUnless k.run kind := by
  simp only [expressionUnless, Parse.expressionUnless, run_bind, run_ite, run_map, run_expression]
  rfl

@[simp] theorem run_forRest : (forRest k).run = Parse.forRest k.run := by
  simp only [forRest, Parse.forRest, run_bind, run_forInitializer, run_expressionUnless]
  congr
  funext _
  congr
  funext initializer
  cases initializer <;> rfl

@[simp] theorem run_statement : (statement k).run = Parse.statement k.run := by
  funext ts
  cases ts with
  | nil => simp [statement, taking, Parse.statement]
  | cons t ts =>
    simp only [statement, taking, Parse.statement]
    cases t.kind with
    | leftBrace | kwBreak | kwContinue => rfl
    | _ => simp

end Grammar

theorem run_nested (depth : Nat) : (nested depth).run = Parse.nested depth := by
  induction depth with
  | zero => rfl
  | succ depth ih =>
    change Parse.Nested.mk (assignment (nested depth)).run (statement (nested depth)).run
      (block (nested depth)).run = _
    rw [run_assignment, run_statement, run_block, ih]
    rfl

/-- Without its record, the recorded parser is the parser. -/
theorem run_program : program.run = Parse.program := by
  funext ts
  simp only [program, declarations, sweep, run_declaration, run_nested]
  rfl

end Recorded
end LoxScript
