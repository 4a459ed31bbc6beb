import LoxScript.Tree.Reply
import LoxScript.Diagnostic

/-!
From tokens to trees by recursive descent.

From the loosest to the tightest, the operators are the comma, assignment, `or`, `and`, equality,
comparison, sum, product, remainder and power; all chains group to the left but assignments, which
group to the right. The grammar refers to itself in three places only, an assignment inside an
expression, a statement inside a statement, and a block inside either, so it is written over
parsers for these and closed level by level, as often as the number of tokens can nest.

A declaration that cannot be finished is left out, and reading goes on after the next semicolon or
in front of the next word that starts a statement.
-/
namespace LoxScript

abbrev RawExpr := Expr Unit

abbrev RawStmt := Stmt Unit

abbrev RawMethod := Method Unit

namespace Parse
open LoxScript.Parser

/-- The parsers for what stands inside an expression or a statement. -/
structure Nested where
  assignment : Parser RawExpr
  statement : Parser RawStmt
  /-- Declarations up to the closing brace of a block whose opening brace has been taken. -/
  block : Parser (List RawStmt)

/-- A level of binary operators: their kinds and the node they make. -/
structure Level where
  kinds : List Kind
  node : RawExpr → Token → RawExpr → RawExpr

/-- The levels between assignment and the unary operators, from the loosest. -/
def levels : List Level :=
  [⟨[.kwOr], .logical⟩, ⟨[.kwAnd], .logical⟩, ⟨[.bangEqual, .equalEqual], .binary⟩,
    ⟨[.greater, .greaterEqual, .less, .lessEqual], .binary⟩, ⟨[.minus, .plus], .binary⟩,
    ⟨[.slash, .star], .binary⟩, ⟨[.percent], .binary⟩, ⟨[.hat], .binary⟩]

/-- The words that start a statement, in front of which reading goes on after a fault. -/
def statementStarts : List Kind :=
  [.kwClass, .kwFun, .kwVar, .kwFor, .kwIf, .kwWhile, .kwPrint, .kwReturn, .kwBreak, .kwContinue]

/-- Skips to behind a semicolon or in front of a word that starts a statement, the token in front
of the rest being `previous`. -/
def skipFrom (previous : Token) : List Token → List Token
  | [] => []
  | t :: ts =>
    if previous.kind = .semicolon ∨ statementStarts.contains t.kind then t :: ts else skipFrom t ts

/-- The tokens at which reading goes on after a fault. One token is always dropped. -/
def recover : List Token → List Token
  | [] => []
  | t :: ts => skipFrom t ts

/-- Whether a block or a class body ends here. -/
def atClose (ts : List Token) : Bool := ts.isEmpty || nextIs [.rightBrace] ts

section Grammar

variable (k : Nested)

/-- An expression: assignments with commas between them. -/
def expression : Parser RawExpr := chain [.comma] .binary k.assignment

/-- The rest of a declaration that begins with `var`. -/
def varRest : Parser RawStmt := do
  let name ← expect .identifier "variable name"
  let equal ← accept [.equal]
  let initializer ← if equal.isSome then some <$> expression k else done none
  let _ ← expect .semicolon "';' after variable declaration"
  done (.varDecl name initializer)

/-- The rest of a function after its name or `fun`, which `before` names. -/
def routine (before role : String) : Parser (List Token × List RawStmt) := do
  let _ ← expect .leftParen ("'(' after " ++ before)
  let empty ← check .rightParen
  let params ← if empty then done [] else
    items "parameters" (expect .identifier "parameter name")
  let _ ← expect .rightParen "')' after parameters"
  let _ ← expect .leftBrace ("'\x7b' before " ++ role ++ " body")
  let body ← k.block
  done (params, body)

/-- A method: a name and the rest of a function. -/
def method : Parser RawMethod := do
  let name ← expect .identifier "method name"
  let (params, body) ← routine k "method name" "method"
  done (.mk name params body)

/-- The rest of a declaration that begins with `class`. -/
def classRest : Parser RawStmt := do
  let name ← expect .identifier "class name"
  let _ ← expect .leftBrace "'\x7b' before class body"
  let methods ← collect atClose (some <$> method k)
  let _ ← expect .rightBrace "'\x7d' after class body"
  done (.classDecl name methods)

/-- The rest of a declaration that begins with `fun` and a name. -/
def functionRest : Parser RawStmt := do
  let name ← expect .identifier "function name"
  let (params, body) ← routine k "function name" "function"
  done (.functionDecl name params body)

/-- A declaration that may give up. -/
def declarationBody : Parser RawStmt
  | [] => k.statement []
  | t :: ts =>
    match t.kind with
    | .kwClass => classRest k ts
    | .kwFun => if nextIs [.identifier] ts then functionRest k ts else k.statement (t :: ts)
    | .kwVar => varRest k ts
    | _ => k.statement (t :: ts)

/-- A declaration, or nothing in place of one that gave up, after which reading goes on. -/
def declaration : Parser (Option RawStmt) := fun ts =>
  let reply := declarationBody k ts
  match reply.value with
  | some s => ⟨some (some s), reply.rest, reply.faults⟩
  | none => ⟨some none, recover reply.rest, reply.faults⟩

/-- Declarations up to the closing brace of a block. -/
def block : Parser (List RawStmt) := do
  let body ← collect atClose (declaration k)
  let _ ← expect .rightBrace "'\x7d' after block"
  done body

/-- The rest of a function literal after `fun`. -/
def functionLiteral : Parser RawExpr := do
  let name ← accept [.identifier]
  let before := if name.isSome then "function name" else "'fun'"
  let (params, body) ← routine k before "function"
  done (.function name params body)

def groupRest : Parser RawExpr := do
  let inner ← expression k
  let _ ← expect .rightParen "')' after expression"
  done (.grouping inner)

/-- A constant, a name, a function literal or a parenthesised expression. -/
def primary : Parser RawExpr
  | [] => fail (.expected "expression") []
  | t :: ts =>
    match t.kind with
    | .kwFalse => done (.literal (.bool false)) ts
    | .kwTrue => done (.literal (.bool true)) ts
    | .kwNil => done (.literal .nil) ts
    | .number => done (.literal t.literal) ts
    | .string => done (.literal t.literal) ts
    | .kwThis => done (.this t ()) ts
    | .identifier => done (.variable t ()) ts
    | .kwFun => functionLiteral k ts
    | .leftParen => groupRest k ts
    | _ => fail (.expected "expression") (t :: ts)

/-- The rest of a call after its opening parenthesis. -/
def callRest (callee : RawExpr) : Parser RawExpr := do
  let empty ← check .rightParen
  let arguments ← if empty then done [] else items "arguments" k.assignment
  let paren ← expect .rightParen "')' after arguments"
  done (.call callee paren arguments)

/-- A call or a field behind an expression, if there is one. -/
def suffix? (left : RawExpr) : Parser (Option RawExpr)
  | [] => done none []
  | t :: ts =>
    match t.kind with
    | .leftParen => (some <$> callRest k left) ts
    | .dot => (do
        let name ← expect .identifier "property name after '.'"
        done (some (Expr.get left name))) ts
    | _ => done none (t :: ts)

def call : Parser RawExpr := do
  let first ← primary k
  repeated (suffix? k) first

/-- Unary operators in front of an operand. -/
def unary : Parser RawExpr
  | [] => call k []
  | t :: ts =>
    if t.kind = .bang ∨ t.kind = .minus then (unary ts).map (.unary t) else call k (t :: ts)

/-- The binary operators between assignment and the unary operators. -/
def operation : Parser RawExpr :=
  levels.foldr (fun level operand => chain level.kinds level.node operand) (unary k)

def assignmentSigns : List Kind := [.equal, .plusEqual, .minusEqual, .starEqual, .slashEqual]

/-- The operator of an assignment sign, if it is a compound one. -/
def compoundOperator (sign : Token) : Option Token :=
  if sign.kind = .equal then none else some sign

/-- An assignment or an operation. The target is read as an operation first; what cannot be
assigned to is a fault, and stands for the whole. -/
def assignment : Parser RawExpr := do
  let left ← operation k
  match ← accept assignmentSigns with
  | none => done left
  | some sign => do
    let value ← k.assignment
    match left with
    | .variable name _ => done (.assign name (compoundOperator sign) value ())
    | .get object name => done (.set object name (compoundOperator sign) value)
    | _ => do
      noteAt (some sign) .invalidTarget
      done left

def expressionStatement : Parser RawStmt := do
  let value ← expression k
  let _ ← expect .semicolon "';' after expression"
  done (.expression value)

/-- The rest of a statement that begins with `print`. -/
def printRest : Parser RawStmt := do
  let value ← expression k
  let _ ← expect .semicolon "';' after value"
  done (.print value)

/-- The rest of a statement that begins with `return`. -/
def returnRest (keyword : Token) : Parser RawStmt := do
  let bare ← check .semicolon
  let value ← if bare then done none else some <$> expression k
  let _ ← expect .semicolon "';' after return value"
  done (.returnFrom keyword value)

/-- The rest of a statement that leaves or repeats a loop. -/
def loopExitRest (keyword : Token) (make : Token → RawStmt) : Parser RawStmt := do
  let _ ← expect .semicolon ("';' after '" ++ keyword.lexeme ++ "'")
  done (make keyword)

/-- The rest of a statement that begins with `if`. An `else` belongs to the nearest one. -/
def ifRest : Parser RawStmt := do
  let _ ← expect .leftParen "'(' after 'if'"
  let condition ← expression k
  let _ ← expect .rightParen "')' after if condition"
  let yes ← k.statement
  let other ← accept [.kwElse]
  let no ← if other.isSome then some <$> k.statement else done none
  done (.ifElse condition yes no)

/-- The rest of a statement that begins with `while`. -/
def whileRest : Parser RawStmt := do
  let _ ← expect .leftParen "'(' after 'while'"
  let condition ← expression k
  let _ ← expect .rightParen "')' after while condition"
  let body ← k.statement
  done (.loop condition body none)

/-- What stands before the first semicolon of a `for`, and that semicolon. -/
def forInitializer : Parser (Option RawStmt)
  | [] => (some <$> expressionStatement k) []
  | t :: ts =>
    match t.kind with
    | .semicolon => done none ts
    | .kwVar => (some <$> varRest k) ts
    | _ => (some <$> expressionStatement k) (t :: ts)

/-- An expression, unless a token of the given kind stands in its place. -/
def expressionUnless (kind : Kind) : Parser (Option RawExpr) := do
  let missing ← check kind
  if missing then done none else some <$> expression k

/-- The rest of a statement that begins with `for`: a loop, in a block with what comes before it. -/
def forRest : Parser RawStmt := do
  let _ ← expect .leftParen "'(' after 'for'"
  let initializer ← forInitializer k
  let condition ← expressionUnless k .semicolon
  let _ ← expect .semicolon "';' after loop condition"
  let increment ← expressionUnless k .rightParen
  let _ ← expect .rightParen "')' after for clauses"
  let body ← k.statement
  let loop := .loop (condition.getD (.literal (.bool true))) body increment
  match initializer with
  | none => done loop
  | some first => done (.block [first, loop])

def statement : Parser RawStmt
  | [] => expressionStatement k []
  | t :: ts =>
    match t.kind with
    | .kwFor => forRest k ts
    | .kwIf => ifRest k ts
    | .kwWhile => whileRest k ts
    | .kwPrint => printRest k ts
    | .kwReturn => returnRest k t ts
    | .kwBreak => loopExitRest t .breakLoop ts
    | .kwContinue => loopExitRest t .continueLoop ts
    | .leftBrace => (k.block ts).map .block
    | _ => expressionStatement k (t :: ts)

end Grammar

/-- The grammar closed `depth` levels deep. -/
def nested : Nat → Nested
  | 0 => ⟨stuck, stuck, stuck⟩
  | depth + 1 =>
    let inner := nested depth
    ⟨assignment inner, statement inner, block inner⟩

/-- Levels that suffice for a number of tokens. At one token a block can open a statement and that
an assignment; to open a further level takes a token. -/
def depthFor (count : Nat) : Nat := 3 * count + 4

/-- The statements of a text and its faults. -/
def program : Parser (List RawStmt) := fun ts =>
  collect List.isEmpty (declaration (nested (depthFor ts.length))) ts

/-- The trees of a program and its static errors. -/
structure Outcome where
  program : List RawStmt
  diagnostics : List Diagnostic

/-- A fault as a static error, `last` being the mark at the end of the text. -/
def Fault.diagnostic (last : Token) (f : Fault) : Diagnostic :=
  ⟨.token (f.token.getD last), f.cause.message⟩

end Parse

/-- Parses tokens up to the first mark for the end of the text. -/
def parse (tokens : List Token) : Parse.Outcome :=
  let words := tokens.takeWhile (·.kind != .eof)
  let last := (tokens.find? (·.kind == .eof)).getD (.endOfText 0)
  let reply := Parse.program words
  ⟨reply.value.getD [], reply.faults.map (·.diagnostic last)⟩

end LoxScript
