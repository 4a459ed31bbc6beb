import LoxScript.Tree.Parser

/-!
The grammar of the language.

A derivation says that the tokens of a list that stand in front of a rest are a phrase, and which
tree the phrase has. The rules are those of the grammar from the loosest to the tightest:

    program        ::= declaration* EOF
    declaration    ::= classDecl | funDecl | varDecl | statement
    classDecl      ::= "class" IDENTIFIER "{" method* "}"
    method         ::= IDENTIFIER "(" parameters? ")" block
    funDecl        ::= "fun" IDENTIFIER "(" parameters? ")" block
    varDecl        ::= "var" IDENTIFIER ( "=" expression )? ";"
    statement      ::= exprStmt | forStmt | ifStmt | printStmt | returnStmt | whileStmt
                     | breakStmt | continueStmt | block
    forStmt        ::= "for" "(" ( varDecl | exprStmt | ";" ) expression? ";" expression? ")"
                       statement
    expression     ::= comma
    comma          ::= assignment ( "," assignment )*
    assignment     ::= ( call "." )? IDENTIFIER ( "=" | "+=" | "-=" | "*=" | "/=" ) assignment
                     | logic_or
    logic_or       ::= logic_and ( "or" logic_and )*
    logic_and      ::= equality ( "and" equality )*
    equality       ::= comparison ( ( "!=" | "==" ) comparison )*
    comparison     ::= addition ( ( ">" | ">=" | "<" | "<=" ) addition )*
    addition       ::= multiplication ( ( "-" | "+" ) multiplication )*
    multiplication ::= modulo ( ( "/" | "*" ) modulo )*
    modulo         ::= exponent ( "%" exponent )*
    exponent       ::= unary ( "^" unary )*
    unary          ::= ( "!" | "-" ) unary | call
    call           ::= primary ( "(" arguments? ")" | "." IDENTIFIER )*
    arguments      ::= assignment ( "," assignment )*
    primary        ::= "true" | "false" | "nil" | "this" | NUMBER | STRING | IDENTIFIER
                     | "(" expression ")" | "fun" IDENTIFIER? "(" parameters? ")" block

A declaration that starts with `fun` and a name is a function declaration only, and an `else`
belongs to the nearest `if`.
-/
namespace LoxScript.Grammar

/-- The kinds of expressions, from the loosest. -/
inductive Tier where
  | comma
  | assignment
  | or
  | and
  | equality
  | comparison
  | addition
  | multiplication
  | modulo
  | exponent
  | unary
  | call
  | primary
deriving DecidableEq, Repr

namespace Tier

def tighter : Tier → Tier
  | comma => assignment
  | assignment => or
  | or => and
  | and => equality
  | equality => comparison
  | comparison => addition
  | addition => multiplication
  | multiplication => modulo
  | modulo => exponent
  | exponent => unary
  | unary => call
  | call => primary
  | primary => primary

/-- The binary operators of a chain. -/
def operators : Tier → List Kind
  | comma => [.comma]
  | or => [.kwOr]
  | and => [.kwAnd]
  | equality => [.bangEqual, .equalEqual]
  | comparison => [.greater, .greaterEqual, .less, .lessEqual]
  | addition => [.minus, .plus]
  | multiplication => [.slash, .star]
  | modulo => [.percent]
  | exponent => [.hat]
  | _ => []

/-- The tree of an operator with its operands. -/
def node : Tier → RawExpr → Token → RawExpr → RawExpr
  | or => .logical
  | and => .logical
  | _ => .binary

end Tier

def signs : List Kind := [.equal, .plusEqual, .minusEqual, .starEqual, .slashEqual]

/-- What an assignment applies before it assigns. -/
def compound (sign : Token) : Option Token :=
  match sign.kind with
  | .equal => none
  | _ => some sign

/-- The constant that a token stands for. -/
def constant? (t : Token) : Option Literal :=
  match t.kind with
  | .kwTrue => some (.bool true)
  | .kwFalse => some (.bool false)
  | .kwNil => some .nil
  | .number => some t.literal
  | .string => some t.literal
  | _ => none

/-- The loop of a `for`, in a block with what comes before it. -/
def forTree (initializer : Option RawStmt) (condition increment : Option RawExpr)
    (body : RawStmt) : RawStmt :=
  let loop := .loop (condition.getD (.literal (.bool true))) body increment
  match initializer with
  | none => loop
  | some first => .block [first, loop]

def most : Nat := 8

/-- Whether tokens start with `fun` and a name. -/
def StartsFunction (ts : List Token) : Prop :=
  ∃ keyword name rest, ts = keyword :: name :: rest ∧ keyword.kind = .kwFun ∧
    name.kind = .identifier

/-- The symbols of the grammar. A closed statement is one whose last `if` has an `else`, if it ends
with what an `if` governs. -/
inductive Symbol where
  | expr (l : Tier)
  /-- An expression or nothing. -/
  | option
  | argumentList
  /-- Arguments or nothing. -/
  | arguments
  | parameterList
  /-- Parameters or nothing. -/
  | parameters
  | block
  /-- A function behind its name. -/
  | routine
  | methods
  | varDecl
  | exprStmt
  | forStart
  | statement (closed : Bool)
  | declaration
  | declarations

/-- What phrases of a symbol stand for. -/
@[reducible]
def Symbol.Tree : Symbol → Type
  | expr _ => RawExpr
  | option => Option RawExpr
  | argumentList => List RawExpr
  | arguments => List RawExpr
  | parameterList => List Token
  | parameters => List Token
  | block => List RawStmt
  | routine => List Token × List RawStmt
  | methods => List RawMethod
  | varDecl => RawStmt
  | exprStmt => RawStmt
  | forStart => Option RawStmt
  | statement _ => RawStmt
  | declaration => RawStmt
  | declarations => List RawStmt

/-- Tokens in front of a rest are a phrase with a tree. -/
inductive Derives : (s : Symbol) → List Token → s.Tree → List Token → Prop
  -- expressions
  | pass {l ts e rest} (inner : l ≠ .primary) (operand : Derives (.expr l.tighter) ts e rest) :
      Derives (.expr l) ts e rest
  | chain {l ts left operator mid right rest} (first : Derives (.expr l) ts left (operator :: mid))
      (sign : operator.kind ∈ l.operators) (second : Derives (.expr l.tighter) mid right rest) :
      Derives (.expr l) ts (l.node left operator right) rest
  | assignName {name sign ts value rest} (named : name.kind = .identifier)
      (signed : sign.kind ∈ signs) (assigned : Derives (.expr .assignment) ts value rest) :
      Derives (.expr .assignment) (name :: sign :: ts) (.assign name (compound sign) value ()) rest
  | assignField {ts object dot name sign mid value rest}
      (target : Derives (.expr .call) ts object (dot :: name :: sign :: mid))
      (dotted : dot.kind = .dot) (named : name.kind = .identifier) (signed : sign.kind ∈ signs)
      (assigned : Derives (.expr .assignment) mid value rest) :
      Derives (.expr .assignment) ts (.set object name (compound sign) value) rest
  | unary {operator ts e rest} (signed : operator.kind ∈ [Kind.bang, .minus])
      (operand : Derives (.expr .unary) ts e rest) :
      Derives (.expr .unary) (operator :: ts) (.unary operator e) rest
  | call {ts callee opening mid es closing rest}
      (called : Derives (.expr .call) ts callee (opening :: mid))
      (opens : opening.kind = .leftParen) (given : Derives .arguments mid es (closing :: rest))
      (closes : closing.kind = .rightParen) :
      Derives (.expr .call) ts (.call callee closing es) rest
  | get {ts object dot name rest} (owner : Derives (.expr .call) ts object (dot :: name :: rest))
      (dotted : dot.kind = .dot) (named : name.kind = .identifier) :
      Derives (.expr .call) ts (.get object name) rest
  | constant {t value ts} (constant : constant? t = some value) :
      Derives (.expr .primary) (t :: ts) (.literal value) ts
  | this {t ts} (keyword : t.kind = .kwThis) : Derives (.expr .primary) (t :: ts) (.this t ()) ts
  | name {t ts} (named : t.kind = .identifier) :
      Derives (.expr .primary) (t :: ts) (.variable t ()) ts
  | grouping {opening ts e closing rest} (opens : opening.kind = .leftParen)
      (inner : Derives (.expr .comma) ts e (closing :: rest)) (closes : closing.kind = .rightParen) :
      Derives (.expr .primary) (opening :: ts) (.grouping e) rest
  | function {keyword ts params body rest} (keyed : keyword.kind = .kwFun)
      (inner : Derives .routine ts (params, body) rest) :
      Derives (.expr .primary) (keyword :: ts) (.function none params body) rest
  | namedFunction {keyword name ts params body rest} (keyed : keyword.kind = .kwFun)
      (named : name.kind = .identifier) (inner : Derives .routine ts (params, body) rest) :
      Derives (.expr .primary) (keyword :: name :: ts) (.function (some name) params body) rest
  | noExpr {ts} : Derives .option ts none ts
  | someExpr {ts e rest} (given : Derives (.expr .comma) ts e rest) :
      Derives .option ts (some e) rest
  -- arguments and parameters
  | argument {ts e rest} (given : Derives (.expr .assignment) ts e rest) :
      Derives .argumentList ts [e] rest
  | moreArguments {ts es comma mid e rest} (front : Derives .argumentList ts es (comma :: mid))
      (separated : comma.kind = .comma) (last : Derives (.expr .assignment) mid e rest) :
      Derives .argumentList ts (es ++ [e]) rest
  | noArguments {ts} : Derives .arguments ts [] ts
  | someArguments {ts es rest} (given : Derives .argumentList ts es rest)
      (few : es.length ≤ most) : Derives .arguments ts es rest
  | parameter {t ts} (named : t.kind = .identifier) : Derives .parameterList (t :: ts) [t] ts
  | moreParameters {ts params comma t rest}
      (front : Derives .parameterList ts params (comma :: t :: rest))
      (separated : comma.kind = .comma) (named : t.kind = .identifier) :
      Derives .parameterList ts (params ++ [t]) rest
  | noParameters {ts} : Derives .parameters ts [] ts
  | someParameters {ts params rest} (given : Derives .parameterList ts params rest)
      (few : params.length ≤ most) : Derives .parameters ts params rest
  -- blocks, functions and classes
  | block {opening ts body closing rest} (opens : opening.kind = .leftBrace)
      (inner : Derives .declarations ts body (closing :: rest))
      (closes : closing.kind = .rightBrace) : Derives .block (opening :: ts) body rest
  | routine {opening ts params closing mid body rest} (opens : opening.kind = .leftParen)
      (given : Derives .parameters ts params (closing :: mid))
      (closes : closing.kind = .rightParen) (inner : Derives .block mid body rest) :
      Derives .routine (opening :: ts) (params, body) rest
  | noMethods {ts} : Derives .methods ts [] ts
  | moreMethods {name ts params body mid methods rest} (named : name.kind = .identifier)
      (first : Derives .routine ts (params, body) mid)
      (others : Derives .methods mid methods rest) :
      Derives .methods (name :: ts) (.mk name params body :: methods) rest
  -- statements
  | exprStmt {ts e semicolon rest} (inner : Derives (.expr .comma) ts e (semicolon :: rest))
      (ends : semicolon.kind = .semicolon) : Derives .exprStmt ts (.expression e) rest
  | varDecl {keyword name semicolon rest} (keyed : keyword.kind = .kwVar)
      (named : name.kind = .identifier) (ends : semicolon.kind = .semicolon) :
      Derives .varDecl (keyword :: name :: semicolon :: rest) (.varDecl name none) rest
  | varDeclWith {keyword name equal ts e semicolon rest} (keyed : keyword.kind = .kwVar)
      (named : name.kind = .identifier) (equals : equal.kind = .equal)
      (value : Derives (.expr .comma) ts e (semicolon :: rest))
      (ends : semicolon.kind = .semicolon) :
      Derives .varDecl (keyword :: name :: equal :: ts) (.varDecl name (some e)) rest
  | forNothing {semicolon rest} (ends : semicolon.kind = .semicolon) :
      Derives .forStart (semicolon :: rest) none rest
  | forVar {ts s rest} (start : Derives .varDecl ts s rest) : Derives .forStart ts (some s) rest
  | forExpr {ts s rest} (start : Derives .exprStmt ts s rest) : Derives .forStart ts (some s) rest
  | expression {closed ts s rest} (inner : Derives .exprStmt ts s rest) :
      Derives (.statement closed) ts s rest
  | blockStmt {closed ts body rest} (inner : Derives .block ts body rest) :
      Derives (.statement closed) ts (.block body) rest
  | print {closed keyword ts e semicolon rest} (keyed : keyword.kind = .kwPrint)
      (value : Derives (.expr .comma) ts e (semicolon :: rest))
      (ends : semicolon.kind = .semicolon) :
      Derives (.statement closed) (keyword :: ts) (.print e) rest
  | returnStmt {closed keyword ts value semicolon rest} (keyed : keyword.kind = .kwReturn)
      (given : Derives .option ts value (semicolon :: rest))
      (ends : semicolon.kind = .semicolon) :
      Derives (.statement closed) (keyword :: ts) (.returnFrom keyword value) rest
  | breakStmt {closed keyword semicolon rest} (keyed : keyword.kind = .kwBreak)
      (ends : semicolon.kind = .semicolon) :
      Derives (.statement closed) (keyword :: semicolon :: rest) (.breakLoop keyword) rest
  | continueStmt {closed keyword semicolon rest} (keyed : keyword.kind = .kwContinue)
      (ends : semicolon.kind = .semicolon) :
      Derives (.statement closed) (keyword :: semicolon :: rest) (.continueLoop keyword) rest
  | whileStmt {closed keyword opening ts e closing mid s rest} (keyed : keyword.kind = .kwWhile)
      (opens : opening.kind = .leftParen) (condition : Derives (.expr .comma) ts e (closing :: mid))
      (closes : closing.kind = .rightParen) (body : Derives (.statement closed) mid s rest) :
      Derives (.statement closed) (keyword :: opening :: ts) (.loop e s none) rest
  | forStmt {closed keyword opening ts initializer mid condition semicolon mid' increment closing
        mid'' s rest} (keyed : keyword.kind = .kwFor) (opens : opening.kind = .leftParen)
      (start : Derives .forStart ts initializer mid)
      (test : Derives .option mid condition (semicolon :: mid'))
      (ends : semicolon.kind = .semicolon)
      (step : Derives .option mid' increment (closing :: mid''))
      (closes : closing.kind = .rightParen) (body : Derives (.statement closed) mid'' s rest) :
      Derives (.statement closed) (keyword :: opening :: ts)
        (forTree initializer condition increment s) rest
  | ifStmt {keyword opening ts e closing mid s rest} (keyed : keyword.kind = .kwIf)
      (opens : opening.kind = .leftParen) (condition : Derives (.expr .comma) ts e (closing :: mid))
      (closes : closing.kind = .rightParen) (yes : Derives (.statement false) mid s rest) :
      Derives (.statement false) (keyword :: opening :: ts) (.ifElse e s none) rest
  | ifElseStmt {closed keyword opening ts e closing mid yes other mid' no rest}
      (keyed : keyword.kind = .kwIf) (opens : opening.kind = .leftParen)
      (condition : Derives (.expr .comma) ts e (closing :: mid))
      (closes : closing.kind = .rightParen)
      (first : Derives (.statement true) mid yes (other :: mid'))
      (otherwise : other.kind = .kwElse) (second : Derives (.statement closed) mid' no rest) :
      Derives (.statement closed) (keyword :: opening :: ts) (.ifElse e yes (some no)) rest
  -- declarations
  | classDecl {keyword name opening ts methods closing rest} (keyed : keyword.kind = .kwClass)
      (named : name.kind = .identifier) (opens : opening.kind = .leftBrace)
      (inner : Derives .methods ts methods (closing :: rest))
      (closes : closing.kind = .rightBrace) :
      Derives .declaration (keyword :: name :: opening :: ts) (.classDecl name methods) rest
  | funDecl {keyword name ts params body rest} (keyed : keyword.kind = .kwFun)
      (named : name.kind = .identifier) (inner : Derives .routine ts (params, body) rest) :
      Derives .declaration (keyword :: name :: ts) (.functionDecl name params body) rest
  | variableDecl {ts s rest} (inner : Derives .varDecl ts s rest) : Derives .declaration ts s rest
  | statement {ts s rest} (inner : Derives (.statement false) ts s rest)
      (other : ¬ StartsFunction ts) : Derives .declaration ts s rest
  | noDeclarations {ts} : Derives .declarations ts [] ts
  | moreDeclarations {ts s mid ss rest} (first : Derives .declaration ts s mid)
      (others : Derives .declarations mid ss rest) : Derives .declarations ts (s :: ss) rest

end LoxScript.Grammar
