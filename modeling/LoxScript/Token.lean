/-!
Tokens: the words of the language with their kinds, values and places in the source.
-/
namespace LoxScript

inductive Kind where
  | leftParen | rightParen | leftBrace | rightBrace
  | comma | dot | minus | plus | semicolon | slash | star | percent | hat
  | bang | bangEqual | equal | equalEqual | greater | greaterEqual | less | lessEqual
  | plusEqual | minusEqual | starEqual | slashEqual
  | identifier | string | number
  | kwAnd | kwBreak | kwClass | kwContinue | kwElse | kwFalse | kwFun | kwFor | kwIf | kwNil | kwOr
  | kwPrint | kwReturn | kwThis | kwTrue | kwVar | kwWhile
  | eof
deriving DecidableEq, Repr, Inhabited

namespace Kind

def keywords : List (String × Kind) :=
  [("and", kwAnd), ("break", kwBreak), ("class", kwClass), ("continue", kwContinue),
    ("else", kwElse), ("false", kwFalse), ("for", kwFor), ("fun", kwFun), ("if", kwIf),
    ("nil", kwNil), ("or", kwOr), ("print", kwPrint), ("return", kwReturn), ("this", kwThis),
    ("true", kwTrue), ("var", kwVar), ("while", kwWhile)]

/-- The kind of a word made of letters, digits and underscores. -/
def ofWord (word : String) : Kind := (keywords.lookup word).getD identifier

/-- The operator that a compound assignment applies before it assigns. -/
def compound? : Kind → Option Kind
  | plusEqual => some plus
  | minusEqual => some minus
  | starEqual => some star
  | slashEqual => some slash
  | _ => none

/-- The kinds with the names by which token listings show them. -/
def names : List (Kind × String) :=
  [(leftParen, "LEFT_PAREN"), (rightParen, "RIGHT_PAREN"), (leftBrace, "LEFT_BRACE"),
    (rightBrace, "RIGHT_BRACE"), (comma, "COMMA"), (dot, "DOT"), (minus, "MINUS"), (plus, "PLUS"),
    (semicolon, "SEMICOLON"), (slash, "SLASH"), (star, "STAR"), (percent, "PERCENT"), (hat, "HAT"),
    (bang, "BANG"), (bangEqual, "BANG_EQUAL"), (equal, "EQUAL"), (equalEqual, "EQUAL_EQUAL"),
    (greater, "GREATER"), (greaterEqual, "GREATER_EQUAL"), (less, "LESS"),
    (lessEqual, "LESS_EQUAL"), (plusEqual, "PLUS_EQUAL"), (minusEqual, "MINUS_EQUAL"),
    (starEqual, "STAR_EQUAL"), (slashEqual, "SLASH_EQUAL"), (identifier, "IDENTIFIER"),
    (string, "STRING"), (number, "NUMBER"), (kwAnd, "AND"), (kwBreak, "BREAK"),
    (kwClass, "CLASS"), (kwContinue, "CONTINUE"), (kwElse, "ELSE"), (kwFalse, "FALSE"),
    (kwFun, "FUN"), (kwFor, "FOR"), (kwIf, "IF"), (kwNil, "NIL"), (kwOr, "OR"),
    (kwPrint, "PRINT"), (kwReturn, "RETURN"), (kwThis, "THIS"), (kwTrue, "TRUE"), (kwVar, "VAR"),
    (kwWhile, "WHILE"), (eof, "EOF")]

def name (k : Kind) : String := (names.lookup k).getD ""

end Kind

inductive Literal where
  | nil
  | bool (b : Bool)
  | number (x : Float)
  | text (s : String)
deriving DecidableEq, Inhabited

/-- A word of the source. Its line is the one on which it ends; its column is the offset of its
first character in the line on which it starts, if it is known. -/
structure Token where
  kind : Kind
  lexeme : String
  literal : Literal
  line : Nat
  column : Option Nat
deriving DecidableEq, Inhabited

/-- The mark after the last word, with no column. -/
def Token.endOfText (line : Nat) : Token := ⟨.eof, "", .nil, line, none⟩

end LoxScript
