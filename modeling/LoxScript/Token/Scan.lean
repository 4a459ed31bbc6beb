import LoxScript.Token
import LoxScript.Number.Arithmetic

/-!
From text to tokens. The text is cut into pieces from the front, each as long as its class allows: a
token, something that is skipped, a character that belongs to no token, or a string that is never
closed. Every piece is cut, so the pieces put together are the text.
-/
namespace LoxScript

/-- A place in a source: its line from one, and the offset in that line from zero. -/
structure Position where
  line : Nat
  column : Nat
deriving DecidableEq, Repr

namespace Position

def start : Position := ⟨1, 0⟩

def step (p : Position) (c : Char) : Position :=
  if c = '\n' then ⟨p.line + 1, 0⟩ else ⟨p.line, p.column + 1⟩

def after (p : Position) (cs : List Char) : Position := cs.foldl step p

end Position

inductive Piece where
  /-- A word of the language. -/
  | token (kind : Kind) (literal : Literal)
  /-- A blank, a line end or a comment. -/
  | skipped
  /-- A character that starts no word. -/
  | unexpected (c : Char)
  /-- A string without a closing quote. -/
  | unterminated
deriving DecidableEq

/-- A piece of text, its characters, and the text behind it. -/
structure Cut where
  piece : Piece
  taken : List Char
  rest : List Char

namespace Scan

def isDigit (c : Char) : Bool := '0' ≤ c && c ≤ '9'

def isLetter (c : Char) : Bool :=
  ('a' ≤ c && c ≤ 'z') || ('A' ≤ c && c ≤ 'Z') || c = '_'

def isWordPart (c : Char) : Bool := isLetter c || isDigit c

def isSpace (c : Char) : Bool := c = ' ' || c = '\r' || c = '\t'

/-- The double quote that encloses strings. -/
def quote : Char := '\x22'

/-- Words of one character that start no longer word. -/
def single? : Char → Option Kind
  | '(' => some .leftParen
  | ')' => some .rightParen
  | '\x7b' => some .leftBrace
  | '\x7d' => some .rightBrace
  | ',' => some .comma
  | '.' => some .dot
  | ';' => some .semicolon
  | '%' => some .percent
  | '^' => some .hat
  | _ => none

/-- Words of one character, and what they are with an equals sign behind them. -/
def double? : Char → Option (Kind × Kind)
  | '!' => some (.bang, .bangEqual)
  | '=' => some (.equal, .equalEqual)
  | '<' => some (.less, .lessEqual)
  | '>' => some (.greater, .greaterEqual)
  | '+' => some (.plus, .plusEqual)
  | '-' => some (.minus, .minusEqual)
  | '*' => some (.star, .starEqual)
  | '/' => some (.slash, .slashEqual)
  | _ => none

/-- A word of one character, or of two if an equals sign follows. -/
def cutOperator (c : Char) (plain withEqual : Kind) (rest : List Char) : Cut :=
  match rest with
  | '=' :: rest => ⟨.token withEqual .nil, [c, '='], rest⟩
  | rest => ⟨.token plain .nil, [c], rest⟩

def cutString (rest : List Char) : Cut :=
  let body := rest.takeWhile (· != quote)
  match rest.dropWhile (· != quote) with
  | [] => ⟨.unterminated, quote :: body, []⟩
  | close :: rest => ⟨.token .string (.text (.ofList body)), quote :: body ++ [close], rest⟩

/-- Digits, with a fraction if a point and at least one digit follow. -/
def cutNumber (first : Char) (rest : List Char) : Cut :=
  let whole := first :: rest.takeWhile isDigit
  match rest.dropWhile isDigit with
  | '.' :: d :: rest =>
    if isDigit d then
      let fraction := d :: rest.takeWhile isDigit
      ⟨.token .number (.number (Number.ofDigits whole fraction)), whole ++ '.' :: fraction,
        rest.dropWhile isDigit⟩
    else ⟨.token .number (.number (Number.ofDigits whole [])), whole, '.' :: d :: rest⟩
  | rest => ⟨.token .number (.number (Number.ofDigits whole [])), whole, rest⟩

def cutWord (first : Char) (rest : List Char) : Cut :=
  let word := first :: rest.takeWhile isWordPart
  ⟨.token (Kind.ofWord (.ofList word)) .nil, word, rest.dropWhile isWordPart⟩

/-- A comment up to the end of its line, which is left. -/
def cutComment (rest : List Char) : Cut :=
  ⟨.skipped, '/' :: rest.takeWhile (· != '\n'), rest.dropWhile (· != '\n')⟩

/-- The piece at the front of a text that is not empty. -/
def cut (c : Char) (rest : List Char) : Cut :=
  if c = '/' ∧ rest.head? = some '/' then cutComment rest
  else if let some kind := single? c then ⟨.token kind .nil, [c], rest⟩
  else if let some (plain, withEqual) := double? c then cutOperator c plain withEqual rest
  else if isSpace c ∨ c = '\n' then ⟨.skipped, [c], rest⟩
  else if c = quote then cutString rest
  else if isDigit c then cutNumber c rest
  else if isLetter c then cutWord c rest
  else ⟨.unexpected c, [c], rest⟩

theorem length_dropWhile_le (p : Char → Bool) (cs : List Char) :
    (cs.dropWhile p).length ≤ cs.length :=
  (List.dropWhile_sublist p).length_le

theorem rest_cutOperator (c : Char) (a b : Kind) (rest : List Char) :
    (cutOperator c a b rest).rest.length ≤ rest.length := by
  unfold cutOperator
  split <;> simp

theorem rest_cutString (rest : List Char) : (cutString rest).rest.length ≤ rest.length := by
  have h := length_dropWhile_le (· != quote) rest
  simp only [cutString]
  split
  · exact Nat.zero_le _
  · rename_i close tail heq
    rw [heq] at h
    exact Nat.le_of_succ_le h

theorem rest_cutNumber (c : Char) (rest : List Char) :
    (cutNumber c rest).rest.length ≤ rest.length := by
  have h := length_dropWhile_le isDigit rest
  simp only [cutNumber]
  split
  · rename_i d r heq
    have h' := length_dropWhile_le isDigit r
    rw [heq] at h
    simp only [List.length_cons] at h
    split
    · simp only
      omega
    · simp only [List.length_cons]
      omega
  · simpa using h

/-- What is left is never longer than what stood behind the first character. -/
theorem rest_cut (c : Char) (rest : List Char) : (cut c rest).rest.length ≤ rest.length := by
  unfold cut
  repeat' split
  · exact length_dropWhile_le _ _
  · exact Nat.le_refl _
  · exact rest_cutOperator _ _ _ _
  · exact Nat.le_refl _
  · exact rest_cutString _
  · exact rest_cutNumber _ _
  · exact length_dropWhile_le _ _
  · exact Nat.le_refl _

/-- A text cut into pieces from the front. -/
def cuts : List Char → List Cut
  | [] => []
  | c :: rest => cut c rest :: cuts (cut c rest).rest
termination_by cs => cs.length
decreasing_by exact Nat.lt_succ_of_le (rest_cut c rest)

inductive Fault where
  | unexpected (c : Char)
  | unterminated
deriving DecidableEq, Repr

def Fault.message : Fault → String
  | .unexpected c => "Unexpected character '" ++ c.toString ++ "'."
  | .unterminated => "Unterminated string."

/-- Tokens and faults in the order of the text. A fault stands on the line on which
its piece ends. -/
structure Outcome where
  tokens : List Token
  faults : List (Nat × Fault)

/-- One piece that starts at a place, put in front of what follows it. -/
def Outcome.add (start : Position) (c : Cut) (o : Outcome) : Outcome :=
  let line := (start.after c.taken).line
  match c.piece with
  | .token kind literal =>
    { o with tokens := ⟨kind, .ofList c.taken, literal, line, some start.column⟩ :: o.tokens }
  | .skipped => o
  | .unexpected d => { o with faults := (line, .unexpected d) :: o.faults }
  | .unterminated => { o with faults := (line, .unterminated) :: o.faults }

/-- The tokens and faults of a list of pieces that starts at a place. -/
def collect (start : Position) : List Cut → Outcome
  | [] => ⟨[.endOfText start.line], []⟩
  | c :: cs => Outcome.add start c (collect (start.after c.taken) cs)

end Scan

/-- The tokens of a source, ending with the one mark for its end, and what is wrong with it. -/
def scan (source : String) : Scan.Outcome := Scan.collect .start (Scan.cuts source.toList)

end LoxScript
