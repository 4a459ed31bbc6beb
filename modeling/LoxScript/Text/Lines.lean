import LoxScript.Text.Ranges

/-!
Lines of a text. A quoted source ends a line at every character that ends a line for a reader; a
file that is read in has its line ends unified to a single newline.
-/
namespace LoxScript.Text

/-- The characters that end a line of a quoted source. -/
def lineEndRanges : List (Nat × Nat) :=
  [(10, 13), (28, 30), (133, 133), (8232, 8233)]

/-- A character that ends a line. -/
def isLineEnd (c : Char) : Bool := inRanges c.toNat lineEndRanges

/-- The lines of a text after the reversed beginning `line` of its first one. A carriage
return and a newline in a row end one line, and a line end at the end of the text starts
no further line. -/
def linesFrom (line : List Char) : List Char → List (List Char)
  | [] => if line.isEmpty then [] else [line.reverse]
  | '\r' :: '\n' :: cs => line.reverse :: linesFrom [] cs
  | c :: cs => if isLineEnd c then line.reverse :: linesFrom [] cs else linesFrom (c :: line) cs

/-- The lines of a text, without their ends. -/
def lines (cs : List Char) : List (List Char) := linesFrom [] cs

/-- A carriage return, alone or before a newline, becomes a newline. -/
def unifyLineEnds : List Char → List Char
  | [] => []
  | '\r' :: '\n' :: cs => '\n' :: unifyLineEnds cs
  | '\r' :: cs => '\n' :: unifyLineEnds cs
  | c :: cs => c :: unifyLineEnds cs

end LoxScript.Text
