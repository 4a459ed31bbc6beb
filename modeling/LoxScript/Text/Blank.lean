import LoxScript.Text.Ranges

/-!
White space around an entry, and the text without it.
-/
namespace LoxScript.Text

/-- Spaces, tabs, line ends and the separators that count as white space at the edges of a text. -/
def blankRanges : List (Nat × Nat) :=
  [(9, 13), (28, 32), (133, 133), (160, 160), (5760, 5760), (8192, 8202), (8232, 8233),
    (8239, 8239), (8287, 8287), (12288, 12288)]

/-- A character that is dropped at the edges of a text. -/
def isBlank (c : Char) : Bool := inRanges c.toNat blankRanges

def trimStart (cs : List Char) : List Char := cs.dropWhile isBlank

def trim (cs : List Char) : List Char := (trimStart (trimStart cs).reverse).reverse

end LoxScript.Text
