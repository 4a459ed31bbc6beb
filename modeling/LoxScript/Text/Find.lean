/-!
Offsets of a word inside a line.
-/
namespace LoxScript.Text

/-- The first offset at which `word` stands in a text. -/
def offset? (word : List Char) : List Char → Option Nat
  | [] => if word.isEmpty then some 0 else none
  | c :: cs => if word.isPrefixOf (c :: cs) then some 0 else (offset? word cs).map (· + 1)

/-- The offset of `word` if it occurs, and does not occur again after that first occurrence. -/
def onlyOffset? (word text : List Char) : Option Nat :=
  match offset? word text with
  | none => none
  | some start =>
    match offset? word (text.drop (start + word.length)) with
    | none => some start
    | some _ => none

end LoxScript.Text
