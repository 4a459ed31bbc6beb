/-!
Sets of characters given as increasing lists of closed code point ranges.
-/
namespace LoxScript.Text

/-- Whether code point `n` lies in one of the closed ranges of an increasing list. The search
stops at the first range that ends at or after `n`. -/
def inRanges (n : Nat) : List (Nat × Nat) → Bool
  | [] => false
  | (low, high) :: ranges => if n ≤ high then low ≤ n else inRanges n ranges

end LoxScript.Text
