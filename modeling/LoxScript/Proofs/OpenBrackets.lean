import LoxScript.Proofs.EndOfInput
import LoxScript.Proofs.Lexemes

/-!
Open brackets at the prompt.

The prompt judges whether an entry goes on by its characters, and the scanner cuts the same entry
into words. A bracket is a word wherever it stands but in a string or a comment. So both see the
same brackets but for the ones that strings and comments hide, and these the prompt takes for
brackets of the program.
-/
namespace LoxScript

open Scan

/-- The brackets and their kinds. -/
def Kind.brackets : List (Char × Kind) :=
  [('(', leftParen), (')', rightParen), ('\x7b', leftBrace), ('\x7d', rightBrace)]

/-- How many of some tokens have a kind. -/
def Token.number (kind : Kind) (ts : List Token) : Nat := (ts.map (·.kind)).count kind

/-- Whether some tokens have more opening than closing braces or parentheses. -/
def Token.leaveOpen (ts : List Token) : Bool :=
  number .rightBrace ts < number .leftBrace ts || number .rightParen ts < number .leftParen ts

/-- Whether a bracket in a piece is no word: the piece is a string or is skipped. -/
def Cut.hides (k : Cut) : Bool :=
  match k.piece with
  | .token kind _ => kind = .string
  | .skipped => true
  | .unexpected _ => false
  | .unterminated => true

/-- The text of the strings, comments and blanks of a source. -/
def hiddenText (source : String) : String :=
  .ofList (((cuts source.toList).filter (·.hides)).flatMap (·.taken))

/-- A bracket is a word by itself and no part of a name or a number. -/
theorem Kind.bracket_apart : ∀ b ∈ brackets, isWordPart b.1 = false ∧ b.1 ≠ '.' ∧
    b.2 ∉ [string, number, identifier, eof] ∧ (String.ofList [b.1], b.2) ∈ spellings := by
  decide

/-- A bracket stands in a word only if it is the word, or in a string. -/
theorem Lexeme.count_bracket {text : List Char} {kind : Kind} {literal : Literal}
    (h : Lexeme text kind literal) (hkind : kind ≠ .string) {b : Char × Kind}
    (hb : b ∈ Kind.brackets) : text.count b.1 = if kind = b.2 then 1 else 0 := by
  obtain ⟨hword, hpoint, hother, -⟩ := Kind.bracket_apart b hb
  simp only [List.mem_cons, List.not_mem_nil, or_false, not_or] at hother
  obtain ⟨-, hnumber, hidentifier, -⟩ := hother
  have hpart {d : Char} (hd : isWordPart d) : d ≠ b.1 := by
    rintro rfl
    exact Bool.false_ne_true (hword.symm.trans hd)
  have hdigit {d : Char} (hd : isDigit d) : d ≠ b.1 := hpart (by simp [isWordPart, hd])
  have hnone {cs : List Char} {kind : Kind} (hcs : ∀ d ∈ cs, d ≠ b.1) (hne : b.2 ≠ kind) :
      cs.count b.1 = if kind = b.2 then 1 else 0 := by
    rw [if_neg (Ne.symm hne)]
    exact List.count_eq_zero_of_not_mem fun hmem => hcs _ hmem rfl
  cases h with
  | operator hspelling =>
    have hall : ∀ entry ∈ Kind.spellings, ∀ b ∈ Kind.brackets,
        entry.1.toList.count b.1 = if entry.2 = b.2 then 1 else 0 := by decide
    simpa using hall _ hspelling b hb
  | keyword hkeyword =>
    have hall : ∀ entry ∈ Kind.keywords, ∀ b ∈ Kind.brackets,
        entry.1.toList.count b.1 = if entry.2 = b.2 then 1 else 0 := by decide
    simpa using hall _ hkeyword b hb
  | whole _ hdigits => exact hnone (fun d hd => hdigit (hdigits d hd)) hnumber
  | decimal _ hdigits _ hfraction =>
    refine hnone (fun d hd => ?_) hnumber
    rcases List.mem_append.mp hd with hd | hd
    · exact hdigit (hdigits d hd)
    · rcases List.mem_cons.mp hd with rfl | hd
      · exact Ne.symm hpoint
      · exact hdigit (hfraction d hd)
  | identifier hletter hparts =>
    refine hnone (fun d hd => ?_) hidentifier
    rcases List.mem_cons.mp hd with rfl | hd
    · exact hpart (by simp [isWordPart, hletter])
    · exact hpart (hparts d hd)
  | string _ => exact absurd rfl hkind

namespace Scan

theorem fits_of_mem_cuts {text : List Char} {k : Cut} (hk : k ∈ cuts text) : k.Fits := by
  induction text using cuts.induct with
  | case1 =>
    rw [cuts] at hk
    cases hk
  | case2 c rest ih =>
    rw [cuts] at hk
    rcases List.mem_cons.mp hk with rfl | hk
    · exact cut_fits c rest
    · exact ih hk

/-- How often a character stands in a piece that hides it. -/
def hiddenIn (c : Char) (k : Cut) : Nat := if k.hides then k.taken.count c else 0

theorem number_cons (kind : Kind) (t : Token) (ts : List Token) :
    Token.number kind (t :: ts) = Token.number kind ts + if t.kind = kind then 1 else 0 := by
  simp only [Token.number, List.map_cons, List.count_cons, beq_iff_eq]

/-- A bracket in a piece is the word that the piece adds, or is hidden. -/
theorem count_add {k : Cut} (hk : k.Fits) (p : Position) (o : Outcome) {b : Char × Kind}
    (hb : b ∈ Kind.brackets) : Token.number b.2 (Outcome.add p k o).tokens + hiddenIn b.1 k =
      Token.number b.2 o.tokens + k.taken.count b.1 := by
  obtain ⟨-, -, hother, hspelling⟩ := Kind.bracket_apart b hb
  obtain ⟨piece, taken, rest⟩ := k
  cases piece with
  | token kind literal =>
    simp only [Outcome.add, number_cons, hiddenIn, Cut.hides]
    by_cases hstring : kind = .string
    · have hne : ¬ Kind.string = b.2 := fun h => hother (h ▸ List.mem_cons_self)
      simp only [hstring, if_neg hne, decide_true, if_true, Nat.add_zero]
    · have hlexeme : Lexeme taken kind literal := hk.1
      simp only [hstring, hlexeme.count_bracket hstring hb, decide_false, Bool.false_eq_true,
        if_false, Nat.add_zero]
  | skipped => rfl
  | unexpected d =>
    obtain ⟨rfl, -, hnone⟩ := hk
    have hne : b.1 ∉ [d] := by
      intro hmem
      rw [← List.mem_singleton.mp hmem] at hnone
      exact hnone [] b.2 .nil (.operator hspelling)
    rw [List.count_eq_zero_of_not_mem hne]
    rfl
  | unterminated => rfl

/-- The brackets of some pieces are their words and what is hidden. -/
theorem count_collect {cs : List Cut} (hfits : ∀ k ∈ cs, k.Fits) (p : Position) {b : Char × Kind}
    (hb : b ∈ Kind.brackets) : Token.number b.2 (collect p cs).tokens +
      ((cs.filter (·.hides)).flatMap (·.taken)).count b.1 = (cs.flatMap (·.taken)).count b.1 := by
  induction cs generalizing p with
  | nil =>
    have heof : ¬ Kind.eof = b.2 := fun h => (Kind.bracket_apart b hb).2.2.1 (by simp [← h])
    simp [collect, Token.number, Token.endOfText, heof]
  | cons k ks ih =>
    obtain ⟨hk, hks⟩ := List.forall_mem_cons.mp hfits
    have hfirst := count_add hk p (collect (p.after k.taken) ks) hb
    have hrest := ih hks (p.after k.taken)
    have hhidden : (((k :: ks).filter (·.hides)).flatMap (·.taken)).count b.1 =
        hiddenIn b.1 k + ((ks.filter (·.hides)).flatMap (·.taken)).count b.1 := by
      rw [hiddenIn, List.filter_cons]
      split <;> simp
    rw [collect, hhidden, List.flatMap_cons, List.count_append]
    omega

end Scan

namespace Shell

/-- The brackets of a source are those among its words and those that are hidden. -/
theorem occurrences_bracket (source : String) {b : Char × Kind} (hb : b ∈ Kind.brackets) :
    occurrences b.1 source =
      Token.number b.2 (scan source).tokens + occurrences b.1 (hiddenText source) := by
  have hfits : ∀ k ∈ cuts source.toList, k.Fits := fun _ hk => fits_of_mem_cuts hk
  have hcount := count_collect hfits .start hb
  rw [flatMap_cuts] at hcount
  simp only [occurrences, hiddenText, String.toList_ofList]
  exact hcount.symm

/-- An entry goes on exactly if more braces or more parentheses open than close among its words and
in the text of its strings and comments taken together. Where that text has as many of each that
open as that close, it goes on exactly if its words leave something open. -/
theorem isOpen_words (sh : Shell) (line : String) :
    let entry := join sh.pending line
    let words := (scan entry).tokens
    let hidden := hiddenText entry
    (isOpen entry ↔
      Token.number .rightBrace words + occurrences '\x7d' hidden <
          Token.number .leftBrace words + occurrences '\x7b' hidden ∨
        Token.number .rightParen words + occurrences ')' hidden <
          Token.number .leftParen words + occurrences '(' hidden) ∧
      (occurrences '\x7b' hidden = occurrences '\x7d' hidden →
        occurrences '(' hidden = occurrences ')' hidden →
        isOpen entry = Token.leaveOpen words) := by
  intro entry words hidden
  have hcount : ∀ b ∈ Kind.brackets,
      occurrences b.1 entry = Token.number b.2 words + occurrences b.1 hidden :=
    fun _ hb => occurrences_bracket entry hb
  have hopening : occurrences '(' entry = _ := hcount ('(', .leftParen) (by decide)
  have hclosing : occurrences ')' entry = _ := hcount (')', .rightParen) (by decide)
  have hbegin : occurrences '\x7b' entry = _ := hcount ('\x7b', .leftBrace) (by decide)
  have hend : occurrences '\x7d' entry = _ := hcount ('\x7d', .rightBrace) (by decide)
  simp only [isOpen, Token.leaveOpen, hopening, hclosing, hbegin, hend]
  refine ⟨by rw [Bool.or_eq_true, decide_eq_true_eq, decide_eq_true_eq], fun hbraces hparens => ?_⟩
  simp only [hbraces, hparens, Nat.add_lt_add_iff_right]

/-- A string and a comment that hide as many brackets that open as that close do not change what is
said of the block around them. -/
theorem isOpen_words_balanced :
    let session := Session.start (.standard Nat.toFloat) (.start true false) true
    let sh : Shell := ⟨session, "fun f() \x7b", .more⟩
    let entry := join sh.pending "print \x22()\x22; // \x7b\x7d"
    let hidden := hiddenText entry
    occurrences '\x7b' hidden = occurrences '\x7d' hidden ∧
      occurrences '(' hidden = occurrences ')' hidden ∧
      isOpen entry = Token.leaveOpen (scan entry).tokens ∧ isOpen entry = true := by
  intro session sh entry hidden
  have hbraces : occurrences '\x7b' hidden = occurrences '\x7d' hidden := by decide +kernel
  have hparens : occurrences '(' hidden = occurrences ')' hidden := by decide +kernel
  exact ⟨hbraces, hparens, (isOpen_words sh _).2 hbraces hparens, by decide +kernel⟩

/-- More is asked for behind a brace in a string, and nothing behind a block that is left open if a
comment closes it. Nothing is wrong with the words of either entry. -/
theorem isOpen_hidden :
    let quoted := join "" "print \x22\x7b\x22;"
    let commented := join "while (true) \x7b" "print 1; // \x7d"
    ((scan quoted).faults = [] ∧ isOpen quoted = true ∧
        Token.leaveOpen (scan quoted).tokens = false) ∧
      (scan commented).faults = [] ∧ isOpen commented = false ∧
        Token.leaveOpen (scan commented).tokens = true := by
  decide +kernel

end Shell
end LoxScript
