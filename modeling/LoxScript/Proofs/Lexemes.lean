import Mathlib.Data.List.TakeWhile
import LoxScript.Diagnostic
import LoxScript.Proofs.JoinedText

/-!
The lexemes of the language, and scanning as a division of the text.

`Lexeme` says which texts are words of the language, apart from how they are found. A source is
divided without a gap into lexemes that could not be longer, blanks, comments, characters that
belong nowhere, and at most one string without an end; `scan` gives the lexemes as tokens, a fault
for every character that belongs nowhere and for the open string, and nothing else.
-/
namespace LoxScript

open Scan

/-- The punctuation and the operators. -/
def Kind.spellings : List (String × Kind) :=
  [("(", leftParen), (")", rightParen), ("\x7b", leftBrace), ("\x7d", rightBrace), (",", comma),
    (".", dot), (";", semicolon), ("%", percent), ("^", hat),
    ("!", bang), ("!=", bangEqual), ("=", equal), ("==", equalEqual), ("<", less),
    ("<=", lessEqual), (">", greater), (">=", greaterEqual), ("+", plus), ("+=", plusEqual),
    ("-", minus), ("-=", minusEqual), ("*", star), ("*=", starEqual), ("/", slash),
    ("/=", slashEqual)]

/-- The texts of the words of the language, with their kinds and values. -/
inductive Lexeme : List Char → Kind → Literal → Prop where
  | operator {cs kind} : (String.ofList cs, kind) ∈ Kind.spellings → Lexeme cs kind .nil
  | whole {digits} : digits ≠ [] → (∀ d ∈ digits, isDigit d) →
      Lexeme digits .number (.number (Number.ofDigits digits []))
  | decimal {digits fraction} : digits ≠ [] → (∀ d ∈ digits, isDigit d) → fraction ≠ [] →
      (∀ d ∈ fraction, isDigit d) →
      Lexeme (digits ++ '.' :: fraction) .number (.number (Number.ofDigits digits fraction))
  | keyword {cs kind} : (String.ofList cs, kind) ∈ Kind.keywords → Lexeme cs kind .nil
  | identifier {c cs} : isLetter c → (∀ d ∈ cs, isWordPart d) →
      String.ofList (c :: cs) ∉ Kind.keywords.map (·.1) → Lexeme (c :: cs) .identifier .nil
  | string {body} : quote ∉ body → Lexeme (quote :: body ++ [quote]) .string (.text (.ofList body))

/-- No longer text at the front of what is left is a lexeme. -/
def Longest (text rest : List Char) : Prop :=
  ∀ longer kind literal, longer <+: text ++ rest → Lexeme longer kind literal →
    longer.length ≤ text.length

/-- What a stretch of a source is. -/
inductive Stretch where
  | lexeme (kind : Kind) (literal : Literal)
  | blank
  | comment
  | unexpected (c : Char)
  | unterminated

def blanks : List Char := [' ', '\t', '\r', '\n']

/-- A stretch has the right text, with the rest of the source behind it. -/
def Stretch.Fits (text rest : List Char) : Stretch → Prop
  | lexeme kind literal =>
    Lexeme text kind literal ∧ Longest text rest ∧ ¬ ['/', '/'] <+: text ++ rest
  | blank => ∃ c ∈ blanks, text = [c]
  | comment => ['/', '/'] <+: text ∧ '\n' ∉ text ∧ (rest = [] ∨ rest.head? = some '\n')
  | unexpected c => text = [c] ∧ c ∉ blanks ∧ ∀ more kind literal, ¬ Lexeme (c :: more) kind literal
  | unterminated => ∃ body, text = quote :: body ∧ quote ∉ body ∧ rest = []

/-- A stretch at its place in a source. -/
structure Span where
  start : Nat
  text : List Char
  stretch : Stretch

namespace Span

def stop (s : Span) : Nat := s.start + s.text.length

/-- The kind, text and value of a lexeme. -/
def word? (s : Span) : Option (Kind × String × Literal) :=
  match s.stretch with
  | .lexeme kind literal => some (kind, .ofList s.text, literal)
  | _ => none

/-- What is reported of a stretch. -/
def message? (s : Span) : Option String :=
  match s.stretch with
  | .unexpected c => some ("Unexpected character '" ++ c.toString ++ "'.")
  | .unterminated => some "Unterminated string."
  | _ => none

end Span

/-- A text at an offset, divided into spans: they follow one another, every character is in one of
them, and each has the right text for what it is. -/
structure Divided (offset : Nat) (cs : List Char) (spans : List Span) : Prop where
  start : ∀ s ∈ spans, offset ≤ s.start
  text : ∀ s ∈ spans, s.text ≠ [] ∧ s.text = (cs.drop (s.start - offset)).take s.text.length
  ordered : spans.Pairwise (·.stop ≤ ·.start)
  covered : ∀ i < cs.length, ∃ s ∈ spans, s.start ≤ offset + i ∧ offset + i < s.stop
  fits : ∀ s ∈ spans, s.stretch.Fits s.text (cs.drop (s.stop - offset))

theorem Divided.cons {offset : Nat} {text rest : List Char} {stretch : Stretch}
    {spans : List Span} (h : Divided (offset + text.length) rest spans) (htext : text ≠ [])
    (hfits : stretch.Fits text rest) :
    Divided offset (text ++ rest) (⟨offset, text, stretch⟩ :: spans) := by
  have hdrop (n : Nat) (hn : offset + text.length ≤ n) :
      (text ++ rest).drop (n - offset) = rest.drop (n - (offset + text.length)) := by
    rw [List.drop_append, List.drop_eq_nil_of_le (by omega), List.nil_append]
    congr 1
    omega
  constructor
  · refine List.forall_mem_cons.mpr ⟨Nat.le_refl _, fun s hs => ?_⟩
    exact Nat.le_trans (Nat.le_add_right _ _) (h.start s hs)
  · refine List.forall_mem_cons.mpr ⟨⟨htext, by simp⟩, fun s hs => ?_⟩
    rw [hdrop _ (h.start s hs)]
    exact h.text s hs
  · exact List.pairwise_cons.mpr ⟨h.start, h.ordered⟩
  · intro i hi
    by_cases hfirst : i < text.length
    · exact ⟨_, List.mem_cons_self, Nat.le_add_right _ _, Nat.add_lt_add_left hfirst _⟩
    · rw [List.length_append] at hi
      obtain ⟨s, hs, hstart, hstop⟩ := h.covered (i - text.length) (by omega)
      exact ⟨s, List.mem_cons_of_mem _ hs, by omega, by omega⟩
  · refine List.forall_mem_cons.mpr ⟨by simpa [Span.stop] using hfits, fun s hs => ?_⟩
    rw [hdrop s.stop (Nat.le_trans (h.start s hs) (Nat.le_add_right _ _))]
    exact h.fits s hs

namespace Scan

section Characters
variable {c : Char}

theorem isLetter_eq_false_of_isDigit (h : isDigit c) : isLetter c = false := by
  have hletter : ∀ d : Char, isDigit d → ¬ isLetter d := by
    intro d
    simp only [isDigit, isLetter, Bool.and_eq_true, Bool.or_eq_true, decide_eq_true_eq, Char.le_def,
      UInt32.le_iff_toNat_le]
    rintro ⟨-, hle⟩ ((⟨hge, -⟩ | ⟨hge, -⟩) | rfl)
    · exact absurd (Nat.le_trans hge hle) (by decide)
    · exact absurd (Nat.le_trans hge hle) (by decide)
    · exact absurd hle (by decide)
  exact Bool.eq_false_iff.mpr (hletter c h)

theorem range_of_isWordPart (h : isWordPart c) :
    ∃ range ∈ [(48, 57), (65, 90), (95, 95), (97, 122)],
      range.1 ≤ c.toNat ∧ c.toNat ≤ range.2 := by
  simp only [isWordPart, isLetter, isDigit, Bool.or_eq_true, Bool.and_eq_true, decide_eq_true_eq,
    Char.le_def, UInt32.le_iff_toNat_le] at h
  obtain ((hsmall | hcapital) | rfl) | hdigit := h
  · exact ⟨(97, 122), by decide, hsmall⟩
  · exact ⟨(65, 90), by decide, hcapital⟩
  · exact ⟨(95, 95), by decide, by decide⟩
  · exact ⟨(48, 57), by decide, hdigit⟩

theorem code_of_isWordPart (h : isWordPart c) : 48 ≤ c.toNat ∧ c.toNat ≤ 122 := by
  obtain ⟨range, hrange, hlow, hhigh⟩ := range_of_isWordPart h
  have hall : ∀ range ∈ [(48, 57), (65, 90), (95, 95), (97, 122)],
      48 ≤ range.1 ∧ range.2 ≤ 122 := by decide
  obtain ⟨hfirst, hlast⟩ := hall range hrange
  exact ⟨Nat.le_trans hfirst hlow, Nat.le_trans hhigh hlast⟩

/-- What the first character of a lexeme says of the characters behind it. -/
inductive Family where
  | punctuation
  | operator
  | quoted
  | number
  | word
  | none
deriving DecidableEq

def family (c : Char) : Family :=
  if (single? c).isSome then .punctuation
  else if (double? c).isSome then .operator
  else if c = quote then .quoted
  else if isDigit c then .number
  else if isLetter c then .word
  else .none

def Family.Continues : Family → List Char → Prop
  | punctuation, cs => cs = []
  | operator, cs => cs = [] ∨ cs = ['=']
  | quoted, cs => ∃ body, cs = body ++ [quote] ∧ quote ∉ body
  | number, cs => (∀ d ∈ cs, isDigit d) ∨ ∃ digits fraction, cs = digits ++ '.' :: fraction ∧
      (∀ d ∈ digits, isDigit d) ∧ fraction ≠ [] ∧ ∀ d ∈ fraction, isDigit d
  | word, cs => ∀ d ∈ cs, isWordPart d
  | none, _ => False

theorem single?_family {kind : Kind} (h : single? c = some kind) :
    family c = .punctuation ∧ c ∉ blanks ∧ isDigit c = false ∧ isLetter c = false ∧
      (String.ofList [c], kind) ∈ Kind.spellings := by
  unfold single? at h
  split at h <;> cases h <;> decide

theorem double?_family {plain withEqual : Kind} (h : double? c = some (plain, withEqual)) :
    family c = .operator ∧ c ∉ blanks ∧ isDigit c = false ∧ isLetter c = false ∧
      (String.ofList [c], plain) ∈ Kind.spellings ∧
      (String.ofList [c, '='], withEqual) ∈ Kind.spellings := by
  unfold double? at h
  split at h <;> cases h <;> decide

theorem family_of_isDigit (h : isDigit c) : family c = .number := by
  have hquote : c ≠ quote := by
    rintro rfl
    revert h
    decide
  cases hsingle : single? c with
  | some kind => simp [(single?_family hsingle).2.2.1] at h
  | none =>
    cases hdouble : double? c with
    | some kinds => simp [(double?_family hdouble).2.2.1] at h
    | none => simp [family, hsingle, hdouble, hquote, h]

theorem family_of_isLetter (h : isLetter c) : family c = .word := by
  have hquote : c ≠ quote := by
    rintro rfl
    revert h
    decide
  have hdigit : isDigit c = false :=
    Bool.eq_false_iff.mpr fun hdigit => by simp [isLetter_eq_false_of_isDigit hdigit] at h
  cases hsingle : single? c with
  | some kind => simp [(single?_family hsingle).2.2.2.1] at h
  | none =>
    cases hdouble : double? c with
    | some kinds => simp [(double?_family hdouble).2.2.2.1] at h
    | none => simp [family, hsingle, hdouble, hquote, hdigit, h]

end Characters

/-- A spelling goes on as the family of its first character does. -/
theorem continues_spelling {c : Char} {cs : List Char} {kind : Kind}
    (h : (String.ofList (c :: cs), kind) ∈ Kind.spellings) : (family c).Continues cs := by
  have hall : ∀ entry ∈ Kind.spellings,
      family (entry.1.toList.headD ' ') = .punctuation ∧ entry.1.toList.tail = [] ∨
      family (entry.1.toList.headD ' ') = .operator ∧
        (entry.1.toList.tail = [] ∨ entry.1.toList.tail = ['=']) := by decide
  have hentry := hall _ h
  simp only [String.toList_ofList, List.headD_cons, List.tail_cons] at hentry
  obtain ⟨hfamily, htail⟩ | ⟨hfamily, htail⟩ := hentry
  · rw [hfamily]
    exact htail
  · rw [hfamily]
    exact htail

theorem continues_keyword {c : Char} {cs : List Char} {kind : Kind}
    (h : (String.ofList (c :: cs), kind) ∈ Kind.keywords) : (family c).Continues cs := by
  have hall : ∀ entry ∈ Kind.keywords, family (entry.1.toList.headD ' ') = .word ∧
      entry.1.toList.tail.all isWordPart := by decide
  obtain ⟨hfamily, htail⟩ := hall _ h
  simp only [String.toList_ofList, List.headD_cons, List.tail_cons, List.all_eq_true] at hfamily htail
  rw [hfamily]
  exact htail

end Scan

namespace Lexeme
variable {c : Char} {cs text : List Char} {kind : Kind} {literal : Literal}

theorem ne_nil (h : Lexeme text kind literal) : text ≠ [] := by
  cases h with
  | operator hspelling =>
    have hall : ∀ entry ∈ Kind.spellings, entry.1.toList ≠ [] := by decide
    simpa using hall _ hspelling
  | keyword hkeyword =>
    have hall : ∀ entry ∈ Kind.keywords, entry.1.toList ≠ [] := by decide
    simpa using hall _ hkeyword
  | whole hdigits => exact hdigits
  | decimal | identifier | string => simp

theorem continues (h : Lexeme (c :: cs) kind literal) : (family c).Continues cs := by
  generalize htext : c :: cs = text at h
  cases h with
  | operator hspelling =>
    subst htext
    exact continues_spelling hspelling
  | keyword hkeyword =>
    subst htext
    exact continues_keyword hkeyword
  | whole hdigits hall =>
    subst htext
    obtain ⟨hfirst, hrest⟩ := List.forall_mem_cons.mp hall
    rw [family_of_isDigit hfirst]
    exact .inl hrest
  | @decimal digits fraction hdigits hall hfraction hallFraction =>
    cases digits with
    | nil => exact absurd rfl hdigits
    | cons d digits =>
      obtain ⟨rfl, rfl⟩ := List.cons.inj htext
      obtain ⟨hfirst, hrest⟩ := List.forall_mem_cons.mp hall
      rw [family_of_isDigit hfirst]
      exact .inr ⟨digits, fraction, rfl, hrest, hfraction, hallFraction⟩
  | identifier hletter hparts =>
    obtain ⟨rfl, rfl⟩ := List.cons.inj htext
    rw [family_of_isLetter hletter]
    exact hparts
  | @string body hbody =>
    obtain ⟨rfl, rfl⟩ := List.cons.inj htext
    exact ⟨body, rfl, hbody⟩

/-- A lexeme that ends with a character of no word is punctuation or an operator. -/
theorem spelling_of_getLast (h : Lexeme text kind literal) (hlast : text.getLast? = some c)
    (hword : isWordPart c = false) (hquote : c ≠ quote) :
    (String.ofList text, kind) ∈ Kind.spellings := by
  have hparts {cs : List Char} (hcs : cs.getLast? = some c) (hall : ∀ d ∈ cs, isWordPart d) :
      (String.ofList text, kind) ∈ Kind.spellings := by
    rw [hall c (List.mem_of_getLast? hcs)] at hword
    cases hword
  have hdigit {d : Char} (hd : isDigit d) : isWordPart d := by simp [isWordPart, hd]
  cases h with
  | operator hspelling => exact hspelling
  | keyword hkeyword =>
    have hall : ∀ entry ∈ Kind.keywords, entry.1.toList.all isWordPart := by decide
    have hentry := hall _ hkeyword
    rw [String.toList_ofList, List.all_eq_true] at hentry
    exact hparts hlast hentry
  | whole _ hall => exact hparts hlast fun d hd => hdigit (hall d hd)
  | @decimal digits fraction _ _ hfraction hall =>
    obtain ⟨d, fraction, rfl⟩ := List.exists_cons_of_ne_nil hfraction
    rw [List.getLast?_append, List.getLast?_cons_cons] at hlast
    refine @hparts (d :: fraction) ?_ fun d hd => hdigit (hall d hd)
    simpa using hlast
  | @identifier d ds hletter hall =>
    have hfirst : isWordPart d := by simp [isWordPart, hletter]
    exact hparts hlast (List.forall_mem_cons.mpr ⟨hfirst, hall⟩)
  | string =>
    rw [List.getLast?_concat] at hlast
    exact absurd (Option.some.inj hlast).symm hquote

end Lexeme

/-- What a piece of a text is. -/
def Cut.stretch (c : Cut) : Stretch :=
  match c.piece with
  | .token kind literal => .lexeme kind literal
  | .skipped => if ['/', '/'] <+: c.taken then .comment else .blank
  | .unexpected d => .unexpected d
  | .unterminated => .unterminated

def Cut.Fits (c : Cut) : Prop := c.stretch.Fits c.taken c.rest

namespace Scan
variable {c : Char} {rest : List Char}

theorem length_le_takeWhile {p : Char → Bool} {front cs : List Char} (hfront : front <+: cs)
    (hall : ∀ d ∈ front, p d) : front.length ≤ (cs.takeWhile p).length := by
  obtain ⟨more, rfl⟩ := hfront
  rw [List.takeWhile_append_of_pos hall, List.length_append]
  exact Nat.le_add_right _ _

/-- A text is as long as possible if no lexeme that goes on as its family does is longer. -/
theorem longest_of_continues {text after : List Char} (hwhole : text ++ after = c :: rest)
    (h : ∀ front, front <+: rest → (family c).Continues front → front.length < text.length) :
    Longest text after := by
  intro longer kind literal hstart hlexeme
  rw [hwhole] at hstart
  cases longer with
  | nil => exact Nat.zero_le _
  | cons d front =>
    obtain ⟨rfl, hfront⟩ := List.cons_prefix_cons.mp hstart
    exact h front hfront hlexeme.continues

theorem comment_start : ['/', '/'] <+: c :: rest ↔ c = '/' ∧ rest.head? = some '/' := by
  rw [List.cons_prefix_cons, eq_comm]
  cases rest with
  | nil => simp
  | cons d rest => simp [List.cons_prefix_cons, eq_comm]

/-- A token fits if it is a lexeme, as long as possible, and no comment starts with it. -/
theorem fits_token {kind : Kind} {literal : Literal} {text after : List Char}
    (hcomment : ¬ (c = '/' ∧ rest.head? = some '/')) (hwhole : text ++ after = c :: rest)
    (hlexeme : Lexeme text kind literal)
    (h : ∀ front, front <+: rest → (family c).Continues front → front.length < text.length) :
    Cut.Fits ⟨.token kind literal, text, after⟩ := by
  refine ⟨hlexeme, longest_of_continues hwhole h, ?_⟩
  rw [hwhole, comment_start]
  exact hcomment

theorem cutComment_fits (h : rest.head? = some '/') : (cutComment rest).Fits := by
  have hstart := cutComment_taken rest h
  have hstretch : (cutComment rest).stretch = .comment := if_pos hstart
  rw [Cut.Fits, hstretch]
  refine ⟨hstart, ?_, ?_⟩
  · intro hmem
    obtain hmem | hmem := List.mem_cons.mp hmem
    · cases hmem
    · simpa using List.mem_takeWhile_imp hmem
  · change rest.dropWhile (· != '\n') = [] ∨ (rest.dropWhile (· != '\n')).head? = some '\n'
    cases hdrop : rest.dropWhile (· != '\n') with
    | nil => exact .inl rfl
    | cons d after =>
      have hstop := List.head?_dropWhile_not (· != '\n') rest
      rw [hdrop] at hstop
      simpa using hstop

/-- Digits, a point and more digits at the front of a text are where it is cut. -/
theorem decimal_front {digits fraction : List Char} (hstart : digits ++ '.' :: fraction <+: rest)
    (hdigits : ∀ d ∈ digits, isDigit d) :
    rest.takeWhile isDigit = digits ∧
      ∃ more, rest.dropWhile isDigit = '.' :: (fraction ++ more) := by
  obtain ⟨more, rfl⟩ := hstart
  have hpoint : isDigit '.' = false := by decide
  simp only [List.append_assoc, List.cons_append, takeWhile_append_stop hpoint,
    dropWhile_append_stop hpoint, List.takeWhile_eq_self_iff.mpr hdigits,
    List.dropWhile_eq_nil_iff.mpr hdigits]
  exact ⟨trivial, more, rfl⟩

section
variable (hcomment : ¬ (c = '/' ∧ rest.head? = some '/'))
include hcomment

theorem single_fits {kind : Kind} (h : single? c = some kind) :
    Cut.Fits ⟨.token kind .nil, [c], rest⟩ := by
  obtain ⟨hfamily, -, -, -, hspelling⟩ := single?_family h
  apply fits_token hcomment rfl (.operator hspelling)
  intro front _ hfront
  rw [hfamily] at hfront
  rw [hfront]
  exact Nat.one_pos

theorem cutOperator_fits {plain withEqual : Kind} (h : double? c = some (plain, withEqual)) :
    (cutOperator c plain withEqual rest).Fits := by
  obtain ⟨hfamily, -, -, -, hplain, hequal⟩ := double?_family h
  unfold cutOperator
  split
  next after =>
    apply fits_token hcomment rfl (.operator hequal)
    intro front _ hfront
    rw [hfamily] at hfront
    obtain rfl | rfl := hfront <;> simp
  next hother =>
    apply fits_token hcomment rfl (.operator hplain)
    intro front hstart hfront
    rw [hfamily] at hfront
    obtain rfl | rfl := hfront
    · exact Nat.one_pos
    · obtain ⟨after, rfl⟩ := hstart
      exact absurd rfl (hother after)

theorem cutNumber_fits (h : isDigit c) : (cutNumber c rest).Fits := by
  have hwhole : ∀ d ∈ c :: rest.takeWhile isDigit, isDigit d :=
    List.forall_mem_cons.mpr ⟨h, fun d => List.mem_takeWhile_imp⟩
  have htext : c :: rest.takeWhile isDigit ++ rest.dropWhile isDigit = c :: rest := by simp
  -- without a fraction no lexeme is longer than the digits
  have hplain (hafter : ∀ d after, rest.dropWhile isDigit = '.' :: d :: after → ¬ isDigit d) :
      Cut.Fits ⟨.token .number (.number (Number.ofDigits (c :: rest.takeWhile isDigit) [])),
        c :: rest.takeWhile isDigit, rest.dropWhile isDigit⟩ := by
    apply fits_token hcomment htext (.whole (List.cons_ne_nil _ _) hwhole)
    intro front hstart hfront
    rw [family_of_isDigit h] at hfront
    obtain hdigits | ⟨digits, fraction, rfl, hdigits, hfraction, hall⟩ := hfront
    · exact Nat.lt_succ_of_le (length_le_takeWhile hstart hdigits)
    · obtain ⟨d, fraction, rfl⟩ := List.exists_cons_of_ne_nil hfraction
      obtain ⟨-, more, hmore⟩ := decimal_front hstart hdigits
      exact absurd (hall d List.mem_cons_self) (hafter d _ hmore)
  simp only [cutNumber]
  split
  next d after hdrop =>
    split
    next hdigit =>
      have hfraction : ∀ e ∈ d :: after.takeWhile isDigit, isDigit e :=
        List.forall_mem_cons.mpr ⟨hdigit, fun e => List.mem_takeWhile_imp⟩
      apply fits_token hcomment (by simp [← hdrop])
        (.decimal (List.cons_ne_nil _ _) hwhole (List.cons_ne_nil _ _) hfraction)
      intro front hstart hfront
      rw [family_of_isDigit h] at hfront
      obtain hdigits | ⟨digits, fraction, rfl, hdigits, -, hall⟩ := hfront
      · have hlength := length_le_takeWhile hstart hdigits
        simp only [List.length_append, List.length_cons]
        omega
      · obtain ⟨hfirst, more, hmore⟩ := decimal_front hstart hdigits
        rw [hdrop] at hmore
        have hlength := length_le_takeWhile (p := isDigit) ⟨more, (List.cons.inj hmore).2.symm⟩ hall
        simp only [List.takeWhile_cons_of_pos hdigit, List.length_cons] at hlength
        simp only [hfirst, List.length_append, List.length_cons]
        omega
    next hdigit =>
      rw [← hdrop]
      apply hplain
      intro e more hmore
      rw [hdrop] at hmore
      cases hmore
      exact hdigit
  next hother => exact hplain fun d after hdrop => absurd hdrop (hother d after)

theorem cutWord_fits (h : isLetter c) : (cutWord c rest).Fits := by
  have hparts : ∀ d ∈ rest.takeWhile isWordPart, isWordPart d := fun d => List.mem_takeWhile_imp
  have hlexeme : Lexeme (c :: rest.takeWhile isWordPart)
      (Kind.ofWord (.ofList (c :: rest.takeWhile isWordPart))) .nil := by
    unfold Kind.ofWord
    cases hlookup : Kind.keywords.lookup (.ofList (c :: rest.takeWhile isWordPart)) with
    | none =>
      apply Lexeme.identifier h hparts
      intro hmem
      obtain ⟨entry, hentry, hword⟩ := List.mem_map.mp hmem
      simpa [hword] using List.lookup_eq_none_iff.mp hlookup entry hentry
    | some kind =>
      obtain ⟨before, after, hkeywords, -⟩ := List.lookup_eq_some_iff.mp hlookup
      exact .keyword (by simp [hkeywords])
  apply fits_token hcomment (by simp) hlexeme
  intro front hstart hfront
  rw [family_of_isLetter h] at hfront
  exact Nat.lt_succ_of_le (length_le_takeWhile hstart hfront)

end

theorem cutString_fits : (cutString rest).Fits := by
  have hbody : quote ∉ rest.takeWhile (· != quote) := by
    intro hmem
    simpa using List.mem_takeWhile_imp hmem
  have hparts := List.takeWhile_append_dropWhile (p := (· != quote)) (l := rest)
  simp only [cutString]
  split
  next hdrop => exact ⟨_, rfl, hbody, rfl⟩
  next close after hdrop =>
    obtain rfl : close = quote := by
      have hstop := List.head?_dropWhile_not (· != quote) rest
      rw [hdrop] at hstop
      simpa using hstop
    rw [hdrop] at hparts
    apply @fits_token quote rest _ _ _ _ (by simp [quote]) (by simp [hparts]) (.string hbody)
    intro front hstart hfront
    obtain ⟨body, rfl, hquote⟩ := hfront
    have hlength := length_le_takeWhile (p := (· != quote))
      ((List.prefix_append body [quote]).trans hstart)
      (fun d hd => bne_iff_ne.mpr (ne_of_mem_of_not_mem hd hquote))
    simp only [List.length_append, List.length_cons, List.length_nil]
    omega

theorem mem_blanks : c ∈ blanks ↔ isSpace c ∨ c = '\n' := by
  simp [blanks, isSpace]
  tauto

/-- Every piece of a text is what it is taken for. -/
theorem cut_fits (c : Char) (rest : List Char) : (cut c rest).Fits := by
  unfold cut
  split
  next hcomment => exact cutComment_fits hcomment.2
  next hcomment =>
    cases hsingle : single? c with
    | some kind => exact single_fits hcomment hsingle
    | none =>
      cases hdouble : double? c with
      | some kinds => exact cutOperator_fits hcomment hdouble
      | none =>
        simp only
        split
        next hblank =>
          have hstretch : Cut.stretch ⟨.skipped, [c], rest⟩ = .blank := if_neg (by simp)
          rw [Cut.Fits, hstretch]
          exact ⟨c, mem_blanks.mpr hblank, rfl⟩
        next hblank =>
        split
        next hquote => exact cutString_fits
        next hquote =>
        split
        next hdigit => exact cutNumber_fits hcomment hdigit
        next hdigit =>
        split
        next hletter => exact cutWord_fits hcomment hletter
        next hletter =>
          have hfamily : family c = .none := by
            simp [family, hsingle, hdouble, hquote, hdigit, hletter]
          refine ⟨rfl, mt mem_blanks.mp hblank, ?_⟩
          intro more kind literal hlexeme
          have hcontinues := hlexeme.continues
          rw [hfamily] at hcontinues
          exact hcontinues

theorem taken_ne_nil : (cut c rest).taken ≠ [] := by
  intro htaken
  have hlength := congrArg List.length (taken_append_rest c rest)
  have hrest := rest_cut c rest
  simp only [htaken, List.nil_append, List.length_cons] at hlength
  omega

/-- The pieces of a text as spans, from an offset on. -/
def spansFrom (offset : Nat) : List Cut → List Span
  | [] => []
  | c :: cs => ⟨offset, c.taken, c.stretch⟩ :: spansFrom (offset + c.taken.length) cs

theorem divided_cuts (text : List Char) (offset : Nat) :
    Divided offset text (spansFrom offset (cuts text)) := by
  induction text using cuts.induct generalizing offset with
  | case1 =>
    rw [cuts]
    constructor <;> simp [spansFrom]
  | case2 c rest ih =>
    have hspan := (ih (offset + (cut c rest).taken.length)).cons taken_ne_nil (cut_fits c rest)
    rw [taken_append_rest] at hspan
    rw [cuts]
    exact hspan

/-- The tokens and faults of a list of pieces are those of its spans. -/
theorem collect_spans (cs : List Cut) (p : Position) (offset : Nat) :
    (collect p cs).tokens.dropLast.map (fun t => (t.kind, t.lexeme, t.literal)) =
        (spansFrom offset cs).filterMap Span.word? ∧
      (collect p cs).faults.map (·.2.message) = (spansFrom offset cs).filterMap Span.message? := by
  induction cs generalizing p offset with
  | nil => exact ⟨rfl, rfl⟩
  | cons c cs ih =>
    obtain ⟨hwords, hfaults⟩ := ih (p.after c.taken) (offset + c.taken.length)
    rw [collect, Outcome.add, spansFrom, Cut.stretch]
    cases c.piece with
    | token kind literal =>
      rw [List.dropLast_cons_of_ne_nil (collect_ne_nil _ _)]
      exact ⟨congrArg (_ :: ·) hwords, hfaults⟩
    | skipped =>
      by_cases hslashes : ['/', '/'] <+: c.taken
      · simp only [if_pos hslashes]
        exact ⟨hwords, hfaults⟩
      · simp only [if_neg hslashes]
        exact ⟨hwords, hfaults⟩
    | unexpected d => exact ⟨hwords, congrArg (_ :: ·) hfaults⟩
    | unterminated => exact ⟨hwords, congrArg (_ :: ·) hfaults⟩

end Scan

/-- Scanning loses nothing and cuts every word as long as it can be: a source is divided into
spans, its tokens in front of the one mark for its end are the spans that are lexemes, and what is
reported is one message for every character that belongs nowhere and for the open string. -/
theorem scan_divides (source : String) :
    ∃ spans, Divided 0 source.toList spans ∧
      (∃ words line, (scan source).tokens = words ++ [.endOfText line] ∧
        (∀ t ∈ words, t.kind ≠ .eof) ∧
        words.map (fun t => (t.kind, t.lexeme, t.literal)) = spans.filterMap Span.word?) ∧
      (scan source).diagnostics.map (·.message) = spans.filterMap Span.message? := by
  obtain ⟨hwords, hfaults⟩ := collect_spans (cuts source.toList) .start 0
  obtain ⟨line, hline⟩ := scan_tokens source
  refine ⟨spansFrom 0 (cuts source.toList), divided_cuts source.toList 0, ?_, ?_⟩
  · exact ⟨wordsOf source, line, hline, wordsOf_ne_eof source, hwords⟩
  · rw [← hfaults, Outcome.diagnostics, List.map_map]
    rfl

end LoxScript
