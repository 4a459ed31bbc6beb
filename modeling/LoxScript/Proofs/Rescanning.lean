import LoxScript.Proofs.PrintedPrograms

/-!
Scanning again what was scanned.

A text with every string closed can be scanned line by line: behind it and a line end, another text
has the words and faults that it has alone, on later lines. And a lexeme is cut as a whole when it
stands alone, so words that are written with a blank between any two of them are read back.
-/
namespace LoxScript

open Scan

/-- A text without an open string, a line end and another text are scanned as the two are alone: the
words of the first are followed by the tokens of the second, on later lines, and so are the faults
and what is reported of them. -/
theorem scan_lines (a b : String) (h : ∀ fault ∈ (scan a).faults, fault.2 ≠ .unterminated) :
    (∃ line, (scan a).tokens = wordsOf a ++ [.endOfText line]) ∧
    (scan (a ++ "\n" ++ b)).tokens = wordsOf a ++ (scan b).tokens.map (·.moved (lineCount a)) ∧
    (scan (a ++ "\n" ++ b)).faults =
      (scan a).faults ++ (scan b).faults.map (fun (line, fault) => (line + lineCount a, fault)) ∧
    (scan (a ++ "\n" ++ b)).diagnostics =
      (scan a).diagnostics ++ (scan b).diagnostics.map (·.moved (lineCount a)) := by
  refine ⟨scan_tokens a, ?_⟩
  rw [scan_append b h]
  refine ⟨rfl, rfl, ?_⟩
  simp only [Outcome.diagnostics, List.map_append, List.map_map]
  rfl

/-- The first text ends inside of a comment with a quote, behind a number with a point and a
character that starts no word. -/
theorem scan_lines_comment :
    (∀ fault ∈ (scan "a\n1. @ // \"").faults, fault.2 ≠ .unterminated) ∧
      (scan ("a\n1. @ // \"" ++ "\n" ++ "5 ?\n")).diagnostics =
        [⟨.line (some 2), "Unexpected character '@'."⟩,
          ⟨.line (some 3), "Unexpected character '?'."⟩] := by
  have hclosed : ∀ fault ∈ (scan "a\n1. @ // \"").faults, fault.2 ≠ .unterminated := by
    decide +kernel
  obtain ⟨-, -, -, hreported⟩ := scan_lines "a\n1. @ // \"" "5 ?\n" hclosed
  exact ⟨hclosed, hreported.trans (by decide +kernel)⟩

/-! ### Lexemes alone -/

namespace Scan
variable {c : Char} {cs : List Char}

theorem cut_of_isWordPart (h : isWordPart c) (rest : List Char) :
    cut c rest = if isDigit c then cutNumber c rest else cutWord c rest := by
  have hne {d : Char} (hd : isWordPart d = false) : c ≠ d := by
    rintro rfl
    rw [h] at hd
    cases hd
  have hsingle : single? c = none := by
    cases hfound : single? c with
    | none => rfl
    | some kind =>
      obtain ⟨-, -, hdigit, hletter, -⟩ := single?_family hfound
      simp [isWordPart, hdigit, hletter] at h
  have hdouble : double? c = none := by
    cases hfound : double? c with
    | none => rfl
    | some kinds =>
      obtain ⟨-, -, hdigit, hletter, -⟩ := double?_family hfound
      simp [isWordPart, hdigit, hletter] at h
  have hletter : ¬ isDigit c → isLetter c := by
    intro hdigit
    simpa [isWordPart, hdigit] using h
  have hslash : c ≠ '/' := hne (by decide)
  have hblank : ¬ (isSpace c ∨ c = '\n') := by
    simp [isSpace, hne (d := ' ') (by decide), hne (d := '\r') (by decide),
      hne (d := '\t') (by decide), hne (d := '\n') (by decide)]
  have hquote : c ≠ quote := hne (by decide)
  rw [cut, if_neg (mt And.left hslash), hsingle, hdouble]
  simp only
  rw [if_neg hblank, if_neg hquote]
  by_cases hdigit : isDigit c
  · rw [if_pos hdigit, if_pos hdigit]
  · rw [if_neg hdigit, if_neg hdigit, if_pos (hletter hdigit)]

/-- A word is cut where it ends. -/
theorem cut_word (hc : isLetter c) (hcs : ∀ d ∈ cs, isWordPart d) {rest : List Char}
    (hrest : ∀ d ∈ rest.head?, isWordPart d = false) :
    cut c (cs ++ rest) = ⟨.token (Kind.ofWord (.ofList (c :: cs))) .nil, c :: cs, rest⟩ := by
  have hdigit : ¬ isDigit c := fun hdigit => by
    simp [isLetter_eq_false_of_isDigit hdigit] at hc
  have hstop : rest.takeWhile isWordPart = [] ∧ rest.dropWhile isWordPart = rest := by
    cases rest with
    | nil => exact ⟨rfl, rfl⟩
    | cons d rest => simp [hrest d rfl]
  rw [cut_of_isWordPart (by simp [isWordPart, hc]), if_neg hdigit, cutWord,
    List.takeWhile_append_of_pos hcs, List.dropWhile_append_of_pos hcs, hstop.1, hstop.2,
    List.append_nil]

theorem cut_digits (hc : isDigit c) (hcs : ∀ d ∈ cs, isDigit d) :
    cut c cs = ⟨.token .number (.number (Number.ofDigits (c :: cs) [])), c :: cs, []⟩ := by
  have htake := List.takeWhile_eq_self_iff.mpr hcs
  have hdrop := List.dropWhile_eq_nil_iff.mpr hcs
  rw [cut_of_isWordPart (by simp [isWordPart, hc]), if_pos hc]
  simp only [cutNumber, htake, hdrop]

theorem cut_decimal {d : Char} {ds : List Char} (hc : isDigit c) (hcs : ∀ e ∈ cs, isDigit e)
    (hd : isDigit d) (hds : ∀ e ∈ ds, isDigit e) :
    cut c (cs ++ '.' :: d :: ds) =
      ⟨.token .number (.number (Number.ofDigits (c :: cs) (d :: ds))), c :: cs ++ '.' :: d :: ds,
        []⟩ := by
  have hpoint : isDigit '.' = false := by decide
  have htake := List.takeWhile_eq_self_iff.mpr hcs
  have hdrop := List.dropWhile_eq_nil_iff.mpr hcs
  have htake' := List.takeWhile_eq_self_iff.mpr hds
  have hdrop' := List.dropWhile_eq_nil_iff.mpr hds
  rw [cut_of_isWordPart (by simp [isWordPart, hc]), if_pos hc]
  simp only [cutNumber, takeWhile_append_stop hpoint, dropWhile_append_stop hpoint, htake, hdrop,
    List.nil_append, if_pos hd, htake', hdrop']

theorem cut_quoted {body : List Char} (h : quote ∉ body) :
    cut quote (body ++ [quote]) =
      ⟨.token .string (.text (.ofList body)), quote :: body ++ [quote], []⟩ := by
  have hall : ∀ d ∈ body, (d != quote) = true := fun d hd =>
    bne_iff_ne.mpr (ne_of_mem_of_not_mem hd h)
  have hcut : cut quote (body ++ [quote]) = cutString (body ++ [quote]) := by simp [cut, quote,
    single?, double?, isSpace]
  rw [hcut]
  simp [cutString, List.takeWhile_append_of_pos hall, List.dropWhile_append_of_pos hall]

end Scan

namespace Lexeme
variable {c : Char} {cs text : List Char} {kind : Kind} {literal : Literal}

/-- A lexeme alone is cut as a whole. -/
theorem cut_eq (h : Lexeme (c :: cs) kind literal) :
    cut c cs = ⟨.token kind literal, c :: cs, []⟩ := by
  generalize htext : c :: cs = text at h
  cases h with
  | operator hspelling =>
    have hall : ∀ entry ∈ Kind.spellings,
        (cut (entry.1.toList.headD ' ') entry.1.toList.tail).piece = .token entry.2 .nil ∧
        (cut (entry.1.toList.headD ' ') entry.1.toList.tail).taken = entry.1.toList ∧
        (cut (entry.1.toList.headD ' ') entry.1.toList.tail).rest = [] := by decide
    subst htext
    obtain ⟨hpiece, htaken, hrest⟩ := hall _ hspelling
    simp only [String.toList_ofList, List.headD_cons, List.tail_cons] at hpiece htaken hrest
    rw [← hpiece, ← htaken, ← hrest]
  | keyword hkeyword =>
    have hall : ∀ entry ∈ Kind.keywords, Kind.ofWord entry.1 = entry.2 ∧
        isLetter (entry.1.toList.headD ' ') ∧ entry.1.toList.tail.all isWordPart := by decide
    subst htext
    obtain ⟨hkind, hfirst, hparts⟩ := hall _ hkeyword
    simp only [String.toList_ofList, List.headD_cons] at hfirst
    simp only [String.toList_ofList, List.tail_cons, List.all_eq_true] at hparts
    have hcut := @cut_word _ _ hfirst hparts [] (by simp)
    rwa [List.append_nil, hkind] at hcut
  | whole hdigits hall =>
    subst htext
    obtain ⟨hfirst, hrest⟩ := List.forall_mem_cons.mp hall
    exact cut_digits hfirst hrest
  | @decimal digits fraction hdigits hall hfraction hallFraction =>
    obtain ⟨e, digits, rfl⟩ := List.exists_cons_of_ne_nil hdigits
    obtain ⟨d, fraction, rfl⟩ := List.exists_cons_of_ne_nil hfraction
    obtain ⟨rfl, rfl⟩ := List.cons.inj htext
    obtain ⟨hfirst, hrest⟩ := List.forall_mem_cons.mp hall
    obtain ⟨hpoint, hlast⟩ := List.forall_mem_cons.mp hallFraction
    exact cut_decimal hfirst hrest hpoint hlast
  | identifier hletter hparts hkeyword =>
    obtain ⟨rfl, rfl⟩ := List.cons.inj htext
    have hkind : Kind.ofWord (.ofList (c :: cs)) = .identifier := by
      have hlookup : Kind.keywords.lookup (.ofList (c :: cs)) = none := by
        refine List.lookup_eq_none_iff.mpr fun entry hentry => ?_
        have hne : entry.1 ≠ .ofList (c :: cs) :=
          fun heq => hkeyword (List.mem_map.mpr ⟨entry, hentry, heq⟩)
        simpa using hne.symm
      rw [Kind.ofWord, hlookup, Option.getD_none]
    have hcut := @cut_word _ _ hletter hparts [] (by simp)
    rwa [List.append_nil, hkind] at hcut
  | string hbody =>
    obtain ⟨rfl, rfl⟩ := List.cons.inj htext
    exact cut_quoted hbody

theorem cuts_eq (h : Lexeme text kind literal) :
    cuts text = [⟨.token kind literal, text, []⟩] := by
  obtain ⟨c, cs, rfl⟩ := List.exists_cons_of_ne_nil h.ne_nil
  rw [cuts, h.cut_eq, cuts]

end Lexeme

/-! ### Words written out -/

/-- Tokens written out: their lexemes, with a blank between any two of them. -/
def written (ts : List Token) : String := " ".intercalate (ts.map (·.lexeme))

theorem toList_written_cons (t u : Token) (ts : List Token) :
    (written (t :: u :: ts)).toList = t.lexeme.toList ++ ' ' :: (written (u :: ts)).toList := by
  rw [written, List.map_cons, List.map_cons, String.intercalate_cons_cons, String.toList_append,
    String.toList_append, List.append_assoc]
  rfl

namespace Scan

/-- A lexeme and a blank are cut off the front of a text. -/
theorem cuts_lexeme {text : List Char} {kind : Kind} {literal : Literal}
    (h : Lexeme text kind literal) (more : List Char) :
    cuts (text ++ ' ' :: more) =
      ⟨.token kind literal, text, ' ' :: more⟩ :: ⟨.skipped, [' '], more⟩ :: cuts more := by
  have hends : ∀ k ∈ cuts text, k.EndsAt ' ' := by
    rw [h.cuts_eq]
    exact List.forall_mem_singleton.mpr ⟨nofun, nofun⟩
  have hblank : cut ' ' more = ⟨.skipped, [' '], more⟩ := rfl
  rw [cuts_append (by decide) text more hends, h.cuts_eq, cuts, hblank]
  rfl

theorem collect_written (ts : List Token) (h : ∀ t ∈ ts, t.IsLexeme) (p : Position) :
    (collect p (cuts (written ts).toList)).tokens.dropLast.map Token.bare = ts.map Token.bare ∧
      (collect p (cuts (written ts).toList)).faults = [] := by
  induction ts generalizing p with
  | nil =>
    rw [written, List.map_nil, String.intercalate_nil, String.toList_empty, cuts]
    exact ⟨rfl, rfl⟩
  | cons t ts ih =>
    obtain ⟨ht, hts⟩ := List.forall_mem_cons.mp h
    cases ts with
    | nil =>
      rw [written, List.map_singleton, String.intercalate_singleton, ht.cuts_eq]
      simp [collect, Outcome.add, Token.bare]
    | cons u ts =>
      obtain ⟨hwords, hfaults⟩ := ih hts ((p.after t.lexeme.toList).after [' '])
      rw [toList_written_cons, cuts_lexeme ht]
      simp only [collect, Outcome.add, List.dropLast_cons_of_ne_nil (collect_ne_nil _ _)]
      refine ⟨?_, hfaults⟩
      rw [List.map_cons, hwords]
      simp [Token.bare]

end Scan

/-- Words survive being written out: the words of a source, with a blank between any two of them,
are a text without faults, and its words are the same, in the same order, but for their places. -/
theorem scan_written (source : String) :
    (scan (written (wordsOf source))).diagnostics = [] ∧
      (wordsOf (written (wordsOf source))).map Token.bare = (wordsOf source).map Token.bare := by
  obtain ⟨hwords, hfaults⟩ := collect_written (wordsOf source) (isLexeme_words source) .start
  exact ⟨List.map_eq_nil_iff.mpr hfaults, hwords⟩

end LoxScript
