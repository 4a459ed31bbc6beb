import LoxScript.Proofs.Entries
import LoxScript.Proofs.Relocation
import LoxScript.Proofs.Rescanning

/-!
Bare expressions at the prompt.

An entry that is an expression is printed: it is completed to a statement by its text, with no look
at its words, and that statement is read as one that prints the expression.
-/
namespace LoxScript

open Grammar Scan

/-! ### White space -/

theorem Text.inRanges_append {n : Nat} {ranges : List (Nat × Nat)} (h : inRanges n ranges)
    (more : List (Nat × Nat)) : inRanges n (ranges ++ more) := by
  induction ranges with
  | nil => cases h
  | cons range ranges ih =>
    rw [List.cons_append, inRanges]
    rw [inRanges] at h
    split
    next hle => simpa [hle] using h
    next hgt => exact ih (by simpa [hgt] using h)

namespace Scan
variable {c : Char}

/-- The characters of words are word characters of the text. -/
theorem isWord_of_isWordPart (h : isWordPart c) : Text.isWord c := by
  have hfront : Text.inRanges c.toNat [(48, 57), (65, 90), (95, 95), (97, 122)] := by
    obtain ⟨range, hrange, hlow, hhigh⟩ := range_of_isWordPart h
    simp only [List.mem_cons, List.not_mem_nil, or_false] at hrange
    obtain rfl | rfl | rfl | rfl := hrange <;> simp only [Text.inRanges] <;> grind
  exact Text.inRanges_append hfront (Text.wordRanges.drop 4)

section Blank
variable (h : Text.isBlank c)
include h

theorem code_of_isBlank : c.toNat ≤ 32 ∨ 133 ≤ c.toNat := by
  by_contra hcode
  simp only [Text.isBlank, Text.blankRanges, Text.inRanges] at h
  grind

theorem separator_of_isBlank : Separator c := by
  constructor
  · by_contra hword
    have hcode := code_of_isBlank h
    have hpart := code_of_isWordPart (Bool.of_not_eq_false hword)
    omega
  · intro hmem
    simp only [List.mem_cons, List.not_mem_nil, or_false] at hmem
    obtain rfl | rfl | rfl := hmem <;> revert h <;> decide

/-- White space is skipped, or belongs nowhere. -/
theorem cut_of_isBlank (rest : List Char) :
    ∃ piece ∈ [Piece.skipped, .unexpected c], cut c rest = ⟨piece, [c], rest⟩ := by
  have hne {d : Char} (hd : Text.isBlank d = false) : c ≠ d := by
    rintro rfl
    rw [h] at hd
    cases hd
  have hsingle : single? c = none := by
    unfold single?
    split <;> first | rfl | (revert h; decide)
  have hdouble : double? c = none := by
    unfold double?
    split <;> first | rfl | (revert h; decide)
  have hword := (separator_of_isBlank h).1
  rw [isWordPart, Bool.or_eq_false_iff] at hword
  have hslash : c ≠ '/' := hne (by decide)
  have hquote : c ≠ quote := hne (by decide)
  rw [cut, if_neg (mt And.left hslash), hsingle, hdouble]
  simp only [hquote, hword, if_false, Bool.false_eq_true]
  split
  · exact ⟨.skipped, by simp, rfl⟩
  · exact ⟨.unexpected c, by simp, rfl⟩

end Blank

/-- White space in front of a text is no part of any word. -/
theorem collect_blanks {lead : List Char} (hlead : ∀ c ∈ lead, Text.isBlank c) (text : List Char)
    (p : Position) :
    (collect p (cuts (lead ++ text))).tokens = (collect (p.after lead) (cuts text)).tokens ∧
      (collect (p.after lead) (cuts text)).faults <:+ (collect p (cuts (lead ++ text))).faults := by
  induction lead generalizing p with
  | nil => exact ⟨rfl, List.suffix_refl _⟩
  | cons c lead ih =>
    obtain ⟨hc, hlead⟩ := List.forall_mem_cons.mp hlead
    obtain ⟨htokens, hfaults⟩ := ih hlead (p.after [c])
    obtain ⟨piece, hpiece, hcut⟩ := cut_of_isBlank hc (lead ++ text)
    rw [List.cons_append, cuts, hcut, collect, Outcome.add]
    simp only [List.mem_cons, List.not_mem_nil, or_false] at hpiece
    obtain rfl | rfl := hpiece
    · exact ⟨htokens, hfaults⟩
    · exact ⟨htokens, hfaults.trans (List.suffix_cons _ _)⟩

theorem collect_trailing {text trail : List Char} (hends : ∀ d, ∀ k ∈ cuts text, k.EndsAt d)
    (htrail : ∀ c ∈ trail, Text.isBlank c) (p : Position) :
    (collect p (cuts (text ++ trail))).tokens.dropLast = (collect p (cuts text)).tokens.dropLast ∧
      (collect p (cuts text)).faults <+: (collect p (cuts (text ++ trail))).faults := by
  cases trail with
  | nil =>
    rw [List.append_nil]
    exact ⟨rfl, List.prefix_refl _⟩
  | cons d trail =>
    have hd := separator_of_isBlank (htrail d List.mem_cons_self)
    have hrest := (collect_blanks htrail [] (p.after text)).1
    rw [List.append_nil, cuts] at hrest
    rw [collect_cuts_append hd text trail (hends d), hrest]
    exact ⟨List.dropLast_concat, List.prefix_append _ _⟩

/-- Where pieces stand does not matter to what they are. -/
theorem collect_elsewhere (cs : List Cut) (p q : Position) :
    (collect p cs).tokens.dropLast.map Token.bare = (collect q cs).tokens.dropLast.map Token.bare ∧
      ((collect p cs).faults = [] ↔ (collect q cs).faults = []) := by
  obtain ⟨hwords, hfaults⟩ := collect_spans cs p 0
  obtain ⟨hwords', hfaults'⟩ := collect_spans cs q 0
  constructor
  · have hsame := congrArg (List.map fun (kind, lexeme, literal) => Token.bare
      ⟨kind, lexeme, literal, 0, none⟩) (hwords.trans hwords'.symm)
    rw [List.map_map, List.map_map] at hsame
    exact hsame
  · rw [← List.map_eq_nil_iff, hfaults, ← hfaults', List.map_eq_nil_iff]

end Scan

section Stripped
variable {e : String}

/-- A source has the words that it has without the white space around it, if these end where they
do. -/
theorem words_strip (hends : ∀ d, ∀ k ∈ cuts (Shell.strip e).toList, k.EndsAt d) :
    (wordsOf (Shell.strip e)).map Token.bare = (wordsOf e).map Token.bare ∧
      ((scan e).faults = [] → (scan (Shell.strip e)).faults = []) := by
  obtain ⟨lead, trail, hsplit, hlead, htrail⟩ := Text.split_trim e.toList
  rw [← Shell.toList_strip, List.append_assoc] at hsplit
  obtain ⟨htokens, hfaults⟩ := collect_blanks hlead ((Shell.strip e).toList ++ trail) .start
  obtain ⟨hwords, hfaults'⟩ := collect_trailing hends htrail (Position.start.after lead)
  obtain ⟨hbare, hnone⟩ := collect_elsewhere (cuts (Shell.strip e).toList) .start
    (Position.start.after lead)
  constructor
  · rw [wordsOf, wordsOf, scan, scan, hbare, hsplit, htokens, hwords]
  · intro he
    rw [scan, hsplit] at he
    rw [he] at hfaults
    rw [List.suffix_nil.mp hfaults] at hfaults'
    exact hnone.mpr (List.prefix_nil.mp hfaults')

end Stripped

/-! ### What is done to an entry -/

namespace Shell

/-- A text that starts with a statement's word has that word as its first one. -/
theorem kind_of_startsWith {word : String} {cs : List Char} (hword : word ∈ statementWords)
    (h : startsWith word cs) (p : Position) :
    ((collect p (cuts cs)).tokens.dropLast.map (·.kind)).head? = some (Kind.ofWord word) := by
  have hall : ∀ w ∈ statementWords, w.toList ≠ [] ∧ isLetter (w.toList.headD ' ') ∧
      w.toList.tail.all isWordPart := by decide
  obtain ⟨hne, hletter, hparts⟩ := hall word hword
  obtain ⟨c, ws, hw⟩ := List.exists_cons_of_ne_nil hne
  rw [hw, List.headD_cons] at hletter
  rw [hw, List.tail_cons, List.all_eq_true] at hparts
  rw [startsWith, Bool.and_eq_true] at h
  obtain ⟨hinit, hbehind⟩ := h
  obtain ⟨rest, rfl⟩ := List.isPrefixOf_iff_prefix.mp hinit
  have hrest : ∀ d ∈ rest.head?, isWordPart d = false := by
    intro d hd
    obtain ⟨more, rfl⟩ := List.head?_eq_some_iff.mp hd
    rw [← String.length_toList, List.drop_left] at hbehind
    by_contra hpart
    simp [isWord_of_isWordPart (Bool.of_not_eq_false hpart)] at hbehind
  have hcut := cut_word hletter hparts hrest
  rw [hw, List.cons_append, cuts, hcut, collect, Outcome.add,
    List.dropLast_cons_of_ne_nil (collect_ne_nil _ _), ← hw, String.ofList_toList]
  rfl

/-- A text is written behind `print` if it ends as no statement does and starts with no word of
one. -/
theorem complete_bare {e : String} (hsemicolon : (strip e).toList.getLast? ≠ some ';')
    (hbrace : (strip e).toList.getLast? ≠ some '\x7d')
    (hfirst : ∀ word ∈ statementWords, ¬ startsWith word (strip e).toList) :
    complete e = "print " ++ strip e ++ ";" := by
  rw [toList_strip] at hsemicolon hbrace hfirst
  have hword : ¬ statementWords.any (startsWith · (Text.trim e.toList)) := by
    simpa using hfirst
  simp only [complete, hsemicolon, hbrace, or_self, if_false, if_neg hword, strip]

end Shell

/-- A text between `print` and a semicolon has the words that it has alone. -/
theorem words_print {s : String} (hends : ∀ k ∈ cuts s.toList, k.EndsAt ';') :
    ∃ keyword words semicolon, wordsOf ("print " ++ s ++ ";") = keyword :: words ++ [semicolon] ∧
      keyword.kind = .kwPrint ∧ semicolon.kind = .semicolon ∧
      words.map Token.bare = (wordsOf s).map Token.bare ∧
      ((scan s).faults = [] → (scan ("print " ++ s ++ ";")).faults = []) := by
  have hprint : Lexeme "print".toList .kwPrint .nil := .keyword (by decide)
  have hsemicolon : Lexeme [';'] .semicolon .nil := .operator (by decide)
  have htext : ("print " ++ s ++ ";").toList = "print".toList ++ ' ' :: (s.toList ++ [';']) := by
    rw [String.toList_append, String.toList_append, List.append_assoc]
    rfl
  let p := (Position.start.after "print".toList).after [' ']
  obtain ⟨keyword, hkeyword, hscan⟩ : ∃ keyword : Token, keyword.kind = .kwPrint ∧
      scan ("print " ++ s ++ ";") = ⟨keyword :: (collect p (cuts (s.toList ++ [';']))).tokens,
        (collect p (cuts (s.toList ++ [';']))).faults⟩ := by
    rw [scan, htext, cuts_lexeme hprint]
    refine ⟨_, ?_, rfl⟩
    rfl
  obtain ⟨semicolon, line, hkind, hend⟩ : ∃ semicolon line, semicolon.kind = .semicolon ∧
      collect (p.after s.toList) (cuts [';']) = ⟨[semicolon, .endOfText line], []⟩ := by
    rw [hsemicolon.cuts_eq]
    refine ⟨_, _, ?_, rfl⟩
    rfl
  have hbehind := collect_cuts_append (by decide) s.toList [] hends p
  rw [hend, List.append_nil] at hbehind
  rw [hbehind] at hscan
  obtain ⟨hwords, hfaults⟩ := collect_elsewhere (cuts s.toList) p .start
  refine ⟨keyword, (collect p (cuts s.toList)).tokens.dropLast, semicolon, ?_, hkeyword, hkind,
    hwords, fun hnone => ?_⟩
  · have hends : keyword :: ((collect p (cuts s.toList)).tokens.dropLast ++
        [semicolon, .endOfText line]) =
          (keyword :: (collect p (cuts s.toList)).tokens.dropLast ++ [semicolon]) ++
            [.endOfText line] := by simp
    rw [wordsOf, hscan]
    exact (congrArg List.dropLast hends).trans List.dropLast_concat
  · rw [hscan]
    exact hfaults.mpr hnone

/-! ### Bare expressions -/

/-- The last word of a source stands at its end. -/
def EndsWithWord (source : String) : Prop :=
  ∃ t front, (wordsOf source).getLast? = some t ∧ t.StandsIn source front []

/-- An entry that is an expression and nothing else: it is no function, ends with no brace and, but
for white space, with no comment. -/
structure BareExpression (e : String) (tree : RawExpr) : Prop where
  scanned : (scan e).diagnostics = []
  derived : Derives (.expr .comma) (wordsOf e) tree []
  first : ∀ t ∈ (wordsOf e).head?, t.kind ≠ .kwFun
  last : ∀ t ∈ (wordsOf e).getLast?, t.kind ≠ .rightBrace
  ends : EndsWithWord (Shell.strip e)

namespace BareExpression
variable {e : String} {tree : RawExpr} (h : BareExpression e tree)
include h

theorem endsAt (separator : Char) : ∀ k ∈ cuts (Shell.strip e).toList, k.EndsAt separator := by
  obtain ⟨t, front, hlast, hstand⟩ := h.ends
  exact hstand.endsAt (List.mem_of_getLast? hlast) separator

theorem kinds_strip : (wordsOf (Shell.strip e)).map (·.kind) = (wordsOf e).map (·.kind) := by
  have hkinds := congrArg (List.map (·.kind)) (words_strip h.endsAt).1
  rw [List.map_map, List.map_map] at hkinds
  exact hkinds

/-- The expression ends with no character that ends other words only. -/
theorem getLast_strip {c : Char} (hword : isWordPart c = false) (hquote : c ≠ quote)
    (hspellings : ∀ entry ∈ Kind.spellings, entry.1.toList.getLast? = some c →
      entry.2 ∉ closings ∨ entry.2 = .rightBrace) : (Shell.strip e).toList.getLast? ≠ some c := by
  intro hc
  obtain ⟨t, front, hlast, hstand⟩ := h.ends
  obtain ⟨u, ⟨before, hwords⟩, hclosing⟩ := h.derived.closed rfl
  have hlexeme := isLexeme_words _ t (List.mem_of_getLast? hlast)
  have hkind : t.kind = u.kind := by
    have hkinds := congrArg List.getLast? h.kinds_strip
    rw [List.getLast?_map, List.getLast?_map, hlast, ← hwords, List.getLast?_concat] at hkinds
    exact Option.some.inj hkinds
  have hbrace : u.kind ≠ .rightBrace := h.last u (by rw [← hwords, List.getLast?_concat]; rfl)
  have hend : t.lexeme.toList.getLast? = some c := by
    rw [hstand.text, List.append_nil, List.getLast?_append_of_ne_nil _ hlexeme.ne_nil] at hc
    exact hc
  have hspelling := hspellings _ (hlexeme.spelling_of_getLast hend hword hquote)
    (by rwa [String.toList_ofList])
  rw [hkind] at hspelling
  exact hspelling.elim (fun hother => hother hclosing) hbrace

/-- Of the words of statements only `fun` starts an expression. -/
theorem not_startsWith : ∀ word ∈ Shell.statementWords,
    ¬ Shell.startsWith word (Shell.strip e).toList := by
  intro word hword hstart
  have hhead : ((wordsOf (Shell.strip e)).map (·.kind)).head? = some (Kind.ofWord word) :=
    Shell.kind_of_startsWith hword hstart .start
  rw [h.kinds_strip, List.head?_map] at hhead
  obtain ⟨t, ht, hkind⟩ := Option.map_eq_some_iff.mp hhead
  obtain ⟨more, hwords⟩ := List.head?_eq_some_iff.mp ht
  have hstarts := h.derived.starts _ rfl
  rw [hwords, Parser.nextIs, hkind, List.contains_iff_mem] at hstarts
  have hall : ∀ w ∈ Shell.statementWords, Kind.ofWord w ∈ Tier.comma.firsts →
      Kind.ofWord w = .kwFun := by decide
  exact h.first t ht (hkind.trans (hall word hword hstarts))

end BareExpression

/-- A phrase of a tighter kind is one of the looser kinds. -/
theorem Grammar.Derives.loosen {l : Tier} {ts rest : List Token} {e : RawExpr} (n : Nat)
    (h : Derives (.expr (Tier.tighter^[n] l)) ts e rest) : Derives (.expr l) ts e rest := by
  induction n generalizing l with
  | zero => exact h
  | succ n ih =>
    have hinner := ih h
    cases l with
    | primary => exact hinner
    | _ => exact .pass nofun hinner

/-- A bare expression is printed. -/
theorem bare_expression_printed {e : String} {tree : RawExpr} (h : BareExpression e tree) :
    (scan (Shell.complete e)).diagnostics = [] ∧
      (parse (scan (Shell.complete e)).tokens).diagnostics = [] ∧
      ∃ printed, programOf (Shell.complete e) = [.print printed] ∧
        printed.map Token.bare id = tree.map Token.bare id := by
  have hcomplete := Shell.complete_bare (h.getLast_strip (by decide) (by decide) (by decide))
    (h.getLast_strip (by decide) (by decide) (by decide)) h.not_startsWith
  have hscanned : (scan e).faults = [] := List.map_eq_nil_iff.mp h.scanned
  obtain ⟨hsame, hnone⟩ := words_strip h.endsAt
  obtain ⟨keyword, words, semicolon, hwords, hkeyword, hsemicolon, hbare, hfaults⟩ :=
    words_print (h.endsAt ';')
  obtain ⟨printed, hderives, htree⟩ :=
    h.derived.elsewhere (wordsOf_nodup e) (hbare.trans hsame) [semicolon]
  have hprogram : Derives .declarations (wordsOf (Shell.complete e)) [.print printed] [] := by
    rw [hcomplete, hwords]
    refine .moreDeclarations (.statement (.print hkeyword hderives hsemicolon) ?_) .noDeclarations
    rintro ⟨other, name, rest, hother, hfun, -⟩
    obtain ⟨rfl, -⟩ := List.cons.inj hother
    rw [hkeyword] at hfun
    cases hfun
  obtain ⟨hparsed, hprinted⟩ := (parsed_iff_derives _ _).mpr hprogram
  refine ⟨?_, hparsed, printed, hprinted, htree⟩
  rw [hcomplete]
  exact List.map_eq_nil_iff.mpr (hfaults (hnone hscanned))

/-- An identifier that starts like a keyword, a comment and line ends inside, and a string that ends
with a semicolon. -/
theorem bare_expression_printed_sum :
    let e := "  printer +\n // a; \x7d\n \"b;\" "
    Shell.complete e = "print printer +\n // a; \x7d\n \"b;\";" ∧
      (scan (Shell.complete e)).diagnostics = [] ∧
      (parse (scan (Shell.complete e)).tokens).diagnostics = [] ∧
      ∃ printed, programOf (Shell.complete e) = [.print printed] ∧
        printed.map Token.bare id = .binary (.variable ⟨.identifier, "printer", .nil, 0, none⟩ ())
          ⟨.plus, "+", .nil, 0, none⟩ (.literal (.text "b;")) := by
  intro e
  let left : Token := ⟨.identifier, "printer", .nil, 1, some 2⟩
  let plus : Token := ⟨.plus, "+", .nil, 1, some 10⟩
  let right : Token := ⟨.string, "\"b;\"", .text "b;", 3, some 1⟩
  have hwords : wordsOf e = [left, plus, right] := by decide +kernel
  have hexpr : Derives (.expr .comma) (wordsOf e)
      (.binary (.variable left ()) plus (.literal (.text "b;"))) [] := by
    rw [hwords]
    exact .loosen 6 (.chain (.loosen 6 (.name rfl)) (by decide) (.loosen 5 (.constant rfl)))
  have hbare : BareExpression e (.binary (.variable left ()) plus (.literal (.text "b;"))) := by
    refine ⟨by decide +kernel, hexpr, ?_, ?_, ?_⟩
    · simp [hwords, left]
    · simp [hwords, right]
    · exact ⟨right, "printer +\n // a; \x7d\n ".toList, by decide +kernel,
        by decide +kernel, by decide +kernel, by decide +kernel⟩
  exact ⟨by decide +kernel, bare_expression_printed hbare⟩

end LoxScript
