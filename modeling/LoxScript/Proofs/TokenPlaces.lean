import LoxScript.Proofs.Quotation

/-!
Where tokens are, and where they are shown.

Lines and columns are counted on while a source is cut into pieces, and what they come to can be
read off the source: the newlines up to the end of a token, and the characters since the last one in
front of it. The lines that are quoted are cut by other rules. If those come to the same for a
source, then every token on one line is found in that line, and marked at its column.
-/
namespace LoxScript

/-- A token starts at an offset of a text. Its line is the one on which it ends. -/
structure Token.StartsAt (t : Token) (text : List Char) (offset : Nat) : Prop where
  lexeme : (text.drop offset).take t.lexeme.length = t.lexeme.toList
  line : t.line = 1 + (text.take (offset + t.lexeme.length)).count '\n'
  column : t.column = some ((text.take offset).rtakeWhile (· ≠ '\n')).length

/-- A token is found in a line, and shown in it with a mark. -/
structure Token.ShownIn (t : Token) (r : Reporter) (line : String) : Prop where
  registered : r.line? (some t.line) = some line
  located : locate? line (some t) = t.column
  diagnosed : ∀ column ∈ t.column, r.diagnose? (some t.line) (some t) =
    some ("  " ++ line ++ "\n" ++ .ofList (List.replicate (2 + column) ' ') ++ "^" ++
      .ofList (List.replicate (t.lexeme.length - 1) '~'))

/-- The tokens of a source are where they say, and a reporter of the source shows them there. -/
structure Scan.Places (source : String) (r : Reporter) (spans : List Span) (words : List Token) :
    Prop where
  divided : Divided 0 source.toList spans
  tokens : (scan source).tokens = words ++ [.endOfText (1 + source.toList.count '\n')]
  notEnd : ∀ t ∈ words, t.kind ≠ .eof
  /-- Each token in front of the mark for the end starts where its own span of the source does. -/
  starts : List.Forall₂ (fun t s => s.word? = some (t.kind, t.lexeme, t.literal) ∧
    t.StartsAt source.toList s.start) words (spans.filter (·.word?.isSome))
  /-- A token that goes over no newline is shown in its line. -/
  shown : Text.Plain source.toList → ∀ t ∈ words, '\n' ∉ t.lexeme.toList → ∀ offset,
    t.StartsAt source.toList offset → t.ShownIn r (t.lineIn (source.toList.take offset)
      (source.toList.drop (offset + t.lexeme.length)))
  /-- The mark for the end has no column and is found in no line. -/
  ending : ∀ t ∈ (scan source).tokens, t.kind = .eof → t.column = none ∧
    ∀ line, locate? line (some t) = none

theorem Token.StartsAt.standsIn {t : Token} {source : String} {offset : Nat}
    (h : t.StartsAt source.toList offset) : t.StandsIn source (source.toList.take offset)
      (source.toList.drop (offset + t.lexeme.length)) := by
  have hend : source.toList.take offset ++ t.lexeme.toList =
      source.toList.take (offset + t.lexeme.length) := by
    rw [← h.lexeme, List.take_add]
  refine ⟨?_, ?_, h.column⟩
  · rw [hend, List.take_append_drop]
  · rw [hend, h.line, Nat.add_comm]

namespace Scan

/-- The tokens of the rest of a text start where its spans do. -/
theorem collect_starts (front text : List Char) :
    List.Forall₂ (fun t s => s.word? = some (t.kind, t.lexeme, t.literal) ∧
        t.StartsAt (front ++ text) s.start)
      (collect (Position.start.after front) (cuts text)).tokens.dropLast
      ((spansFrom front.length (cuts text)).filter (·.word?.isSome)) := by
  induction text using cuts.induct generalizing front with
  | case1 =>
    rw [cuts]
    exact .nil
  | case2 c rest ih =>
    have hwhole := taken_append_rest c rest
    have hlater := ih (front ++ (cut c rest).taken)
    rw [List.append_assoc, hwhole, after_append, List.length_append] at hlater
    rw [cuts, collect, Outcome.add, spansFrom, Cut.stretch]
    cases hpiece : (cut c rest).piece with
    | token kind literal =>
      rw [List.dropLast_cons_of_ne_nil (collect_ne_nil _ _), List.filter_cons_of_pos rfl]
      have hpast : (front ++ (c :: rest)).take (front.length + (cut c rest).taken.length) =
          front ++ (cut c rest).taken := by
        rw [← hwhole, ← List.append_assoc]
        exact List.take_left' List.length_append
      refine .cons ⟨rfl, ?_, ?_, ?_⟩ hlater
      · rw [List.drop_left, String.length_ofList, String.toList_ofList, ← hwhole, List.take_left]
      · rw [String.length_ofList, hpast, line_after, line_after, List.count_append]
        exact Nat.add_assoc _ _ _
      · rw [List.take_left, column_after]
    | skipped =>
      by_cases hslashes : ['/', '/'] <+: (cut c rest).taken
      · simp only [if_pos hslashes]
        exact hlater
      · simp only [if_neg hslashes]
        exact hlater
    | _ => exact hlater

theorem last_collect (cs : List Cut) (p : Position) :
    (collect p cs).tokens =
      (collect p cs).tokens.dropLast ++ [.endOfText (p.after (cs.flatMap (·.taken))).line] := by
  induction cs generalizing p with
  | nil => rfl
  | cons c cs ih =>
    have hlater := ih (p.after c.taken)
    rw [← after_append] at hlater
    rw [collect, Outcome.add, List.flatMap_cons]
    cases c.piece with
    | token kind literal =>
      simp only [List.dropLast_cons_of_ne_nil (collect_ne_nil _ _), List.cons_append]
      rw [← hlater]
    | _ => exact hlater

end Scan

/-- No lexeme ends inside of a line end. -/
theorem Lexeme.getLast_ne {text : List Char} {kind : Kind} {literal : Literal}
    (h : Lexeme text kind literal) : text.getLast? ≠ some '\r' := by
  intro hlast
  have hall : ∀ entry ∈ Kind.spellings, entry.1.toList.getLast? ≠ some '\r' := by decide
  have hspelling := h.spelling_of_getLast hlast (by decide) (by decide)
  exact hall _ hspelling (by rwa [String.toList_ofList])

/-- In a text where each line ends with a newline, a lexeme without one goes over no line end, and
the text in front of it is such a text as well. -/
theorem Lexeme.plain_around {text front back : List Char} {kind : Kind} {literal : Literal}
    (h : Lexeme text kind literal) (hplain : Text.Plain (front ++ text ++ back))
    (hnewline : '\n' ∉ text) : Text.Plain front ∧ ∀ c ∈ text, Text.isLineEnd c = false := by
  have hstart : (text ++ back).head? ≠ some '\n' := by
    obtain ⟨c, cs, rfl⟩ := List.exists_cons_of_ne_nil h.ne_nil
    rintro hhead
    cases hhead
    exact hnewline List.mem_cons_self
  rw [List.append_assoc] at hplain
  obtain ⟨hfront, hrest⟩ := hplain.parts (.inr hstart)
  have htext := (hrest.parts (.inl h.getLast_ne)).1
  exact ⟨hfront, Text.inLine_of_lineEnds (htext.trans (List.count_eq_zero.mpr hnewline))⟩

/-- Without colours, a line is written with a mark below, each behind two blanks. -/
theorem Reporter.quote_plain {r : Reporter} (hcolored : r.colored = false) (line : String)
    (start length : Nat) : r.quote line start length =
      "  " ++ line ++ "\n" ++ .ofList (List.replicate (2 + start) ' ') ++ "^" ++
        .ofList (List.replicate (length - 1) '~') := by
  have halarm (s : String) : r.alarm s = s := by simp [alarm, hcolored]
  have hline (more : List Char) : line.toList.take start ++
      ((line.toList.drop start).take length ++ (line.toList.drop (start + length) ++ more)) =
        line.toList ++ more := by
    rw [← List.append_assoc, ← List.take_add, ← List.append_assoc, List.take_append_drop]
  apply String.toList_inj.mp
  simp only [quote, halarm, underline, String.toList_append, String.toList_ofList,
    List.append_assoc, List.replicate_add, hline]
  rfl

/-- A token without a newline is shown in its line, by a reporter that knows the lines of a source
where each line ends with one. -/
theorem Token.StartsAt.shownIn {t : Token} {source : String} {offset : Nat} {r : Reporter}
    (h : t.StartsAt source.toList offset) (hlexeme : t.IsLexeme) (hnewline : '\n' ∉ t.lexeme.toList)
    (hplain : Text.Plain source.toList) (hlines : r.lines = linesOf source)
    (hcolored : r.colored = false) : t.ShownIn r (t.lineIn (source.toList.take offset)
      (source.toList.drop (offset + t.lexeme.length))) := by
  have hstands := h.standsIn
  obtain ⟨hfront, hinline⟩ := hlexeme.plain_around (hstands.text ▸ hplain) hnewline
  have hfound := (hstands.quotes_inLine hlexeme.ne_nil hinline hlines).own hfront rfl
  have hcolumn : t.column = some (offsetBehind (source.toList.take offset)) := by
    rw [h.column, hfront.tail_eq, offsetBehind]
  obtain ⟨line, hline, hquoted⟩ := Option.map_eq_some_iff.mp hfound
  obtain ⟨rfl, hmark⟩ := Quotation.mk.inj hquoted
  refine ⟨hline, hmark.trans hcolumn.symm, fun column hat => ?_⟩
  obtain rfl : offsetBehind (source.toList.take offset) = column := by
    rw [hcolumn] at hat
    exact Option.some.inj hat
  rw [Reporter.diagnose_eq, hfound]
  exact congrArg some (Reporter.quote_plain hcolored _ _ _)

/-- Every token of a source is where it says, and shown there by a reporter of the source. -/
theorem scan_places (source path : String) (r : Reporter) (hcolored : r.colored = false) :
    ∃ spans words, Scan.Places source (r.registerSource path source) spans words := by
  have hlast := Scan.last_collect (Scan.cuts source.toList) .start
  rw [Scan.flatMap_cuts, Scan.line_after] at hlast
  refine ⟨Scan.spansFrom 0 (Scan.cuts source.toList), wordsOf source,
    Scan.divided_cuts source.toList 0, hlast, wordsOf_ne_eof source,
    Scan.collect_starts [] source.toList, ?_, ?_⟩
  · intro hplain t ht hnewline offset hstart
    exact hstart.shownIn (isLexeme_words source t ht) hnewline hplain rfl hcolored
  · intro t ht hkind
    rw [scan, hlast, List.mem_append, List.mem_singleton] at ht
    obtain rfl := ht.resolve_left fun hword => wordsOf_ne_eof source t hword hkind
    exact ⟨rfl, fun _ => rfl⟩

/-- A source with lines that end in two ways, a comment and a string that goes over a line end. -/
theorem scan_places_lines :
    let source := "print a; // b\r\n  c = \"d\ne\";"
    Text.Plain source.toList ∧ (∃ spans words,
      Scan.Places source ((Reporter.start false false).registerSource "f" source) spans words) ∧
      (scan source).tokens.map (fun t => (t.lexeme, t.line, t.column)) =
        [("print", 1, some 0), ("a", 1, some 6), (";", 1, some 7), ("c", 2, some 2),
          ("=", 2, some 4), ("\"d\ne\"", 3, some 6), (";", 3, some 2), ("", 3, none)] :=
  ⟨by decide +kernel, scan_places _ "f" (.start false false) rfl, by decide +kernel⟩

end LoxScript
