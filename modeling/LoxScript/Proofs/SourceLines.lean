import Mathlib.Data.List.DropRight
import LoxScript.Proofs.Provenance

/-!
The lines of a source, and the line on which a word stands.

A line of a quoted source ends at every character that ends a line for a reader, while tokens count
newlines only. Behind a text in which each line ends with a newline, both numbers are the same.
-/
namespace LoxScript
namespace Text

/-- The number of lines that end in a text. A carriage return and a newline in a row end one. -/
def lineEnds : List Char → Nat
  | [] => 0
  | '\r' :: '\n' :: cs => lineEnds cs + 1
  | c :: cs => lineEnds cs + if isLineEnd c then 1 else 0

/-- What stands behind the last line end of a text. -/
def lineTail (cs : List Char) : List Char := cs.rtakeWhile (!isLineEnd ·)

/-- What stands in front of the first line end of a text. -/
def lineHead (cs : List Char) : List Char := cs.takeWhile (!isLineEnd ·)

/-- Each line that ends in a text does so with a newline, alone or behind a carriage return. -/
def Plain (cs : List Char) : Prop := lineEnds cs = cs.count '\n'

instance (cs : List Char) : Decidable (Plain cs) := inferInstanceAs (Decidable (_ = _))

section Tail
variable {p q : Char → Bool} {c : Char}

theorem rtakeWhile_stop (h : p c = false) (a b : List Char) :
    (a ++ c :: b).rtakeWhile p = b.rtakeWhile p := by
  rw [List.rtakeWhile, List.reverse_append, List.reverse_cons, List.append_assoc,
    List.singleton_append, Scan.takeWhile_append_stop h, List.rtakeWhile]

theorem rtakeWhile_self {cs : List Char} (h : ∀ c ∈ cs, p c) : cs.rtakeWhile p = cs :=
  List.rtakeWhile_eq_self_iff.mpr h

/-- A character in front that stops neither of two searches. -/
theorem rtakeWhile_cons_congr {cs : List Char} (hp : p c) (hq : q c)
    (h : cs.rtakeWhile p = cs.rtakeWhile q) : (c :: cs).rtakeWhile p = (c :: cs).rtakeWhile q := by
  simp only [List.rtakeWhile, List.reverse_inj, List.reverse_cons, List.takeWhile_append] at h ⊢
  simp only [h, List.takeWhile_cons, hp, hq, if_true, List.takeWhile_nil]

end Tail

theorem newline_isLineEnd : isLineEnd '\n' := by decide

theorem return_isLineEnd : isLineEnd '\r' := by decide

section Cons
variable {c : Char} {cs : List Char} (hpair : ∀ rest, c = '\r' → cs = '\n' :: rest → False)
include hpair

theorem lineEnds_cons : lineEnds (c :: cs) = lineEnds cs + if isLineEnd c then 1 else 0 := by
  rw [lineEnds]
  exact hpair

theorem linesFrom_cons (line : List Char) : linesFrom line (c :: cs) =
    if isLineEnd c then line.reverse :: linesFrom [] cs else linesFrom (c :: line) cs := by
  rw [linesFrom]
  exact hpair

end Cons

theorem count_le_lineEnds (cs : List Char) : cs.count '\n' ≤ lineEnds cs := by
  induction cs using lineEnds.induct with
  | case1 => exact Nat.le_refl _
  | case2 cs ih => simpa [lineEnds] using ih
  | case3 c cs hpair ih =>
    rw [lineEnds_cons hpair, List.count_cons]
    by_cases hc : c = '\n'
    · simpa [hc, newline_isLineEnd] using ih
    · simp only [beq_iff_eq, hc, if_false]
      omega

/-- Lines end in two texts as in both together, unless a line end is cut in two between them. -/
theorem lineEnds_append {a b : List Char} (h : a.getLast? ≠ some '\r' ∨ b.head? ≠ some '\n') :
    lineEnds (a ++ b) = lineEnds a + lineEnds b := by
  induction a using lineEnds.induct with
  | case1 => exact (Nat.zero_add _).symm
  | case2 cs ih =>
    have hrest : cs.getLast? ≠ some '\r' ∨ b.head? ≠ some '\n' := by
      cases cs with
      | nil => exact .inl nofun
      | cons d cs => simpa using h
    simp only [List.cons_append, lineEnds, ih hrest]
    omega
  | case3 c cs hpair ih =>
    cases cs with
    | nil =>
      have hpair' (rest : List Char) (hc : c = '\r') (hb : b = '\n' :: rest) : False := by
        simp [hc, hb] at h
      rw [List.singleton_append, lineEnds_cons hpair', lineEnds_cons hpair, lineEnds]
      omega
    | cons d cs =>
      have hpair' (rest : List Char) (hc : c = '\r') (hcs : d :: cs ++ b = '\n' :: rest) : False :=
        hpair cs hc (by rw [(List.cons.inj hcs).1])
      rw [List.cons_append, lineEnds_cons hpair', lineEnds_cons hpair, ih (by simpa using h)]
      omega

theorem inLine_of_lineEnds {cs : List Char} (h : lineEnds cs = 0) :
    ∀ c ∈ cs, isLineEnd c = false := by
  induction cs using lineEnds.induct with
  | case1 => exact List.forall_mem_nil _
  | case2 cs ih => exact absurd h (Nat.succ_ne_zero _)
  | case3 c cs hpair ih =>
    rw [lineEnds_cons hpair] at h
    have hc : isLineEnd c = false := by
      by_contra hend
      simp [hend] at h
    exact List.forall_mem_cons.mpr ⟨hc, ih (Nat.eq_zero_of_add_eq_zero_right h)⟩

/-- The parts of a text where each line ends with a newline are such texts. -/
theorem Plain.parts {a b : List Char} (h : Plain (a ++ b))
    (hcut : a.getLast? ≠ some '\r' ∨ b.head? ≠ some '\n') : Plain a ∧ Plain b := by
  have ha := count_le_lineEnds a
  have hb := count_le_lineEnds b
  rw [Plain, lineEnds_append hcut, List.count_append] at h
  unfold Plain
  omega

/-- In a text where each line ends with a newline, the last one starts behind the last newline. -/
theorem Plain.tail_eq {cs : List Char} (h : Plain cs) : cs.rtakeWhile (· ≠ '\n') = lineTail cs := by
  induction cs using lineEnds.induct with
  | case1 => rfl
  | case2 cs ih =>
    have hrest : Plain cs := by simpa [Plain, lineEnds] using h
    have hnewline := rtakeWhile_stop (p := (· ≠ '\n')) (c := '\n') (by decide) ['\r'] cs
    have hend := rtakeWhile_stop (p := (!isLineEnd ·)) (c := '\n') (by decide) ['\r'] cs
    exact hnewline.trans ((ih hrest).trans hend.symm)
  | case3 c cs hpair ih =>
    have hcount := count_le_lineEnds cs
    rw [Plain, lineEnds_cons hpair, List.count_cons] at h
    by_cases hc : c = '\n'
    · subst hc
      have hrest : Plain cs := by simpa [Plain, newline_isLineEnd] using h
      have hnewline := rtakeWhile_stop (p := (· ≠ '\n')) (c := '\n') (by decide) [] cs
      have hend := rtakeWhile_stop (p := (!isLineEnd ·)) (c := '\n') (by decide) [] cs
      exact hnewline.trans ((ih hrest).trans hend.symm)
    · simp only [beq_iff_eq, hc, if_false] at h
      cases hend : isLineEnd c with
      | true =>
        rw [hend, if_pos rfl] at h
        omega
      | false =>
        have hrest : Plain cs := by simpa [Plain, hend] using h
        exact rtakeWhile_cons_congr (by simpa using hc) (by simp [hend]) (ih hrest)

/-- The rest of a line that has begun is the first line. -/
theorem linesFrom_head (line cs : List Char) (h : line ≠ [] ∨ cs ≠ []) :
    (linesFrom line cs)[0]? = some (line.reverse ++ lineHead cs) := by
  induction cs generalizing line with
  | nil =>
    have hline : line ≠ [] := h.resolve_right fun hcs => hcs rfl
    simp [linesFrom, lineHead, hline]
  | cons c cs ih =>
    by_cases hpair : c = '\r' ∧ cs.head? = some '\n'
    · obtain ⟨rfl, hhead⟩ := hpair
      obtain ⟨rest, rfl⟩ := List.head?_eq_some_iff.mp hhead
      simp [linesFrom, lineHead, return_isLineEnd]
    · rw [linesFrom_cons fun rest hc hcs => hpair ⟨hc, by rw [hcs]; rfl⟩]
      cases hend : isLineEnd c with
      | true => simp [lineHead, hend]
      | false =>
        have hrest := ih (c :: line) (.inl (List.cons_ne_nil _ _))
        simpa [lineHead, hend] using hrest

/-- The line behind the lines that end in a text. -/
theorem linesFrom_append {line : List Char} (hline : ∀ c ∈ line, isLineEnd c = false)
    (front : List Char) {back : List Char} (hback : lineHead back ≠ []) :
    (linesFrom line (front ++ back))[lineEnds front]? =
      some (lineTail (line.reverse ++ front) ++ lineHead back) := by
  have hnil : back ≠ [] := by
    rintro rfl
    exact hback rfl
  have hnewline (rest : List Char) : back ≠ '\n' :: rest := by
    rintro rfl
    exact hback (by simp [lineHead, newline_isLineEnd])
  induction front using lineEnds.induct generalizing line with
  | case1 =>
    have hself : lineTail line.reverse = line.reverse := rtakeWhile_self (by simpa using hline)
    rw [List.append_nil, hself]
    exact linesFrom_head line back (.inr hnil)
  | case2 cs ih =>
    have htail : lineTail (line.reverse ++ '\r' :: '\n' :: cs) = lineTail cs :=
      (rtakeWhile_stop (by decide) _ _).trans (rtakeWhile_stop (by decide) [] _)
    rw [htail]
    exact ih (List.forall_mem_nil _)
  | case3 c cs hpair ih =>
    have hpair' (rest : List Char) (hc : c = '\r') (hcs : cs ++ back = '\n' :: rest) : False := by
      cases cs with
      | nil => exact hnewline rest hcs
      | cons d cs =>
        obtain ⟨rfl, -⟩ := List.cons.inj hcs
        exact hpair cs hc rfl
    rw [List.cons_append, linesFrom_cons hpair', lineEnds_cons hpair]
    cases hend : isLineEnd c with
    | true =>
      have htail : lineTail (line.reverse ++ c :: cs) = lineTail cs :=
        rtakeWhile_stop (by simp [hend]) _ _
      rw [htail]
      exact ih (List.forall_mem_nil _)
    | false =>
      have hlonger : ∀ d ∈ c :: line, isLineEnd d = false := List.forall_mem_cons.mpr ⟨hend, hline⟩
      simpa using ih hlonger

/-- The line of a text on which something stands, that is no line end. -/
theorem lines_append (front : List Char) {back : List Char} (hback : lineHead back ≠ []) :
    (lines (front ++ back))[lineEnds front]? = some (lineTail front ++ lineHead back) :=
  linesFrom_append (List.forall_mem_nil _) front hback

end Text

/-! ### Words in their sources -/

/-- A token stands in a source between two texts. Its line is the one on which it ends, and its
column is that of its first character, where newlines alone end a line. -/
structure Token.StandsIn (t : Token) (source : String) (front back : List Char) : Prop where
  text : source.toList = front ++ t.lexeme.toList ++ back
  line : t.line = (front ++ t.lexeme.toList).count '\n' + 1
  column : t.column = some (front.rtakeWhile (· ≠ '\n')).length

namespace Scan

theorem column_after (cs : List Char) :
    (Position.start.after cs).column = (cs.rtakeWhile (· ≠ '\n')).length := by
  induction cs using List.reverseRecOn with
  | nil => rfl
  | append_singleton cs c ih =>
    have hstep : Position.start.after (cs ++ [c]) = (Position.start.after cs).step c :=
      after_append _ cs [c]
    rw [hstep, Position.step]
    by_cases hc : c = '\n'
    · rw [if_pos hc, List.rtakeWhile_concat_neg _ _ _ (by simpa using hc)]
      rfl
    · rw [if_neg hc, List.rtakeWhile_concat_pos _ _ _ (by simpa using hc), List.length_append, ih]
      rfl

section Pieces
variable {source : String} {front text : List Char}

/-- The token of a piece stands where the piece does. -/
theorem standsIn_cut {c : Char} {rest : List Char} (hsource : source.toList = front ++ c :: rest)
    (kind : Kind) (literal : Literal) :
    Token.StandsIn ⟨kind, .ofList (cut c rest).taken, literal,
      ((Position.start.after front).after (cut c rest).taken).line,
      some (Position.start.after front).column⟩ source front (cut c rest).rest := by
  refine ⟨?_, ?_, congrArg some (column_after front)⟩
  · rw [String.toList_ofList, List.append_assoc, taken_append_rest, hsource]
  · rw [String.toList_ofList, ← after_append, line_after, Position.start, Nat.add_comm]

theorem source_behind_cut {c : Char} {rest : List Char}
    (hsource : source.toList = front ++ c :: rest) :
    source.toList = (front ++ (cut c rest).taken) ++ (cut c rest).rest := by
  rw [hsource, List.append_assoc, taken_append_rest]

/-- Every token of a text behind another one is that of a piece of the text, and stands there. -/
theorem collect_pieces (hsource : source.toList = front ++ text) :
    ∀ t ∈ (collect (Position.start.after front) (cuts text)).tokens.dropLast,
      ∃ k ∈ cuts text, k.piece = .token t.kind t.literal ∧
        ∃ before, front <+: before ∧ t.StandsIn source before k.rest := by
  induction text using cuts.induct generalizing front with
  | case1 =>
    rw [cuts]
    exact List.forall_mem_nil _
  | case2 c rest ih =>
    have hrest := ih (source_behind_cut hsource)
    rw [after_append] at hrest
    have hlater : ∀ t ∈ (collect ((Position.start.after front).after (cut c rest).taken)
        (cuts (cut c rest).rest)).tokens.dropLast,
        ∃ k ∈ cut c rest :: cuts (cut c rest).rest, k.piece = .token t.kind t.literal ∧
          ∃ before, front <+: before ∧ t.StandsIn source before k.rest := by
      intro t ht
      obtain ⟨k, hk, hpiece, before, hinit, hstand⟩ := hrest t ht
      exact ⟨k, List.mem_cons_of_mem _ hk, hpiece, before, (List.prefix_append _ _).trans hinit,
        hstand⟩
    rw [cuts, collect, Outcome.add]
    cases hpiece : (cut c rest).piece with
    | token kind literal =>
      rw [List.dropLast_cons_of_ne_nil (collect_ne_nil _ _)]
      exact List.forall_mem_cons.mpr ⟨⟨cut c rest, List.mem_cons_self, hpiece, front,
        List.prefix_refl _, standsIn_cut hsource kind literal⟩, hlater⟩
    | _ => exact hlater

end Pieces
end Scan

/-- Every word of a source stands somewhere in it. -/
theorem wordsOf_standIn (source : String) :
    ∀ t ∈ wordsOf source, ∃ front back, t.StandsIn source front back := by
  intro t ht
  obtain ⟨k, -, -, front, -, hstand⟩ := Scan.collect_pieces (List.nil_append _).symm t ht
  exact ⟨front, k.rest, hstand⟩

theorem Scan.isLineEnd_eq_false {c : Char} (h : isWordPart c) : Text.isLineEnd c = false := by
  -- The characters of words lie between two ranges of line ends.
  have hcode := code_of_isWordPart h
  simp only [Text.isLineEnd, Text.lineEndRanges, Text.inRanges]
  grind

/-- No word but a string goes over the end of a line. -/
theorem Lexeme.inLine {text : List Char} {kind : Kind} {literal : Literal}
    (h : Lexeme text kind literal) (hkind : kind ≠ .string) :
    ∀ c ∈ text, Text.isLineEnd c = false := by
  have hdigit {c : Char} (hc : Scan.isDigit c) : Text.isLineEnd c = false :=
    Scan.isLineEnd_eq_false (by simp [Scan.isWordPart, hc])
  cases h with
  | operator hspelling =>
    have hall : ∀ entry ∈ Kind.spellings, entry.1.toList.all (!Text.isLineEnd ·) := by decide
    simpa using hall _ hspelling
  | keyword hkeyword =>
    have hall : ∀ entry ∈ Kind.keywords, entry.1.toList.all (!Text.isLineEnd ·) := by decide
    simpa using hall _ hkeyword
  | whole hdigits hall => exact fun c hc => hdigit (hall c hc)
  | decimal hdigits hall hfraction hallFraction =>
    simp only [List.forall_mem_append, List.forall_mem_cons]
    exact ⟨fun c hc => hdigit (hall c hc), by decide, fun c hc => hdigit (hallFraction c hc)⟩
  | identifier hfirst hall =>
    refine List.forall_mem_cons.mpr ⟨Scan.isLineEnd_eq_false ?_, fun c hc => ?_⟩
    · simp [Scan.isWordPart, hfirst]
    · exact Scan.isLineEnd_eq_false (hall c hc)
  | string hbody => exact absurd rfl hkind

end LoxScript
