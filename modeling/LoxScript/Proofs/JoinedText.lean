import Mathlib.Data.List.Count
import Mathlib.Algebra.Order.Group.Nat
import LoxScript.Proofs.Words

/-!
Texts joined at the end of a line.

No word goes on with a line end, a blank or a semicolon, so a text is cut as before when one of them
and more text follow, unless it ends inside of a string, or inside of a comment that goes on. Behind
a line end the words of the second text are those it has alone, on later lines.
-/
namespace LoxScript

/-- A token on a later line. -/
def Token.moved (lines : Nat) (t : Token) : Token := { t with line := t.line + lines }

@[simp] theorem Token.moved_zero (t : Token) : t.moved 0 = t := rfl

@[simp] theorem Token.moved_line (lines : Nat) (t : Token) : (t.moved lines).line = t.line + lines :=
  rfl

theorem Token.moved_moved (lines more : Nat) (t : Token) :
    (t.moved lines).moved more = t.moved (lines + more) := by
  simp only [moved, Nat.add_assoc]

/-- Seen from where it was and from the next line, a token that is moved or kept is moved by all
lines if it is by the first one, and kept if it is there. -/
theorem Token.moved_or_kept {t u v : Token} {more : Nat}
    (hfromStart : v = t.moved (more + 1) ∨ v = t) (hfromNext : v = u.moved more ∨ v = u) :
    (u = t.moved 1 → v = t.moved (more + 1)) ∧ (u = t → v = t) := by
  have hline : v.line = u.line + more ∨ v.line = u.line :=
    hfromNext.imp (congrArg Token.line) (congrArg Token.line)
  constructor
  · rintro rfl
    refine hfromStart.resolve_right ?_
    rintro rfl
    rw [moved_line] at hline
    omega
  · rintro rfl
    refine hfromStart.resolve_left ?_
    rintro rfl
    rw [moved_line] at hline
    omega

def Position.moved (lines : Nat) (p : Position) : Position := { p with line := p.line + lines }

def Anchor.moved (lines : Nat) : Anchor → Anchor
  | .line number => .line (number.map (· + lines))
  | .token t => .token (t.moved lines)

/-- A static error on a later line. -/
def Diagnostic.moved (lines : Nat) (d : Diagnostic) : Diagnostic :=
  { d with anchor := d.anchor.moved lines }

/-- The number of lines that a text has when a line end follows it. -/
def lineCount (source : String) : Nat := 1 + source.toList.count '\n'

namespace Scan

section Stop
variable {p : Char → Bool} {c : Char} (h : p c = false) (a b : List Char)
include h

theorem takeWhile_append_stop : (a ++ c :: b).takeWhile p = a.takeWhile p := by
  induction a with
  | nil => simp [h]
  | cons d a ih => by_cases hd : p d <;> simp [hd, ih]

theorem dropWhile_append_stop : (a ++ c :: b).dropWhile p = a.dropWhile p ++ c :: b := by
  induction a with
  | nil => simp [h]
  | cons d a ih => by_cases hd : p d <;> simp [hd, ih]

end Stop

section Stopped
variable {p : Char → Bool} {a : List Char} (h : a.dropWhile p ≠ []) (b : List Char)
include h

theorem length_takeWhile_ne : (a.takeWhile p).length ≠ a.length := by
  have hlength := congrArg List.length (a.takeWhile_append_dropWhile (p := p))
  have hrest := List.length_pos_iff.mpr h
  simp only [List.length_append] at hlength
  omega

theorem takeWhile_append_stopped : (a ++ b).takeWhile p = a.takeWhile p := by
  rw [List.takeWhile_append, if_neg (length_takeWhile_ne h)]

theorem dropWhile_append_stopped : (a ++ b).dropWhile p = a.dropWhile p ++ b := by
  rw [List.dropWhile_append, if_neg (by simpa using h)]

end Stopped

/-- A character with which no word goes on, inside of strings apart. -/
def Separator (c : Char) : Prop := isWordPart c = false ∧ c ∉ ['=', '/', '.']

instance : DecidablePred Separator := fun c =>
  inferInstanceAs (Decidable (isWordPart c = false ∧ c ∉ ['=', '/', '.']))

theorem Separator.isDigit {c : Char} (h : Separator c) : isDigit c = false := by
  have hword := h.1
  rw [isWordPart, Bool.or_eq_false_iff] at hword
  exact hword.2

/-- A cut of a text that is longer at its end. -/
def extend (more : List Char) (c : Cut) : Cut := { c with rest := c.rest ++ more }

end Scan

/-- A piece ends where it does when a separator stands behind its text: it is no open string, and no
comment that the separator would go on with. -/
structure Cut.EndsAt (separator : Char) (k : Cut) : Prop where
  closed : k.piece ≠ .unterminated
  comment : k.piece = .skipped → ['/', '/'] <+: k.taken → separator = '\n' ∨ k.rest ≠ []

namespace Scan

variable (c : Char) (rest more : List Char)

theorem cutComment_taken (h : rest.head? = some '/') : ['/', '/'] <+: (cutComment rest).taken := by
  cases rest with
  | nil => cases h
  | cons d rest =>
    cases h
    simp [cutComment]

theorem cutString_append (h : (cutString rest).piece ≠ .unterminated) :
    cutString (rest ++ more) = extend more (cutString rest) := by
  have hstopped : rest.dropWhile (· != quote) ≠ [] := by
    intro hdrop
    simp [cutString, hdrop] at h
  simp only [cutString, takeWhile_append_stopped hstopped, dropWhile_append_stopped hstopped]
  cases hdrop : rest.dropWhile (· != quote) with
  | nil => exact absurd hdrop hstopped
  | cons close after => rfl

section Separated
variable {d : Char}

theorem cutComment_append (hstart : rest.head? = some '/') (h : (cutComment rest).EndsAt d) :
    cutComment (rest ++ d :: more) = extend (d :: more) (cutComment rest) := by
  simp only [cutComment, extend]
  obtain rfl | hrest := h.comment rfl (cutComment_taken rest hstart)
  · have hstop : ('\n' != '\n') = false := rfl
    rw [takeWhile_append_stop (p := (· != '\n')) hstop,
      dropWhile_append_stop (p := (· != '\n')) hstop]
  · rw [takeWhile_append_stopped hrest, dropWhile_append_stopped hrest]

variable (hd : Separator d)
include hd

theorem cutOperator_append (plain withEqual : Kind) :
    cutOperator c plain withEqual (rest ++ d :: more) =
      extend (d :: more) (cutOperator c plain withEqual rest) := by
  have hequal : d ≠ '=' := by
    rintro rfl
    exact hd.2 (by decide)
  cases rest with
  | nil => simp [cutOperator, extend, hequal]
  | cons e rest =>
    by_cases he : e = '='
    · subst he
      rfl
    · simp [cutOperator, extend, he]

theorem cutNumber_append :
    cutNumber c (rest ++ d :: more) = extend (d :: more) (cutNumber c rest) := by
  have hpoint : d ≠ '.' := by
    rintro rfl
    exact hd.2 (by decide)
  simp only [cutNumber, takeWhile_append_stop hd.isDigit, dropWhile_append_stop hd.isDigit]
  generalize rest.dropWhile isDigit = after
  rcases after with _ | ⟨point, after⟩
  · simp [extend, hpoint]
  by_cases hdot : point = '.'
  · subst hdot
    rcases after with _ | ⟨e, after⟩
    · simp [extend, hd.isDigit]
    · by_cases he : isDigit e <;>
        simp [extend, he, takeWhile_append_stop hd.isDigit, dropWhile_append_stop hd.isDigit]
  · simp [extend, hdot]

theorem cutWord_append : cutWord c (rest ++ d :: more) = extend (d :: more) (cutWord c rest) := by
  simp only [cutWord, extend, takeWhile_append_stop hd.1, dropWhile_append_stop hd.1]

/-- A piece stays as it is in front of a separator, if it ends there. -/
theorem cut_append (h : (cut c rest).EndsAt d) :
    cut c (rest ++ d :: more) = extend (d :: more) (cut c rest) := by
  have hslash : d ≠ '/' := by
    rintro rfl
    exact hd.2 (by decide)
  have hhead : (rest ++ d :: more).head? = some '/' ↔ rest.head? = some '/' := by
    cases rest with
    | nil => simp [hslash]
    | cons e rest => rfl
  revert h
  unfold cut
  simp only [hhead]
  split
  next hcomment => exact cutComment_append rest more hcomment.2
  cases hsingle : single? c with
  | some kind => exact fun _ => rfl
  | none =>
    cases hdouble : double? c with
    | some kinds => exact fun _ => cutOperator_append c rest more hd kinds.1 kinds.2
    | none =>
      simp only
      split
      · exact fun _ => rfl
      split
      · exact fun h => cutString_append rest _ h.closed
      split
      · exact fun _ => cutNumber_append c rest more hd
      split
      · exact fun _ => cutWord_append c rest more hd
      · exact fun _ => rfl

/-- A text is cut as before when a separator and more text follow, if all its pieces end there. -/
theorem cuts_append (a b : List Char) (h : ∀ k ∈ cuts a, k.EndsAt d) :
    cuts (a ++ d :: b) = (cuts a).map (extend (d :: b)) ++ cuts (d :: b) := by
  induction a using cuts.induct with
  | case1 => simp [cuts]
  | case2 c rest ih =>
    rw [cuts] at h
    obtain ⟨hfirst, hrest⟩ := List.forall_mem_cons.mp h
    have hcut := cut_append c rest b hd hfirst
    rw [List.cons_append, cuts, cuts, hcut, List.map_cons, List.cons_append, ← ih hrest]
    rfl

end Separated

theorem taken_append_rest : (cut c rest).taken ++ (cut c rest).rest = c :: rest := by
  have htake (p : Char → Bool) (cs : List Char) : cs.takeWhile p ++ cs.dropWhile p = cs :=
    List.takeWhile_append_dropWhile
  unfold cut
  split
  next h => simp [cutComment, htake, h.1]
  split
  · rfl
  split
  · unfold cutOperator
    split <;> rfl
  split
  · rfl
  split
  next h =>
    have hparts := htake (· != quote) rest
    simp only [cutString]
    split
    next hdrop => simp_all
    next close after hdrop => simp_all
  split
  next h =>
    simp only [cutNumber]
    split
    next d after hdrop => split <;> simp [htake, ← hdrop]
    · simp [htake]
  split
  · simp [cutWord, htake]
  · rfl

theorem after_moved (lines : Nat) (p : Position) (cs : List Char) :
    (p.moved lines).after cs = (p.after cs).moved lines := by
  induction cs generalizing p with
  | nil => rfl
  | cons c cs ih =>
    have hstep : (p.moved lines).step c = (p.step c).moved lines := by
      unfold Position.step Position.moved
      split
      · exact congrArg (Position.mk · 0) (Nat.add_right_comm _ _ _)
      · rfl
    calc (p.moved lines).after (c :: cs) = ((p.moved lines).step c).after cs := rfl
      _ = ((p.step c).after cs).moved lines := by rw [hstep, ih]

theorem line_after (p : Position) (cs : List Char) :
    (p.after cs).line = p.line + cs.count '\n' := by
  induction cs generalizing p with
  | nil => rfl
  | cons c cs ih =>
    have hafter : p.after (c :: cs) = (p.step c).after cs := rfl
    rw [hafter, ih, Position.step]
    split
    next h => simp only [h, List.count_cons_self]; omega
    next h => simp [h]

theorem after_append (p : Position) (a b : List Char) : p.after (a ++ b) = (p.after a).after b :=
  List.foldl_append

/-- What starts on a later line ends on a later line. -/
theorem collect_moved (lines : Nat) (p : Position) (cs : List Cut) :
    collect (p.moved lines) cs = ⟨(collect p cs).tokens.map (·.moved lines),
      (collect p cs).faults.map fun (line, fault) => (line + lines, fault)⟩ := by
  induction cs generalizing p with
  | nil => rfl
  | cons c cs ih =>
    rw [collect, collect, Outcome.add, Outcome.add, after_moved, ih]
    cases c.piece <;> rfl

/-- The pieces behind others start where the text of these ends. -/
theorem collect_append (cs ds : List Cut) (p : Position) :
    collect p (cs ++ ds) =
      ⟨(collect p cs).tokens.dropLast ++ (collect (p.after (cs.flatMap (·.taken))) ds).tokens,
        (collect p cs).faults ++ (collect (p.after (cs.flatMap (·.taken))) ds).faults⟩ := by
  induction cs generalizing p with
  | nil => rfl
  | cons c cs ih =>
    rw [List.cons_append, collect, ih, collect, Outcome.add, Outcome.add, List.flatMap_cons,
      after_append]
    cases c.piece with
    | token kind literal =>
      simp only [List.dropLast_cons_of_ne_nil (collect_ne_nil _ _), List.cons_append]
    | _ => rfl

/-- What stands behind the text of the pieces does not matter to what they are. -/
theorem collect_extend (more : List Char) (cs : List Cut) (p : Position) :
    collect p (cs.map (extend more)) = collect p cs := by
  induction cs generalizing p with
  | nil => rfl
  | cons c cs ih =>
    rw [List.map_cons, collect, collect, ← ih]
    rfl

theorem flatMap_extend (more : List Char) (cs : List Cut) :
    (cs.map (extend more)).flatMap (·.taken) = cs.flatMap (·.taken) := by
  rw [List.flatMap_map]
  rfl

theorem flatMap_cuts (text : List Char) : (cuts text).flatMap (·.taken) = text := by
  induction text using cuts.induct with
  | case1 =>
    rw [cuts]
    rfl
  | case2 c rest ih => rw [cuts, List.flatMap_cons, ih, taken_append_rest]

/-- The words and faults of a text, and behind them those of what follows it from a separator on. -/
theorem collect_cuts_append {d : Char} (hd : Separator d) (a b : List Char)
    (h : ∀ k ∈ cuts a, k.EndsAt d) (p : Position) :
    collect p (cuts (a ++ d :: b)) =
      ⟨(collect p (cuts a)).tokens.dropLast ++ (collect (p.after a) (cuts (d :: b))).tokens,
        (collect p (cuts a)).faults ++ (collect (p.after a) (cuts (d :: b))).faults⟩ := by
  rw [cuts_append hd a b h, collect_append, collect_extend, flatMap_extend, flatMap_cuts]

/-- A string without an end is a fault. -/
theorem mem_faults {cs : List Cut} {k : Cut} (hk : k ∈ cs) (hpiece : k.piece = .unterminated)
    (p : Position) : ∃ line, (line, .unterminated) ∈ (collect p cs).faults := by
  induction cs generalizing p with
  | nil => cases hk
  | cons c cs ih =>
    rw [collect, Outcome.add]
    obtain rfl | hlater := List.mem_cons.mp hk
    · rw [hpiece]
      exact ⟨_, List.mem_cons_self⟩
    · obtain ⟨line, hline⟩ := ih hlater (p.after c.taken)
      refine ⟨line, ?_⟩
      cases c.piece with
      | token kind literal => exact hline
      | skipped => exact hline
      | unexpected d => exact List.mem_cons_of_mem _ hline
      | unterminated => exact List.mem_cons_of_mem _ hline

theorem cut_newline (rest : List Char) : cut '\n' rest = ⟨.skipped, ['\n'], rest⟩ := rfl

end Scan

/-- Two texts joined at the end of a line, of which the first has no open string. -/
theorem scan_append {a : String} (b : String)
    (ha : ∀ fault ∈ (scan a).faults, fault.2 ≠ .unterminated) :
    scan (a ++ "\n" ++ b) =
      ⟨wordsOf a ++ (scan b).tokens.map (·.moved (lineCount a)), (scan a).faults ++
        (scan b).faults.map fun (line, fault) => (line + lineCount a, fault)⟩ := by
  have htext : (a ++ "\n" ++ b).toList = a.toList ++ '\n' :: b.toList := by
    rw [String.toList_append, String.toList_append, List.append_assoc]
    rfl
  have hends : ∀ k ∈ Scan.cuts a.toList, k.EndsAt '\n' := by
    intro k hk
    refine ⟨fun hpiece => ?_, fun _ _ => .inl rfl⟩
    obtain ⟨line, hline⟩ := Scan.mem_faults hk hpiece .start
    exact ha _ hline rfl
  have hline : (Position.start.after a.toList).after ['\n'] =
      Position.start.moved (lineCount a) := by
    have hcount := Scan.line_after .start a.toList
    change Position.mk ((Position.start.after a.toList).line + 1) 0 = _
    rw [hcount, Position.moved, Position.start, lineCount]
    simp only [Position.mk.injEq, and_true]
    omega
  have hbreak : Scan.collect (Position.start.after a.toList) (Scan.cuts ('\n' :: b.toList)) =
      Scan.collect (Position.start.moved (lineCount a)) (Scan.cuts b.toList) := by
    rw [Scan.cuts, Scan.cut_newline, Scan.collect, hline]
    rfl
  rw [scan, htext, Scan.collect_cuts_append (by decide) _ _ hends, hbreak, Scan.collect_moved]
  rfl

/-- The words of two texts, joined at the end of a line. -/
theorem scan_joined {a b : String} (ha : (scan a).faults = []) (hb : (scan b).faults = []) :
    wordsOf (a ++ "\n" ++ b) = wordsOf a ++ (wordsOf b).map (·.moved (lineCount a)) ∧
      (scan (a ++ "\n" ++ b)).faults = [] := by
  have hscan := scan_append b (a := a) (by simp [ha])
  refine ⟨?_, by rw [hscan, ha, hb]; rfl⟩
  rw [wordsOf, hscan, List.dropLast_append_of_ne_nil, ← List.map_dropLast]
  · rfl
  · exact mt List.map_eq_nil_iff.mp (Scan.collect_ne_nil _ _)

end LoxScript
