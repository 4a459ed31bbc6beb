import LoxScript.Proofs.SourceLines

/-!
What is quoted below an error of a running program.

A reporter knows the lines of one source, the one that is run, and quotes the one with the number of
the token. If the token comes from another source this is the right line only if both sources have
the same line there, and nothing keeps a session from quoting a line that has nothing to do with the
error.
-/
namespace LoxScript

/-- A line that is quoted, and the offset of the mark under it. -/
structure Quotation where
  line : String
  mark : Option Nat
deriving DecidableEq

/-- The line is the right one, and if there is a mark it is where it belongs. -/
structure Quotation.Shows (q : Quotation) (line : String) (offset : Nat) : Prop where
  line : q.line = line
  mark : ∀ start ∈ q.mark, start = offset

namespace Reporter
variable (r : Reporter)

/-- What is quoted of a token. -/
def quotation? (t : Token) : Option Quotation :=
  (r.line? (some t.line)).map fun line => ⟨line, locate? line (some t)⟩

/-- A quotation as it is written, with a mark of some length. -/
def shown (length : Nat) (q : Quotation) : String :=
  match q.mark with
  | some start => r.quote q.line start length
  | none => "  " ++ q.line

theorem diagnose_eq (t : Token) :
    r.diagnose? (some t.line) (some t) = (r.quotation? t).map (r.shown t.lexeme.length) := by
  simp only [diagnose?, quotation?, Option.map_map]
  congr 1
  funext line
  simp only [Function.comp_apply, shown]
  cases locate? line (some t) <;> rfl

theorem written_writeLine (t : Token) :
    (r.writeLine (some t.line) (some t)).written =
      ((r.quotation? t).map fun q => r.shown t.lexeme.length q ++ "\n").toList ++ r.written := by
  simp only [writeLine, diagnose_eq]
  cases r.quotation? t <;> rfl

/-- An error is written with what is quoted of its token below. -/
theorem written_reportRuntime (t : Token) (message : String) :
    (r.reportRuntime (some t) message).written =
      ((r.quotation? t).map fun q => r.shown t.lexeme.length q ++ "\n").toList ++
        (r.alarm "runtime error: " ++ message ++ "\n" ++
          r.bold ("[line " ++ lineText (some t.line) ++ "]") ++ "\n") :: r.written :=
  written_writeLine _ t

end Reporter

/-- The lines of a source, as they are registered to be quoted. -/
def linesOf (source : String) : List String := (Text.lines source.toList).map .ofList

/-- The line of a token that stands between two texts. -/
def Token.lineIn (t : Token) (front back : List Char) : String :=
  .ofList (Text.lineTail front ++ t.lexeme.toList ++ Text.lineHead back)

/-- The offset in its line of a token with a text in front of it. -/
def offsetBehind (front : List Char) : Nat := (Text.lineTail front).length

/-- What a reporter that has registered one source quotes of a token that stands in another source,
or in the same. -/
structure Quotes (source : String) (found : Option Quotation) (t : Token) (origin : String)
    (front back : List Char) : Prop where
  /-- The token stands on the line behind those that end in front of it. -/
  stands : (linesOf origin)[Text.lineEnds front]? = some (t.lineIn front back)
  /-- The line with the number of the token is quoted, for which newlines alone count. -/
  line : found.map (·.line) = (linesOf source)[front.count '\n']?
  /-- Where these are the same lines, what is quoted is right if both sources have the same line
  there, or the registered one has none, and only then. -/
  right : Text.Plain front →
    ((∀ q ∈ found, q.Shows (t.lineIn front back) (offsetBehind front)) ↔
      ∀ line ∈ (linesOf source)[front.count '\n']?, line = t.lineIn front back)
  /-- So the token is shown in its line if it stands in the registered source. -/
  own : Text.Plain front → origin = source →
    found = some ⟨t.lineIn front back, some (offsetBehind front)⟩

section
variable {t : Token} {source origin : String} {front back : List Char}

/-- A word is found in its line at its column. -/
theorem locate_lineIn (hlexeme : t.lexeme.toList ≠ [])
    (hcolumn : t.column = some (offsetBehind front)) :
    locate? (t.lineIn front back) (some t) = some (offsetBehind front) := by
  have hstands : (((t.lineIn front back).toList.drop (offsetBehind front)).take
      t.lexeme.toList.length == t.lexeme.toList) = true := by
    simp [Token.lineIn, offsetBehind]
  simp only [locate?, bind, Option.bind, List.isEmpty_iff, if_neg hlexeme, hcolumn, Option.filter,
    hstands, if_true, Option.or]

namespace Token.StandsIn

section
variable (h : t.StandsIn origin front back) (hne : t.lexeme.toList ≠ [])
  (hinline : ∀ c ∈ t.lexeme.toList, Text.isLineEnd c = false)
include h hinline

theorem line_eq : t.line = front.count '\n' + 1 := by
  have hnewline : '\n' ∉ t.lexeme.toList := fun hmem => by
    simpa [Text.newline_isLineEnd] using hinline _ hmem
  rw [h.line, List.count_append, List.count_eq_zero.mpr hnewline, Nat.add_zero]

include hne

theorem getElem?_linesOf :
    (linesOf origin)[Text.lineEnds front]? = some (t.lineIn front back) := by
  have hhead : Text.lineHead (t.lexeme.toList ++ back) = t.lexeme.toList ++ Text.lineHead back :=
    List.takeWhile_append_of_pos (by simpa using hinline)
  have hback : Text.lineHead (t.lexeme.toList ++ back) ≠ [] := by
    rw [hhead]
    exact List.append_ne_nil_of_left_ne_nil hne _
  rw [linesOf, h.text, List.append_assoc, List.getElem?_map, Text.lines_append front hback, hhead,
    Token.lineIn, List.append_assoc]
  rfl

/-- What is quoted of a token that goes over no line end. -/
theorem quotes_inLine {r : Reporter} (hlines : r.lines = linesOf source) :
    Quotes source (r.quotation? t) t origin front back := by
  have hstands := h.getElem?_linesOf hne hinline
  have hfound : r.quotation? t = ((linesOf source)[front.count '\n']?).map fun line =>
      ⟨line, locate? line (some t)⟩ := by
    rw [← hlines, Reporter.quotation?, h.line_eq hinline]
    rfl
  have hmark (hplain : Text.Plain front) :
      locate? (t.lineIn front back) (some t) = some (offsetBehind front) := by
    apply locate_lineIn hne
    rw [h.column, hplain.tail_eq, offsetBehind]
  refine ⟨hstands, ?_, fun hplain => ?_, fun hplain hsource => ?_⟩
  · rw [hfound, Option.map_map]
    exact Option.map_id'
  · rw [hfound]
    cases (linesOf source)[front.count '\n']? with
    | none => simp
    | some line =>
      simp only [Option.map_some, Option.mem_some_iff, forall_eq']
      constructor
      · exact fun hshows => hshows.line
      · rintro rfl
        exact ⟨rfl, by simp [hmark hplain]⟩
  · subst hsource
    rw [hfound, ← hplain, hstands]
    exact congrArg (fun mark => some (Quotation.mk _ mark)) (hmark hplain)

end

theorem quotes {r : Reporter} (h : t.StandsIn origin front back) (hlexeme : t.IsLexeme)
    (hkind : t.kind ≠ .string) (hlines : r.lines = linesOf source) :
    Quotes source (r.quotation? t) t origin front back :=
  h.quotes_inLine hlexeme.ne_nil (hlexeme.inLine hkind) hlines

end Token.StandsIn
end

/-- Whatever a session has run before: the token at which a program fails that it runs is a word of
the source, or of an accepted one from before. Below the message is written what is quoted of it,
which is right in the cases that `Quotes` names, whatever source the token was read from. -/
theorem Session.run_quotes (readings : Nat → Float) (depth turns : Nat) (reporter : Reporter)
    (earlier : List (String × String)) (source path : String) :
    let host : Host := ⟨.standard readings, depth, turns⟩
    let s := (⟨host, .start host.library.globals, reporter⟩ : Session).runAll earlier
    let r := (s.opened source path).reporter
    ∀ s', run source path s = .ok .runtimeError s' →
      ∃ (t : Token) (cause : Fault), s.failure? source = some (.fault t cause) ∧
        t.ComesFrom ((source, path) :: earlier) ∧
        s'.reporter.written =
          ((r.quotation? t).map fun q => r.shown t.lexeme.length q ++ "\n").toList ++
            (r.alarm "runtime error: " ++ cause.message ++ "\n" ++
              r.bold ("[line " ++ lineText (some t.line) ++ "]") ++ "\n") :: s.reporter.written ∧
        ∀ origin, t ∈ wordsOf origin → (∃ front back, t.StandsIn origin front back) ∧
          ∀ front back, t.StandsIn origin front back →
            Quotes source (r.quotation? t) t origin front back := by
  intro host s r s' h
  obtain ⟨haccepted, t, cause, hfailure, hreporter⟩ := run_reports h
  have hcomes := failure_comesFrom readings depth turns reporter earlier source path haccepted t cause
    hfailure
  have ⟨_, _, _, _, hkind⟩ := hcomes
  refine ⟨t, cause, hfailure, hcomes, ?_, fun origin hword => ?_⟩
  · rw [hreporter]
    exact r.written_reportRuntime t cause.message
  · have hlexeme : t.IsLexeme := isLexeme_words origin t hword
    exact ⟨wordsOf_standIn origin t hword, fun _ _ hstands => hstands.quotes hlexeme hkind rfl⟩

/-- A token is shown in the source that is run, on its second line. -/
theorem Session.run_quotes_own :
    let earlier := [("var a = true;", "1")]
    let source := "print a;\nprint -nil;"
    let host : Host := ⟨.standard Nat.toFloat, callDepth, loopTurns⟩
    let s := (⟨host, .start host.library.globals, .start false false⟩ : Session).runAll earlier
    let r := (s.opened source "2").reporter
    let s' := s.after (run source "2")
    run source "2" s = .ok .runtimeError s' ∧
      (∃ (t : Token) (cause : Fault), s.failure? source = some (.fault t cause) ∧
        t.ComesFrom ((source, "2") :: earlier) ∧
        s'.reporter.written =
          ((r.quotation? t).map fun q => r.shown t.lexeme.length q ++ "\n").toList ++
            (r.alarm "runtime error: " ++ cause.message ++ "\n" ++
              r.bold ("[line " ++ lineText (some t.line) ++ "]") ++ "\n") :: s.reporter.written ∧
        ∀ origin, t ∈ wordsOf origin → (∃ front back, t.StandsIn origin front back) ∧
          ∀ front back, t.StandsIn origin front back →
            Quotes source (r.quotation? t) t origin front back) ∧
      s'.reporter.written = ["  print -nil;\n        ^\n",
        "runtime error: Operand must be a number.\n[line 2]\n"] := by
  intro earlier source host s r s'
  have hrun : run source "2" s = .ok .runtimeError s' := of_ending (by decide +kernel)
  exact ⟨hrun, run_quotes Nat.toFloat callDepth loopTurns _ earlier source "2" s' hrun, by decide +kernel⟩

/-- A function fails when a later source calls it: the line of the call is quoted, which is not the
line of the token. -/
theorem Session.call_quoted :
    let origin := "fun f() \x7b return -nil; \x7d"
    let source := "f();"
    let front := "fun f() \x7b return ".toList
    let back := "nil; \x7d".toList
    let t : Token := ⟨.minus, "-", .nil, 1, some 17⟩
    let host : Host := ⟨.standard Nat.toFloat, callDepth, loopTurns⟩
    let s := (⟨host, .start host.library.globals, .start false false⟩ : Session).runAll
      [(origin, "1")]
    let s' := s.after (run source "2")
    run source "2" s = .ok .runtimeError s' ∧
      s.failure? source = some (.fault t .numberOperand) ∧
      t ∈ wordsOf origin ∧ t.StandsIn origin front back ∧ t.lineIn front back = origin ∧
      (s.opened source "2").reporter.quotation? t = some ⟨source, none⟩ ∧
      ¬ (Quotation.mk source none).Shows (t.lineIn front back) (offsetBehind front) ∧
      s'.reporter.written = ["  f();\n",
        "runtime error: Operand must be a number.\n[line 1]\n"] := by
  intro origin source front back t host s s'
  have hrun : run source "2" s = .ok .runtimeError s' := of_ending (by decide +kernel)
  have hother : source ≠ t.lineIn front back := by decide +kernel
  refine ⟨hrun, by decide +kernel, by decide +kernel, ⟨?_, ?_, ?_⟩, ?_, ?_,
    fun hshows => hother hshows.line, ?_⟩
  all_goals decide +kernel

end LoxScript
