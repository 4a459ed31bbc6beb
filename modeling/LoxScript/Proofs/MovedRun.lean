import LoxScript.Proofs.JoinedProgram
import LoxScript.Proofs.Provenance

/-!
Running a program on other lines.

A program whose tokens are some lines further on does what it did, but for the tokens at which it
can fail. Functions that the machine held before keep theirs. So of a program that fails it can be
said whether it fails at a word of its source or in such a function: the token is moved with the
source, or it is not. This tells the two apart also where a word and a token of such a function are
the same, or stand on lines with the same number.
-/
namespace LoxScript

/-- The bodies of the functions that a value holds. -/
def Value.bodies : Value → List (List ResolvedStmt)
  | .function f => [f.body]
  | .klass c => c.methods.map (·.2.body)
  | .object o => o.owner.methods.map (·.2.body)
  | _ => []

/-- A value is bound to a variable or a field. -/
def Machine.Holds (m : Machine) (v : Value) : Prop :=
  (∃ a name, (name, v) ∈ m.store.frame a) ∨ ∃ o name, (name, v) ∈ m.store.fields o

/-- A token stands in a function that a machine holds. -/
def Machine.Mentions (m : Machine) (t : Token) : Prop :=
  ∃ v, m.Holds v ∧ ∃ body ∈ v.bodies, t ∈ Stmt.tokensAll body

section
variable {lines : Nat} {early late : Token → Prop}

/-- A pair of one machine with itself. -/
def Machine.paired (L : Likeness) (m : Machine) : Pairing L := ⟨m, m, fun _ => L.plain⟩

namespace Likeness.moving
variable {w : Pairing (moving lines early late)}

theorem labels (chain : List Address) : w.Labels chain (chain.map fun _ => ()) :=
  fun _ _ => List.map_congr_left fun _ _ => rfl

/-- A function is like itself, wherever its frame is. -/
theorem closure_self {f : Closure} (h : ∀ t ∈ Stmt.tokensAll f.body, early t) (between : List Unit) :
    f.Alike w between (f.environment.chain.map fun _ => ()) f where
  identity := rfl
  name := rfl
  environment := rfl
  isInitializer := rfl
  labels := labels _
  fits := trivial
  body := ⟨(), List.forall₂_same.mpr fun _ _ => rfl,
    Stmt.allAlike_self carries_early (allPlain _) f.body (Stmt.allWords_of_tokens f.body h)⟩

theorem class_self {c : Class}
    (h : ∀ body ∈ c.methods.map (·.2.body), ∀ t ∈ Stmt.tokensAll body, early t) :
    c.Alike w c where
  identity := rfl
  name := rfl
  methods := List.forall₂_same.mpr fun _ hentry =>
    ⟨rfl, _, closure_self (h _ (List.mem_map_of_mem hentry)) _⟩

theorem value_self {v : Value} (h : ∀ body ∈ v.bodies, ∀ t ∈ Stmt.tokensAll body, early t) :
    v.Alike w v := by
  cases v with
  | function f => exact .function (closure_self (h _ List.mem_cons_self) []) fun _ => rfl
  | klass c => exact .klass (class_self h)
  | object o => exact .object rfl (class_self h)
  | _ => exact .data rfl

/-- A machine is like itself if the tokens of its functions may stay where they are. -/
theorem machine_self (lines : Nat) (m : Machine) (late : Token → Prop) :
    (m.paired (moving lines m.Mentions late)).Stands (m.environment.chain.map fun _ => ()) := by
  have hheld {v : Value} (hv : m.Holds v) : v.Alike (m.paired (moving lines m.Mentions late)) v :=
    value_self fun body hbody t ht => ⟨v, hv, body, hbody, ht⟩
  refine ⟨⟨labels _, rfl, fun a => ?_, rfl, fun o p hp => ?_, rfl, rfl, rfl, rfl⟩, labels _⟩
  · exact List.forall₂_same.mpr fun x hx => ⟨rfl, hheld (.inl ⟨a, x.1, hx⟩)⟩
  · have hfields : m.store.fields p = m.store.fields o := by simp only [Store.fields, hp]
    simp only [Machine.paired, hfields]
    exact List.forall₂_same.mpr fun x hx => ⟨rfl, hheld (.inr ⟨o, x.1, hx⟩)⟩

end Likeness.moving
end

/-- The resolved program of a source, with its tokens some lines further on. -/
def movedProgram (lines : Nat) (source : String) : List ResolvedStmt :=
  Stmt.mapAll (·.moved lines) id (resolve (programOf source)).program

theorem movedProgram_zero (source : String) :
    movedProgram 0 source = (resolve (programOf source)).program :=
  Stmt.mapAll_id _

theorem movedProgram_add (lines more : Nat) (source : String) :
    movedProgram (lines + more) source =
      Stmt.mapAll (·.moved more) id (movedProgram lines source) := by
  simp only [movedProgram, Stmt.mapAll_mapAll, Function.comp_def, Token.moved_moved, id_eq]
  rfl

namespace Session

/-- How the program of a source fails, if it does, with its tokens some lines further on. -/
def failureMoved? (s : Session) (lines : Nat) (source : String) : Option Failure :=
  Run.failureOf (s.host.execProgram (movedProgram lines source) s.machine)

theorem failureMoved_zero (s : Session) (source : String) :
    s.failureMoved? 0 source = s.failure? source := by
  rw [failureMoved?, movedProgram_zero, failure?]

/-- The program of a source fails at a word of it, wherever its lines are. -/
structure FailsAtWord (s : Session) (source : String) (t : Token) (cause : Fault) : Prop where
  word : t ∈ wordsOf source
  moves : ∀ lines, s.failureMoved? lines source = some (.fault (t.moved lines) cause)

/-- The program of a source fails in a function that the machine of a session holds, wherever the
lines of the source are. -/
structure FailsAtHeld (s : Session) (source : String) (t : Token) (cause : Fault) : Prop where
  held : s.machine.Mentions t
  stays : ∀ lines, s.failureMoved? lines source = some (.fault t cause)

variable {s : Session} {source : String} {t : Token} {cause : Fault}

/-- A program fails in one of the two ways at most. -/
theorem FailsAtWord.not_held (h : s.FailsAtWord source t cause) {u : Token} {other : Fault} :
    ¬ s.FailsAtHeld source u other := by
  intro hheld
  have hsame (lines : Nat) : t.moved lines = u := by
    have hfailure := (h.moves lines).symm.trans (hheld.stays lines)
    simp only [Option.some.injEq, Failure.fault.injEq] at hfailure
    exact hfailure.1
  have hline : t.line + 0 = t.line + 1 :=
    congrArg Token.line ((hsame 0).trans (hsame 1).symm)
  omega

section
variable (hsource : Accepted source) (hlib : s.host.library.Steady)
include hsource hlib

/-- A program is executed as it is on other lines. -/
theorem execProgram_moved (lines more : Nat) :
    let L := Likeness.moving more s.machine.Mentions (· ∈ (wordsOf source).map (·.moved lines))
    (s.machine.paired L).Ends (fun _ _ _ => True)
      (s.host.execProgram (movedProgram lines source) s.machine)
      (s.host.execProgram (movedProgram (lines + more) source) s.machine) := by
  intro L
  have hwords : Stmt.AllWords (· ∈ (wordsOf source).map (·.moved lines))
      (fun t => t.kind = .identifier) (movedProgram lines source) :=
    (Stmt.allWords_map _).mpr (hsource.resolved_words fun _ ht => List.mem_map_of_mem ht)
  have halike (Γ : List Unit) : Stmt.AllAlike L Γ (movedProgram lines source)
      (Stmt.mapAll (·.moved more) id (movedProgram lines source)) :=
    Stmt.allAlike_map Likeness.moving.carries_late (Likeness.moving.allPlain Γ) _ hwords
  rw [movedProgram_add]
  exact s.host.execProgram_matches hlib (halike _) (Likeness.moving.machine_self more s.machine _)

/-- Moving a program further moves the token at which it fails, if it is one of the program. -/
theorem failure_moved {lines : Nat} (more : Nat)
    (h : s.failureMoved? lines source = some (.fault t cause)) :
    ∃ u, s.failureMoved? (lines + more) source = some (.fault u cause) ∧
      ((t ∈ (wordsOf source).map (·.moved lines) ∧ u = t.moved more) ∨
        (s.machine.Mentions t ∧ u = t)) := by
  obtain ⟨u, token, hu⟩ :=
    Failure.fault_alike (execProgram_moved hsource hlib lines more).failures h
  exact ⟨u, hu, token⟩

/-- A program that fails for some cause does so at a word of its source or in a function that was
there before. -/
theorem word_or_held (h : s.failure? source = some (.fault t cause)) :
    s.FailsAtWord source t cause ∨ s.FailsAtHeld source t cause := by
  have hstart : s.failureMoved? 0 source = some (.fault t cause) := s.failureMoved_zero source ▸ h
  -- Whether the token is another one on the next line decides for all lines.
  obtain ⟨u, hnext, hu⟩ := failure_moved hsource hlib 1 hstart
  have hlater (lines : Nat) : ∃ v, s.failureMoved? lines source = some (.fault v cause) ∧
      (u = t.moved 1 → v = t.moved lines) ∧ (u = t → v = t) := by
    cases lines with
    | zero => exact ⟨t, hstart, fun _ => rfl, fun _ => rfl⟩
    | succ more =>
      obtain ⟨v, hv, hfromStart⟩ := failure_moved hsource hlib (more + 1) hstart
      obtain ⟨v', hv', hfromNext⟩ := failure_moved hsource hlib more hnext
      rw [Nat.zero_add] at hv
      rw [Nat.zero_add, Nat.add_comm, hv, Option.some.injEq, Failure.fault.injEq] at hv'
      obtain rfl := hv'.1
      exact ⟨v, hv, Token.moved_or_kept (hfromStart.imp And.right And.right)
        (hfromNext.imp And.right And.right)⟩
  rcases hu with ⟨hword, hmoved⟩ | ⟨hheld, hkept⟩
  · refine .inl ⟨by simpa using hword, fun lines => ?_⟩
    obtain ⟨v, hv, hmoves, -⟩ := hlater lines
    exact hmoves hmoved ▸ hv
  · refine .inr ⟨hheld, fun lines => ?_⟩
    obtain ⟨v, hv, -, hstays⟩ := hlater lines
    exact hstays hkept ▸ hv

end

/-- What is reported of a fault at a token. -/
def reported (message : String) (t : Token) : String :=
  message ++ "\n" ++ ("[line " ++ lineText (some t.line) ++ "]")

/-- What a run reports of the way in which its program fails: what is no fault is not reported. -/
def reportsOf : Option Failure → List String
  | some (.fault t cause) => [reported cause.message t]
  | _ => []

theorem reportsOf_eq_nil {failure : Option Failure}
    (h : ∀ (t : Token) (cause : Fault), failure ≠ some (.fault t cause)) : reportsOf failure = [] := by
  unfold reportsOf
  split
  · exact absurd rfl (h _ _)
  · rfl

theorem reportsOf_alike {L : Likeness} {f g : Option Failure}
    (h : Option.Rel (Failure.Alike L) f g) (hf : reportsOf f = []) : reportsOf g = [] := by
  cases h with
  | none => rfl
  | some alike =>
    cases alike with
    | fault token => cases hf
    | _ => rfl

theorem runtimeErrors_run (h : Accepted source) (s : Session) (path : String) :
    (s.after (run source path)).reporter.runtimeErrors = reportsOf (s.failure? source) := by
  have hfresh := s.fresh_opened source path
  rw [after_run h, after, interpret, execProgram_opened, failure?]
  cases s.host.execProgram (resolve (programOf source)).program s.machine with
  | ok a m => rfl
  | error failure m =>
    cases failure with
    | fault t cause => exact (Reporter.reportRuntime_first _ hfresh.runtimeErrors t cause.message).2
    | _ => rfl

/-- What is reported of the program of a source, and of the program some lines further on: the line
of a word of the source is further on as well, and that of a token in a function that the machine
held before is not. -/
inductive ReportsMoved (s : Session) (source : String) (lines : Nat) :
    List String → List String → Prop
  | nothing (quiet : ∀ (t : Token) (cause : Fault), s.failure? source ≠ some (.fault t cause)) :
      ReportsMoved s source lines [] []
  | word {t : Token} {cause : Fault} (fails : s.FailsAtWord source t cause) :
      ReportsMoved s source lines [reported cause.message t]
        [reported cause.message (t.moved lines)]
  | held {t : Token} {cause : Fault} (fails : s.FailsAtHeld source t cause) :
      ReportsMoved s source lines [reported cause.message t] [reported cause.message t]

theorem reports_moved (hsource : Accepted source) (hlib : s.host.library.Steady) (lines : Nat) :
    s.ReportsMoved source lines (reportsOf (s.failure? source))
      (reportsOf (s.failureMoved? lines source)) := by
  by_cases h : ∃ (t : Token) (cause : Fault), s.failure? source = some (.fault t cause)
  · obtain ⟨t, cause, hfails⟩ := h
    rw [hfails]
    rcases word_or_held hsource hlib hfails with hword | hheld
    · rw [hword.moves lines]
      exact .word hword
    · rw [hheld.stays lines]
      exact .held hheld
  · have hquiet (t : Token) (cause : Fault) : s.failure? source ≠ some (.fault t cause) :=
      fun hfails => h ⟨t, cause, hfails⟩
    have hnone := reportsOf_eq_nil hquiet
    have hmoved : reportsOf (s.failureMoved? lines source) = [] := by
      have hfailures := (execProgram_moved hsource hlib 0 lines).failures
      rw [movedProgram_zero, Nat.zero_add] at hfailures
      exact reportsOf_alike hfailures hnone
    rw [hnone, hmoved]
    exact .nothing hquiet

end Session
end LoxScript
