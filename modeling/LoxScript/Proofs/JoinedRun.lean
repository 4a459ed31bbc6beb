import LoxScript.Proofs.MovedRun

/-!
Running in one go or in two.

A session that runs one source after another does what it does when it runs the two joined at the
end of a line. The second program is executed on the machine that the first one leaves, on other
lines; functions that were made before are the same on both sides, so the two executions are alike.
-/
namespace LoxScript

theorem Host.execProgram_append (h : Host) (ps qs : List ResolvedStmt) (m : Machine) :
    h.execProgram (ps ++ qs) m =
      match h.execProgram ps m with
      | .ok _ m' => h.execProgram qs m'
      | .error f m' => .error f m' := by
  induction ps generalizing m with
  | nil => rfl
  | cons p ps ih =>
    simp only [List.cons_append, Host.execProgram, bind, EStateM.bind]
    cases h.exec p m with
    | ok signal m' => exact ih m'
    | error f m' => rfl

namespace Session

/-- A source that is run with success leaves the machine on which its program ends. -/
theorem execProgram_of_success {s : Session} {source path : String} (h : Accepted source)
    (hrun : s.ending (run source path) = .ok .success) :
    ∃ m, s.host.execProgram (resolve (programOf source)).program s.machine = .ok () m ∧
      (s.after (run source path)).machine = m ∧ (s.after (run source path)).host = s.host := by
  have hfresh := s.fresh_opened source path
  simp only [ending, after, run_accepted h, interpret, execProgram_opened] at hrun ⊢
  generalize s.host.execProgram _ _ = x at hrun ⊢
  cases x with
  | ok a m => exact ⟨m, rfl, rfl, rfl⟩
  | error f m =>
    cases f with
    | fault t cause =>
      simp only [concluded_fault hfresh] at hrun
      cases hrun
    | _ => cases hrun

section Ends
variable {lines : Nat} {early late : Token → Prop} {s s' : Session}

theorem escape_eq {f g : Failure} (h : f.Alike (.moving lines early late) g)
    (hf : ∀ t cause, f ≠ .fault t cause) : g.escape = f.escape := by
  cases h with
  | fault _ => exact absurd rfl (hf _ _)
  | unbound name => rw [show _ = _ from name]
  | _ => rfl

/-- Runs that end alike end in the same way, and leave what shows the same. -/
theorem EndsAlike.same {s₁ s₂ : Session} {step step' : SessionM Status}
    (h : EndsAlike (.moving lines early late) s s' (step s₁) (step' s₂)) :
    s₂.ending step' = s₁.ending step ∧
      (s₂.after step').machine.output = (s₁.after step).machine.output ∧
      (s₂.after step').shownGlobals = (s₁.after step).shownGlobals := by
  simp only [ending, after]
  generalize step s₁ = x at h
  generalize step' s₂ = y at h
  cases h with
  | success sound => exact ⟨rfl, sound.output, sound.shown_eq⟩
  | fault sound token => exact ⟨rfl, sound.output, sound.shown_eq⟩
  | escape sound alike other =>
    exact ⟨congrArg Except.error (escape_eq alike other), sound.output, sound.shown_eq⟩

end Ends

/-- Running one source and then another is running the two joined at the end of a line: the second
program is executed on the machine that the first one leaves, with its tokens on later lines. -/
theorem run_joined (readings : Nat → Float) (depth turns : Nat) (machine : Machine)
    (reporter : Reporter) (a b first second path : String) (ha : Accepted a) (hb : Accepted b) :
    let s : Session := ⟨⟨.standard readings, depth, turns⟩, machine, reporter⟩
    let s₁ := s.after (run a first)
    let apart := s₁.after (run b second)
    let joined := s.after (run (a ++ "\n" ++ b) path)
    s.ending (run a first) = .ok .success →
      s.ending (run (a ++ "\n" ++ b) path) = s₁.ending (run b second) ∧
        joined.machine.output = apart.machine.output ∧
        joined.shownGlobals = apart.shownGlobals ∧
        s.failure? (a ++ "\n" ++ b) = s₁.failureMoved? (lineCount a) b ∧
        s₁.ReportsMoved b (lineCount a) apart.reporter.runtimeErrors
          joined.reporter.runtimeErrors := by
  intro s s₁ apart joined hrun
  obtain ⟨m, hexec, hmachine, hhost⟩ : ∃ m, s.host.execProgram (resolve (programOf a)).program
    s.machine = .ok () m ∧ s₁.machine = m ∧ s₁.host = s.host := execProgram_of_success ha hrun
  have hlib : s₁.host.library.Steady := hhost ▸ Library.standard_steady readings
  -- The program of the joined text does what that of `b` does on the machine after `a`.
  have hjoined : s.host.execProgram (resolve (programOf (a ++ "\n" ++ b))).program s.machine =
      s₁.host.execProgram (movedProgram (lineCount a) b) s₁.machine := by
    rw [(resolve_joined ha hb).2, Host.execProgram_append, hexec, hhost, hmachine]
    rfl
  have hfailure : s.failure? (a ++ "\n" ++ b) = s₁.failureMoved? (lineCount a) b :=
    congrArg Run.failureOf hjoined
  have hends : EndsAlike (.moving (lineCount a) s₁.machine.Mentions
      (· ∈ (wordsOf b).map (·.moved 0))) (s₁.opened b second) (s.opened (a ++ "\n" ++ b) path)
      (run b second s₁) (run (a ++ "\n" ++ b) path s) := by
    have hmatches := execProgram_moved hb hlib 0 (lineCount a)
    rw [movedProgram_zero, Nat.zero_add, ← hjoined] at hmatches
    rw [run_accepted hb, run_accepted (ha.joined hb)]
    exact interpret_alike (s₁.fresh_opened b second) (s.fresh_opened _ path) hmatches
  obtain ⟨hending, houtput, hglobals⟩ := hends.same
  refine ⟨hending, houtput, hglobals, hfailure, ?_⟩
  rw [runtimeErrors_run hb, runtimeErrors_run (ha.joined hb), hfailure]
  exact reports_moved hb hlib (lineCount a)

/-- The second source calls a function of the first, and then fails on its own second line. -/
theorem run_joined_undefined :
    let a := "var a = true;\nfun f() \x7b return a; \x7d"
    let b := "print f();\nprint b;"
    let s : Session := ⟨⟨.standard Nat.toFloat, callDepth, loopTurns⟩,
      .start (Library.standard Nat.toFloat).globals, .start false false⟩
    let s₁ := s.after (run a "1")
    let apart := s₁.after (run b "2")
    let joined := s.after (run (a ++ "\n" ++ b) "3")
    Accepted a ∧ Accepted b ∧ s.ending (run a "1") = .ok .success ∧
      (s.ending (run (a ++ "\n" ++ b) "3") = s₁.ending (run b "2") ∧
        joined.machine.output = apart.machine.output ∧
        joined.shownGlobals = apart.shownGlobals ∧
        s.failure? (a ++ "\n" ++ b) = s₁.failureMoved? (lineCount a) b ∧
        s₁.ReportsMoved b (lineCount a) apart.reporter.runtimeErrors
          joined.reporter.runtimeErrors) ∧
      apart.reporter.runtimeErrors = ["Undefined variable 'b'.\n[line 2]"] ∧
      joined.reporter.runtimeErrors = ["Undefined variable 'b'.\n[line 4]"] := by
  intro a b s s₁ apart joined
  have ha : Accepted a := by decide +kernel
  have hb : Accepted b := by decide +kernel
  have hrun : s.ending (run a "1") = .ok .success := by decide +kernel
  exact ⟨ha, hb, hrun, run_joined Nat.toFloat callDepth loopTurns _ _ a b "1" "2" "3" ha hb hrun,
    by decide +kernel, by decide +kernel⟩

end Session
end LoxScript
