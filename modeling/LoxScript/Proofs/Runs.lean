import LoxScript.Proofs.Accepted
import LoxScript.Proofs.History

/-!
Sessions that run accepted sources one after another.

An accepted source is resolved and executed, and nothing is reported before it runs. So what is
known of histories of programs is known of such sessions.
-/
namespace LoxScript

def programsOf (sources : List (String × String)) : List (List RawStmt) :=
  sources.map fun entry => programOf entry.1

/-- Sources one after another that are accepted, and of each of which something holds. -/
def AllAccepted (P : Nat → String → Prop) (sources : List (String × String)) : Prop :=
  ∀ i source path, sources[i]? = some (source, path) → Accepted source ∧ P i source

theorem AllAccepted.accepted {P : Nat → String → Prop} {sources : List (String × String)}
    (h : AllAccepted P sources) : ∀ entry ∈ sources, Accepted entry.1 := by
  intro entry hentry
  obtain ⟨i, hi⟩ := List.mem_iff_getElem?.mp hentry
  exact (h i entry.1 entry.2 hi).1

theorem AllAccepted.of_check {P : Nat → String → Prop} {sources : List (String × String)}
    {test : Nat → String → Bool} (htest : ∀ i source, test i source → P i source)
    (h : sources.zipIdx.all fun (entry, i) => decide (Accepted entry.1) && test i entry.1) :
    AllAccepted P sources := by
  intro i source path hi
  have hmem : ((source, path), i) ∈ sources.zipIdx := List.mem_zipIdx_iff_getElem?.mpr hi
  have hentry := List.all_eq_true.mp h _ hmem
  rw [Bool.and_eq_true, decide_eq_true_eq] at hentry
  exact ⟨hentry.1, htest i source hentry.2⟩

namespace Session

/-- Runs sources with their paths one after another, whatever becomes of each. -/
def runAll (s : Session) : List (String × String) → Session
  | [] => s
  | (source, path) :: rest => (s.after (run source path)).runAll rest

/-- A session that has read a source and found nothing wrong with it. -/
def opened (s : Session) (source path : String) : Session :=
  { s with reporter := s.reporter.reset.registerSource path source }

/-- A program is executed as it would be before its source was read. -/
theorem execProgram_opened (s : Session) (source path : String) (program : List ResolvedStmt) :
    (s.opened source path).host.execProgram program (s.opened source path).machine =
      s.host.execProgram program s.machine :=
  rfl

def concluded : EStateM.Result Escape Session Unit → EStateM.Result Escape Session Status
  | .ok _ s => .ok (if s.reporter.hadRuntimeError then .runtimeError else .success) s
  | .error e s => .error e s

/-- The part of a run behind the parser. -/
def runProgram (program : List RawStmt) : SessionM Status := do
  let resolution := resolve program
  report (·.reportAll resolution.diagnostics)
  if (← get).reporter.hadError then return .dataError
  interpret resolution.program
  if (← get).reporter.hadRuntimeError then return .runtimeError
  return .success

theorem run_eq (source path : String) :
    run source path = (do
      let program ← parse source path
      if (← get).reporter.hadError then return .dataError
      runProgram program) := rfl

theorem runProgram_clean {program : List RawStmt} (h : (resolve program).diagnostics = [])
    {s : Session} (hs : s.reporter.hadError = false) :
    runProgram program s = concluded (interpret (resolve program).program s) := by
  have hreport : report (·.reportAll (resolve program).diagnostics) s = .ok () s := by
    rw [h]
    rfl
  have hget : (get : SessionM Session) s = .ok s s := rfl
  simp only [runProgram, bind, EStateM.bind, hreport, hget, hs, Bool.false_eq_true, if_false]
  cases interpret (resolve program).program s with
  | ok a s' =>
    have hget : (get : SessionM Session) s' = .ok s' s' := rfl
    simp only [hget, concluded]
    cases s'.reporter.hadRuntimeError <;> rfl
  | error e s' => rfl

variable {source : String}

theorem run_accepted (h : Accepted source) (s : Session) (path : String) :
    run source path s =
      concluded (interpret (resolve (programOf source)).program (s.opened source path)) := by
  have hparse : parse source path s = .ok (programOf source) (s.opened source path) := by
    have hreport : parse source path s = .ok (programOf source) { s with
        reporter := ((s.reporter.reset.registerSource path source).reportAll
          (scan source).diagnostics).reportAll (LoxScript.parse (scan source).tokens).diagnostics } := rfl
    rw [hreport, h.scanned, h.parsed]
    rfl
  have hget : (get : SessionM Session) (s.opened source path) =
      .ok (s.opened source path) (s.opened source path) := rfl
  have hclean : (s.opened source path).reporter.hadError = false := rfl
  rw [run_eq, ← runProgram_clean h.resolved hclean]
  simp only [bind, EStateM.bind, hparse, hget, hclean, Bool.false_eq_true, if_false]

theorem after_run (h : Accepted source) (s : Session) (path : String) :
    s.after (run source path) =
      (s.opened source path).after (interpret (resolve (programOf source)).program) := by
  simp only [after, run_accepted h s path]
  cases interpret (resolve (programOf source)).program (s.opened source path) with
  | ok a s' => rfl
  | error e s' => rfl

end Session

namespace Tracer
variable {t : Tracer} {s : Session} {source : String}

theorem interpret_run (hsource : Accepted source) (hm : t.machine = s.machine) (number : Nat)
    (path : String) :
    (t.interpret s.host number (resolve (programOf source)).program).machine =
        (s.after (Session.run source path)).machine ∧
      (s.after (Session.run source path)).host = s.host := by
  have hopened : t.machine = (s.opened source path).machine := hm
  rw [Session.after_run hsource]
  exact interpret_machine hopened number (resolve (programOf source)).program

/-- Without its record, the traced history of accepted sources is what a session does with them. -/
theorem interpretAll_run {sources : List (String × String)}
    (hsources : ∀ entry ∈ sources, Accepted entry.1) (hm : t.machine = s.machine) (number : Nat) :
    (t.interpretAll s.host number (programsOf sources)).machine = (s.runAll sources).machine ∧
      (s.runAll sources).host = s.host := by
  induction sources generalizing t s number with
  | nil => exact ⟨hm, rfl⟩
  | cons entry rest ih =>
    obtain ⟨source, path⟩ := entry
    obtain ⟨hsource, hrest⟩ := List.forall_mem_cons.mp hsources
    obtain ⟨hmachine, hhost⟩ := interpret_run hsource hm number path
    have hnext := ih hrest hmachine (number + 1)
    rw [hhost] at hnext
    exact hnext

/-- Sources whose spots fit leave a machine on which the next one can run. -/
theorem programsOf_stands {R : Regime} {h : Host} {sources : List (String × String)}
    (hlib : h.library.Plain)
    (hfits : ∀ i source path, sources[i]? = some (source, path) →
      ∀ x : Spot, x.In i source → R.holds x)
    (hS : t.Stands R []) : (t.interpretAll h 0 (programsOf sources)).Stands R [] := by
  refine interpretAll_stands hlib 0 (fun i program hi x hx y hy => ?_) hS
  rw [programsOf, List.getElem?_map, Option.map_eq_some_iff] at hi
  obtain ⟨entry, hentry, rfl⟩ := hi
  rw [Nat.zero_add] at hx
  exact hfits i entry.1 entry.2 hentry y ⟨x, hx, hy⟩

end Tracer
end LoxScript
