import LoxScript.Proofs.Conduct
import LoxScript.Proofs.Erasure
import LoxScript.Session

/-!
Programs that are run one after another on one machine, with and without a record.
-/
namespace LoxScript

namespace Session

/-- The state that a step leaves, however it ends. -/
def after {α : Type} (s : Session) (step : SessionM α) : Session :=
  match step s with
  | .ok _ s' => s'
  | .error _ s' => s'

/-- Resolves and executes programs one after another, whatever becomes of each. -/
def interpretAll (s : Session) : List (List RawStmt) → Session
  | [] => s
  | program :: rest => (s.after (interpret (resolve program).program)).interpretAll rest

end Session

namespace Tracer

/-- A machine with some globals, before its first program. -/
def start (globals : Bindings Value) : Tracer where
  machine := .start globals
  site := fun _ => none
  origin := fun _ => []
  visits := []
  applied := []

/-- The traced run of a program with a number. A fault leads back to the globals. -/
def interpret (t : Tracer) (h : Host) (number : Nat) (program : List ResolvedStmt) : Tracer :=
  match h.traceProgram [number] 0 program t with
  | .ok _ u => u
  | .error (.fault _ _) u => u.moved .global
  | .error _ u => u

def interpretAll (t : Tracer) (h : Host) (number : Nat) : List (List RawStmt) → Tracer
  | [] => t
  | program :: rest =>
    (t.interpret h number (resolve program).program).interpretAll h (number + 1) rest

theorem interpret_machine {t : Tracer} {s : Session} (hm : t.machine = s.machine) (number : Nat)
    (program : List ResolvedStmt) :
    (t.interpret s.host number program).machine = (s.after (Session.interpret program)).machine ∧
      (s.after (Session.interpret program)).host = s.host := by
  have herases := s.host.traceProgram_erases [number] 0 program t
  simp only [Session.after, Session.interpret, interpret, ← hm, herases]
  cases s.host.traceProgram [number] 0 program t with
  | ok a u => exact ⟨rfl, rfl⟩
  | error failure u => cases failure <;> exact ⟨rfl, rfl⟩

/-- Without its record, a traced history is the history. -/
theorem interpretAll_machine {t : Tracer} {s : Session} (hm : t.machine = s.machine) (number : Nat)
    (programs : List (List RawStmt)) :
    (t.interpretAll s.host number programs).machine = (s.interpretAll programs).machine := by
  induction programs generalizing t s number with
  | nil => exact hm
  | cons program rest ih =>
    obtain ⟨hmachine, hhost⟩ := interpret_machine hm number (resolve program).program
    rw [interpretAll, Session.interpretAll, ← hhost]
    exact ih (hhost.symm ▸ hmachine) (number + 1)

variable {R : Regime} {t : Tracer} {h : Host}

theorem Stands.moved_global (hS : t.Stands R []) : (t.moved .global).Stands R [] := by
  refine ⟨hS.sound.moved _, ?_⟩
  have hc := hS.covers
  generalize t.chain = chain at hc
  cases hc with
  | global allocated untagged => exact .global allocated untagged

theorem start_stands {globals : Bindings Value}
    (hdata : ∀ name v, globals.get? name = some v → v.isData) : (start globals).Stands R [] := by
  have hframes : (start globals).machine.store.frames = #[globals] := rfl
  refine ⟨⟨?_, fun a name v hv => .of_isData ?_, fun o name v hv => ?_, List.forall_mem_nil _⟩,
    .global (by simp [Moment.size, hframes]) rfl⟩
  · intro _ a site hsite
    cases hsite
  · simp only [Moment.frame, Store.frame, hframes] at hv
    by_cases ha : a = 0
    · subst ha
      exact hdata name v (by simpa using hv)
    · have hnone : #[globals][a]? = none := by simpa using ha
      rw [hnone] at hv
      cases hv
  · cases hv

/-- A program that fits leaves a machine on which the next one can run. -/
theorem interpret_stands (hlib : h.library.Plain) (number : Nat) {program : List ResolvedStmt}
    (hfits : ∀ x ∈ Spot.stmts [number] 0 [] program, x.Throughout R.holds) (hS : t.Stands R []) :
    (t.interpret h number program).Stands R [] := by
  obtain ⟨grown, hkeeps⟩ := h.traceProgram_sound hlib 0 program hfits hS
  simp only [interpret, Traced.Keeps] at hkeeps ⊢
  cases hrun : h.traceProgram [number] 0 program t with
  | ok a u =>
    rw [hrun] at hkeeps
    exact hkeeps.2
  | error failure u =>
    rw [hrun] at hkeeps
    have hu := hkeeps.1.stands_global hS
    cases failure with
    | fault token cause => exact hu.moved_global
    | _ => exact hu

theorem interpretAll_stands (hlib : h.library.Plain) (number : Nat) {programs : List (List RawStmt)}
    (hfits : ∀ i program, programs[i]? = some program →
      ∀ x ∈ Spot.stmts [number + i] 0 [] (resolve program).program, x.Throughout R.holds)
    (hS : t.Stands R []) : (t.interpretAll h number programs).Stands R [] := by
  induction programs generalizing t number with
  | nil => exact hS
  | cons program rest ih =>
    refine ih (number + 1) (fun i other hi => ?_)
      (interpret_stands hlib number (hfits 0 program rfl) hS)
    have hother := hfits (i + 1) other (by simpa using hi)
    rwa [show number + (i + 1) = number + 1 + i from by omega] at hother

end Tracer

theorem Library.standard_plain (readings : Nat → Float) : (Library.standard readings).Plain := by
  intro name b calls vs hb
  simp only [Library.standard, Bindings.get?] at hb
  split at hb
  · cases hb
    rfl
  · split at hb
    · cases hb
      rfl
    · cases hb

theorem Library.isData_globals {library : Library} {name : String} {v : Value}
    (h : library.globals.get? name = some v) : v.isData := by
  induction library with
  | nil => cases h
  | cons entry rest ih =>
    simp only [Library.globals, List.map_cons, Bindings.get?] at h
    split at h
    · cases h
      rfl
    · exact ih h

end LoxScript
