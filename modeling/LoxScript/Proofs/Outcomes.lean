import LoxScript.Proofs.Runs
import LoxScript.Proofs.Safety
import LoxScript.Proofs.Simulation

/-!
How runs of programs that are alike end, as a session sees it.
-/
namespace LoxScript

variable {L : Likeness}

/-- Bindings of the same names to values that are displayed alike show the same. -/
theorem Bindings.Alike.shown_eq {related : Value → Value → Prop} {x y : Bindings Value}
    (hrelated : ∀ {v v'}, related v v' → v'.display = v.display) (h : Bindings.Alike Eq related x y) :
    (y.map fun entry => (entry.1, entry.2.display)) = x.map fun entry => (entry.1, entry.2.display) := by
  induction h with
  | nil => rfl
  | cons hhead _ ih =>
    obtain ⟨hname, hvalue⟩ := hhead
    rw [List.map_cons, List.map_cons, ih, hrelated hvalue, hname]

/-- The globals of machines alike have the same names and show the same values. -/
theorem Pairing.Sound.shown_eq {w : Pairing L} (h : w.Sound) :
    (w.right.globals.map fun entry => (entry.1, entry.2.display)) =
      w.left.globals.map fun entry => (entry.1, entry.2.display) := by
  have hframe := h.frames Environment.global.frame
  have hlabel : w.label Environment.global.frame = L.plain := (List.cons.inj h.root.here).1
  rw [hlabel] at hframe
  have hkept : Bindings.Alike Eq (Value.Alike w) w.left.globals w.right.globals :=
    hframe.imp fun _ _ hentry => ⟨(L.names_plain _ _).mp hentry.1, hentry.2⟩
  exact hkept.shown_eq Value.Alike.display

namespace Session

/-- The names and displayed values of the globals. -/
def shownGlobals (s : Session) : List (String × String) :=
  s.machine.globals.map fun entry => (entry.1, entry.2.display)

/-- How a step ends, without the state that it leaves. -/
def ending {α : Type} (s : Session) (step : SessionM α) : Except Escape α :=
  match step s with
  | .ok a _ => .ok a
  | .error e _ => .error e

/-- The ends of two runs of programs that are alike: both succeed, both report a fault, or the
same failure escapes from both. -/
inductive EndsAlike (L : Likeness) (s s' : Session) :
    EStateM.Result Escape Session Status → EStateM.Result Escape Session Status → Prop
  | success {w : Pairing L} (sound : w.Sound) :
      EndsAlike L s s' (.ok .success { s with machine := w.left })
        (.ok .success { s' with machine := w.right })
  | fault {w : Pairing L} {t u : Token} {cause : Fault} (sound : w.Sound) (token : L.tokens t u) :
      EndsAlike L s s'
        (.ok .runtimeError { s with
          machine := { w.left with environment := .global }
          reporter := s.reporter.reportRuntime (some t) cause.message })
        (.ok .runtimeError { s' with
          machine := { w.right with environment := .global }
          reporter := s'.reporter.reportRuntime (some u) cause.message })
  | escape {w : Pairing L} {f g : Failure} (sound : w.Sound) (alike : f.Alike L g)
      (other : ∀ t cause, f ≠ .fault t cause) :
      EndsAlike L s s' (.error f.escape { s with machine := w.left })
        (.error g.escape { s' with machine := w.right })

/-- A session whose reporter has nothing to report. -/
structure Fresh (s : Session) : Prop where
  hadRuntimeError : s.reporter.hadRuntimeError = false
  runtimeErrors : s.reporter.runtimeErrors = []

theorem fresh_opened (s : Session) (source path : String) : (s.opened source path).Fresh :=
  ⟨rfl, rfl⟩

variable {s s' : Session}

theorem concluded_fault (h : s.Fresh) (m : Machine) (t : Token) (message : String) :
    let s := { s with machine := m, reporter := s.reporter.reportRuntime (some t) message }
    concluded (.ok () s) = .ok .runtimeError s := by
  intro s
  have hreport : s.reporter.hadRuntimeError :=
    (Reporter.reportRuntime_first _ h.runtimeErrors t message).1
  rw [concluded, if_pos hreport]

theorem concluded_success (h : s.Fresh) (m : Machine) :
    concluded (.ok () { s with machine := m }) = .ok .success { s with machine := m } := by
  have hreport : ¬ s.reporter.hadRuntimeError := Bool.eq_false_iff.mp h.hadRuntimeError
  rw [concluded, if_neg hreport]

/-- Programs whose executions match end alike. -/
theorem interpret_alike {w : Pairing L} {p p' : List ResolvedStmt} (hs : s.Fresh) (hs' : s'.Fresh)
    {Q : Unit → Unit → Pairing L → Prop}
    (h : w.Ends Q (s.host.execProgram p s.machine) (s'.host.execProgram p' s'.machine)) :
    EndsAlike L s s' (concluded (interpret p s)) (concluded (interpret p' s')) := by
  simp only [interpret]
  generalize s.host.execProgram p s.machine = x at h
  generalize s'.host.execProgram p' s'.machine = y at h
  cases h with
  | ok leads holds =>
    simp only [concluded_success hs, concluded_success hs']
    exact .success leads.sound
  | error leads alike =>
    cases alike with
    | fault token =>
      simp only [concluded_fault hs, concluded_fault hs']
      exact .fault leads.sound token
    | unbound name => exact .escape leads.sound (.unbound name) fun _ _ h => by cases h
    | noFrame => exact .escape leads.sound .noFrame fun _ _ h => by cases h
    | infiniteRemainder => exact .escape leads.sound .infiniteRemainder fun _ _ h => by cases h
    | tooDeep => exact .escape leads.sound .tooDeep fun _ _ h => by cases h
    | endless => exact .escape leads.sound .endless fun _ _ h => by cases h

end Session
end LoxScript
