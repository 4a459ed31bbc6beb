import LoxScript.Proofs.Outcomes
import LoxScript.Proofs.Restoration

/-!
What a session has recorded, and what the status of a run says of it.

A reporter keeps two flags and two lists of what was reported since it was last reset. Whatever is
done with a session, each flag is up exactly if its list is not empty. The status with which a run
returns is that of the lists it leaves, and a run that is refused does nothing but report.
-/
namespace LoxScript

/-- What a reporter keeps of the reports since it was last reset. -/
structure Ledger where
  hadError : Bool
  hadRuntimeError : Bool
  errors : List String
  runtimeErrors : List String

namespace Ledger

def blank : Ledger := ⟨false, false, [], []⟩

def addErrors (l : Ledger) (texts : List String) : Ledger :=
  { l with hadError := l.hadError || !texts.isEmpty, errors := l.errors ++ texts }

def addRuntimeError (l : Ledger) (text : String) : Ledger :=
  { l with hadRuntimeError := true, runtimeErrors := l.runtimeErrors ++ [text] }

/-- The flags say whether the lists are empty. -/
structure Balanced (l : Ledger) : Prop where
  errors : l.hadError = true ↔ l.errors ≠ []
  runtimeErrors : l.hadRuntimeError = true ↔ l.runtimeErrors ≠ []

/-- A status is that of a run that left the lists like this. -/
structure Tells (l : Ledger) (status : Status) : Prop where
  dataError : status = .dataError ↔ l.errors ≠ []
  runtimeError : status = .runtimeError ↔ l.errors = [] ∧ ∃ text, l.runtimeErrors = [text]
  success : status = .success ↔ l.errors = [] ∧ l.runtimeErrors = []

variable {l : Ledger}

theorem blank_balanced : blank.Balanced := ⟨by decide, by decide⟩

theorem addErrors_addErrors (l : Ledger) (texts more : List String) :
    (l.addErrors texts).addErrors more = l.addErrors (texts ++ more) := by
  cases texts <;> simp [addErrors]

theorem Balanced.addErrors (h : l.Balanced) (texts : List String) : (l.addErrors texts).Balanced := by
  refine ⟨?_, h.runtimeErrors⟩
  have herrors := h.errors
  cases texts with
  | nil => simpa [Ledger.addErrors] using herrors
  | cons text texts => simp [Ledger.addErrors]

theorem Balanced.addRuntimeError (h : l.Balanced) (text : String) :
    (l.addRuntimeError text).Balanced :=
  ⟨h.errors, by simp [Ledger.addRuntimeError]⟩

theorem tells_dataError (h : l.errors ≠ []) : l.Tells .dataError := by
  constructor <;> simp [h]

theorem tells_runtimeError (text : String) : (blank.addRuntimeError text).Tells .runtimeError := by
  constructor <;> simp [blank, addRuntimeError]

theorem tells_success : blank.Tells .success := by
  constructor <;> simp [blank]

end Ledger

namespace Reporter

def ledger (r : Reporter) : Ledger := ⟨r.hadError, r.hadRuntimeError, r.errors, r.runtimeErrors⟩

variable (r : Reporter)

@[simp]
theorem ledger_write (text : String) : (r.write text).ledger = r.ledger := rfl

@[simp]
theorem ledger_writeLine (line : Option Nat) (token : Option Token) :
    (r.writeLine line token).ledger = r.ledger := by
  unfold writeLine
  split <;> rfl

theorem ledger_report (d : Diagnostic) : (r.report d).ledger = r.ledger.addErrors [d.plain] := by
  simp only [report, ledger_writeLine, ledger_write]
  simp only [ledger, Ledger.addErrors, List.isEmpty_cons, Bool.not_false, Bool.or_true]

theorem ledger_reportAll (ds : List Diagnostic) :
    (r.reportAll ds).ledger = r.ledger.addErrors (ds.map (·.plain)) := by
  induction ds generalizing r with
  | nil =>
    show r.ledger = _
    simp only [Ledger.addErrors, List.map_nil, List.isEmpty_nil, Bool.not_true, Bool.or_false,
      List.append_nil]
  | cons d ds ih =>
    show ((r.report d).reportAll ds).ledger = _
    rw [ih, ledger_report, Ledger.addErrors_addErrors, List.map_cons, List.singleton_append]

theorem ledger_reportRuntime (token : Token) (message : String) :
    (r.reportRuntime (some token) message).ledger = r.ledger.addRuntimeError
      (message ++ "\n" ++ ("[line " ++ lineText (some token.line) ++ "]")) := by
  simp only [reportRuntime, ledger_writeLine, ledger_write]
  rfl

theorem ledger_raise (message : String) (internal : Bool) :
    (r.raise message internal).1.ledger = r.ledger.addErrors [message] := by
  simp only [Ledger.addErrors, List.isEmpty_cons, Bool.not_false, Bool.or_true]
  rfl

variable {r}

theorem balanced_raise (h : r.ledger.Balanced) (message : String) (internal : Bool) :
    (r.raise message internal).1.ledger.Balanced := by
  rw [ledger_raise]
  exact h.addErrors _

theorem balanced_guard (h : r.ledger.Balanced) (e : Escape) : (r.guard e).1.ledger.Balanced := by
  cases e with
  | exit status => exact h
  | interrupted => exact balanced_raise h _ _
  | tooDeep => exact balanced_raise h _ _
  | language message => exact balanced_raise h _ _
  | unknown kind detail => exact balanced_raise h _ _

end Reporter

namespace Session

/-- A session that has read a source and reported what is wrong with it. -/
def refused (s : Session) (source path : String) (ds : List Diagnostic) : Session :=
  { s with reporter := (s.opened source path).reporter.reportAll ds }

variable {s : Session} {source path : String} {ds : List Diagnostic}

theorem ledger_refused (s : Session) (source path : String) (ds : List Diagnostic) :
    (s.refused source path ds).reporter.ledger = Ledger.blank.addErrors (ds.map (·.plain)) :=
  Reporter.ledger_reportAll _ ds

theorem errors_refused (h : ds ≠ []) : (s.refused source path ds).reporter.ledger.errors ≠ [] := by
  rw [ledger_refused]
  simpa [Ledger.addErrors, Ledger.blank] using h

theorem hadError_refused (h : ds ≠ []) : (s.refused source path ds).reporter.hadError = true := by
  have hbalanced := Ledger.blank_balanced.addErrors (ds.map (·.plain))
  rw [← ledger_refused s source path ds] at hbalanced
  exact hbalanced.errors.mpr (errors_refused h)

/-! ### Flags and lists -/

/-- The flags of a session's reporter say whether its lists are empty. -/
def Balanced (s : Session) : Prop := s.reporter.ledger.Balanced

theorem interpret_balanced (program : List ResolvedStmt) :
    Preserves Balanced (interpret program) := by
  intro s h
  simp only [after, interpret, Balanced]
  cases s.host.execProgram program s.machine with
  | ok a m => exact h
  | error failure m =>
    cases failure with
    | fault token cause =>
      dsimp only
      rw [Reporter.ledger_reportRuntime]
      exact h.addRuntimeError _
    | _ => exact h

theorem parse_eq (s : Session) (source path : String) :
    parse source path s = .ok (programOf source) (s.refused source path
      ((scan source).diagnostics ++ (LoxScript.parse (scan source).tokens).diagnostics)) := by
  rw [refused, Reporter.reportAll, List.foldl_append]
  rfl

/-- Nothing that can be done with a session brings its flags and lists apart. -/
theorem balanced_stable : Stable Balanced where
  parse source path s _ := by
    simp only [after, parse_eq, Balanced, ledger_refused]
    exact Ledger.blank_balanced.addErrors _
  resolve ds := by
    apply Preserves.report
    intro s h
    show (s.reporter.reportAll ds).ledger.Balanced
    rw [Reporter.ledger_reportAll]
    exact h.addErrors _
  interpret := interpret_balanced
  raise message internal _ h := Reporter.balanced_raise h message internal
  guard e _ h := Reporter.balanced_guard h e
  execute _ _ h := h
  evaluate _ _ h := h
  call _ _ _ h := h

/-! ### What a run can do -/

/-- The ends of a run: the source is refused, or its program succeeds, fails, or lets something
escape. -/
inductive Concludes (s : Session) (source path : String) :
    EStateM.Result Escape Session Status → Prop
  | refused {ds : List Diagnostic} (found : ds ≠ []) :
      Concludes s source path (.ok .dataError (s.refused source path ds))
  | success (m : Machine) :
      Concludes s source path (.ok .success { s.opened source path with machine := m })
  | fault (m : Machine) (token : Token) (message : String) :
      Concludes s source path (.ok .runtimeError { s.opened source path with
        machine := m
        reporter := (s.opened source path).reporter.reportRuntime (some token) message })
  | escape (e : Escape) (m : Machine) :
      Concludes s source path (.error e { s.opened source path with machine := m })

/-- What is found by the scanner and the parser keeps a program from being run. -/
theorem run_parsed (s : Session) (source path : String) :
    let found := (scan source).diagnostics ++ (LoxScript.parse (scan source).tokens).diagnostics
    run source path s =
      if found = [] then runProgram (programOf source) (s.opened source path)
      else .ok .dataError (s.refused source path found) := by
  intro found
  have hparse : parse source path s = .ok (programOf source) (s.refused source path found) :=
    parse_eq s source path
  have hget : (get : SessionM Session) (s.refused source path found) =
      .ok (s.refused source path found) (s.refused source path found) := rfl
  simp only [run_eq, bind, EStateM.bind, hparse, hget]
  by_cases h : found = []
  · rw [if_pos h, h]
    rfl
  · rw [if_neg h, if_pos (hadError_refused h)]
    rfl

/-- What is found by the resolver does so too. -/
theorem runProgram_refused {program : List RawStmt} (h : (resolve program).diagnostics ≠ [])
    (s : Session) (source path : String) :
    runProgram program (s.opened source path) =
      .ok .dataError (s.refused source path (resolve program).diagnostics) := by
  have hget : (get : SessionM Session) (s.refused source path (resolve program).diagnostics) =
      .ok (s.refused source path (resolve program).diagnostics)
        (s.refused source path (resolve program).diagnostics) := rfl
  have hreport : report (·.reportAll (resolve program).diagnostics) (s.opened source path) =
      .ok () (s.refused source path (resolve program).diagnostics) := rfl
  simp only [runProgram, bind, EStateM.bind, hreport, hget, hadError_refused h, if_true]
  rfl

/-- A source that is not accepted is refused by every session, for the same reasons. -/
theorem run_refused (h : ¬ Accepted source) :
    ∃ ds, ds ≠ [] ∧ ∀ s path, run source path s = .ok .dataError (s.refused source path ds) := by
  let found := (scan source).diagnostics ++ (LoxScript.parse (scan source).tokens).diagnostics
  by_cases hfound : found = []
  · obtain ⟨hscanned, hparsed⟩ := List.append_eq_nil_iff.mp hfound
    have hresolved : (resolve (programOf source)).diagnostics ≠ [] :=
      fun hresolved => h ⟨hscanned, hparsed, hresolved⟩
    refine ⟨_, hresolved, fun s path => ?_⟩
    rw [run_parsed, if_pos hfound, runProgram_refused hresolved]
  · refine ⟨found, hfound, fun s path => ?_⟩
    rw [run_parsed, if_neg hfound]

theorem run_concludes (s : Session) (source path : String) :
    Concludes s source path (run source path s) := by
  by_cases h : Accepted source
  · have hfresh := s.fresh_opened source path
    rw [run_accepted h, interpret, execProgram_opened]
    cases s.host.execProgram (resolve (programOf source)).program s.machine with
    | ok a m =>
      simp only [concluded_success hfresh]
      exact .success m
    | error failure m =>
      cases failure with
      | fault token cause =>
        simp only [concluded_fault hfresh]
        exact .fault _ token _
      | _ => exact .escape _ m
  · obtain ⟨ds, hfound, hrun⟩ := run_refused h
    rw [hrun]
    exact .refused hfound

/-- What a status that is returned says: it is that of the lists, and a source that was refused has
left the machine alone. -/
structure Returns (before : Session) (status : Status) (s : Session) : Prop where
  tells : s.reporter.ledger.Tells status
  untouched : status = .dataError → s.machine = before.machine

theorem run_returns {status : Status} {s' : Session} (h : run source path s = .ok status s') :
    s.Returns status s' := by
  have hconcludes := s.run_concludes source path
  rw [h] at hconcludes
  cases hconcludes with
  | refused found => exact ⟨Ledger.tells_dataError (errors_refused found), fun _ => rfl⟩
  | success m => exact ⟨Ledger.tells_success, nofun⟩
  | fault m token message =>
    refine ⟨?_, nofun⟩
    rw [Reporter.ledger_reportRuntime]
    exact Ledger.tells_runtimeError _

/-! ### Statuses of what is done with a session -/

/-- Does what an act says, and gives the status if that is a run which returns. -/
def Act.outcome : Act → SessionM (Option Status)
  | .run source path => some <$> Session.run source path
  | .runFile files path => some <$> Session.runFile files path
  | .guarded a => Option.join <$> Session.guarded a.outcome
  | a => do
    a.perform
    return none

section
variable {α β : Type} {step : SessionM α} {s' : Session}

theorem of_bind {k : α → SessionM β} {b : β} (h : (step >>= k) s = .ok b s') :
    ∃ a u, step s = .ok a u ∧ k a u = .ok b s' := by
  simp only [bind, EStateM.bind] at h
  cases hstep : step s with
  | ok a u =>
    rw [hstep] at h
    exact ⟨a, u, rfl, h⟩
  | error e u =>
    rw [hstep] at h
    cases h

theorem of_map {f : α → β} {b : β} (h : (f <$> step) s = .ok b s') :
    ∃ a, step s = .ok a s' ∧ f a = b := by
  simp only [Functor.map, EStateM.map] at h
  cases hstep : step s with
  | ok a u =>
    rw [hstep] at h
    cases h
    exact ⟨a, rfl, rfl⟩
  | error e u =>
    rw [hstep] at h
    cases h

/-- A guarded step that has a result has not been interrupted. -/
theorem of_guarded {a : α} (h : guarded step s = .ok (some a) s') : step s = .ok a s' := by
  simp only [guarded] at h
  cases hstep : step s with
  | ok b u =>
    rw [hstep] at h
    cases h
    rfl
  | error e u =>
    rw [hstep] at h
    dsimp only at h
    split at h <;> cases h

theorem of_raise {message : String} {internal : Bool} (h : raise message internal s = .ok () s') :
    s' = { s with reporter := (s.reporter.raise message internal).1 } := by
  rw [raise_eq] at h
  cases hended : (s.reporter.raise message internal).2 with
  | some e =>
    rw [hended] at h
    cases h
  | none =>
    rw [hended] at h
    cases h
    rfl

theorem discard_map (f : α → β) (step : SessionM α) : discard (f <$> step) = discard step := by
  funext s
  simp only [Functor.discard, Functor.mapConst, Functor.map, EStateM.map, Function.comp_def]
  cases step s <;> rfl

theorem discard_return (step : SessionM Unit) (a : α) : discard (do step; return a) = step := by
  funext s
  simp only [Functor.discard, Functor.mapConst, EStateM.map, Function.comp_def, bind, EStateM.bind]
  cases step s <;> rfl

/-- The guard does not look at results. -/
theorem discard_guarded (step : SessionM α) :
    discard (guarded (discard step)) = discard (guarded step) := by
  funext s
  simp only [Functor.discard, Functor.mapConst, EStateM.map, Function.comp_def, guarded]
  cases step s with
  | ok a u => rfl
  | error e u =>
    dsimp only
    cases (u.reporter.guard e).2 <;> rfl

theorem of_ending {a : α} (h : s.ending step = .ok a) : step s = .ok a (s.after step) := by
  simp only [ending, after] at h ⊢
  cases hstep : step s with
  | ok b u =>
    rw [hstep] at h
    cases h
    rfl
  | error e u =>
    rw [hstep] at h
    cases h

theorem after_discard (step : SessionM α) (s : Session) : s.after (discard step) = s.after step := by
  simp only [after, Functor.discard, Functor.mapConst, EStateM.map, Function.comp_def]
  cases step s <;> rfl

end

/-- Asking for the status changes nothing. -/
theorem Act.perform_eq (a : Act) : a.perform = discard a.outcome := by
  induction a with
  | run source path => rw [outcome, perform, discard_map]
  | runFile files path => rw [outcome, perform, discard_map]
  | guarded a ih => rw [outcome, perform, discard_map, ih, discard_guarded]
  | _ => exact (discard_return _ _).symm

theorem readSource_returns {files : Files} {found : Option String} {s' : Session}
    (h : readSource files path s = .ok found s') :
    s'.machine = s.machine ∧ (found = none → s'.reporter.ledger.errors ≠ []) := by
  unfold readSource at h
  cases hfile : files path with
  | refused =>
    rw [hfile] at h
    obtain ⟨⟨⟩, u, hraise, hreturn⟩ := of_bind h
    cases hreturn
    rw [of_raise hraise]
    refine ⟨rfl, fun _ => ?_⟩
    rw [Reporter.ledger_raise]
    simp [Ledger.addErrors]
  | badPath =>
    rw [hfile] at h
    cases h
  | content bytes =>
    rw [hfile] at h
    dsimp only at h
    cases htext : readText bytes with
    | ok text =>
      rw [htext] at h
      cases h
      exact ⟨rfl, nofun⟩
    | error e =>
      rw [htext] at h
      cases h

theorem runFile_returns {files : Files} {status : Status} {s' : Session}
    (h : runFile files path s = .ok status s') : s.Returns status s' := by
  obtain ⟨found, u, hread, hrest⟩ := of_bind h
  obtain ⟨hmachine, hnone⟩ := readSource_returns hread
  cases found with
  | none =>
    cases hrest
    exact ⟨Ledger.tells_dataError (hnone rfl), fun _ => hmachine⟩
  | some source =>
    have hrun := run_returns hrest
    exact ⟨hrun.tells, fun hstatus => (hrun.untouched hstatus).trans hmachine⟩

theorem Act.outcome_returns (a : Act) {status : Status} {s s' : Session}
    (h : a.outcome s = .ok (some status) s') : s.Returns status s' := by
  induction a with
  | run source path =>
    obtain ⟨found, hrun, hstatus⟩ := of_map h
    cases hstatus
    exact run_returns hrun
  | runFile files path =>
    obtain ⟨found, hrun, hstatus⟩ := of_map h
    cases hstatus
    exact runFile_returns hrun
  | guarded a ih =>
    obtain ⟨found, hguarded, hstatus⟩ := of_map h
    obtain ⟨hfound⟩ := Option.join_eq_some_iff.mp hstatus
    exact ih (of_guarded hguarded)
  | _ =>
    obtain ⟨_, _, _, hreturn⟩ := of_bind h
    cases hreturn

/-- Sessions of which nothing differs but what their reporters have written. -/
structure SameRecord (s s' : Session) : Prop where
  machine : s'.machine = s.machine
  ledger : s'.reporter.ledger = s.reporter.ledger

/-- What was reported before a run does not matter to it. -/
theorem run_forgets (s : Session) (source path : String) (earlier : Reporter) :
    let s' := { s with reporter := earlier }
    s'.ending (run source path) = s.ending (run source path) ∧
      SameRecord (s.after (run source path)) (s'.after (run source path)) := by
  intro s'
  by_cases h : Accepted source
  · have hfresh := s.fresh_opened source path
    have hfresh' := s'.fresh_opened source path
    have hexec : s'.host.execProgram (resolve (programOf source)).program s'.machine =
        s.host.execProgram (resolve (programOf source)).program s.machine := rfl
    simp only [ending, after, run_accepted h, interpret, execProgram_opened, hexec]
    cases s.host.execProgram (resolve (programOf source)).program s.machine with
    | ok a m =>
      simp only [concluded_success hfresh, concluded_success hfresh']
      exact ⟨trivial, rfl, rfl⟩
    | error failure m =>
      cases failure with
      | fault token cause =>
        simp only [concluded_fault hfresh, concluded_fault hfresh']
        refine ⟨trivial, rfl, ?_⟩
        rw [Reporter.ledger_reportRuntime, Reporter.ledger_reportRuntime]
        rfl
      | _ => exact ⟨rfl, rfl, rfl⟩
  · obtain ⟨ds, hfound, hrun⟩ := run_refused h
    simp only [ending, after, hrun]
    refine ⟨trivial, rfl, ?_⟩
    rw [ledger_refused, ledger_refused]

end Session

/-- Whatever was done with a session, and whether its reporter is fatal: its flags say whether its
lists are empty; a run that returns, guarded or not, does so with the status of the lists it leaves,
and if it was refused it has left the machine alone; and what was reported earlier does not matter
to a run. -/
theorem session_bookkeeping (host : Host) (machine : Machine) (fatal colored : Bool)
    (acts : List Session.Act) :
    let s := (⟨host, machine, .start fatal colored⟩ : Session).afterAll acts
    s.reporter.ledger.Balanced ∧
      (∀ (a : Session.Act) (status : Status) (s' : Session), a.outcome s = .ok (some status) s' →
        s' = s.after a.perform ∧ s.Returns status s') ∧
      ∀ (source path : String) (earlier : Reporter),
        let s' := { s with reporter := earlier }
        s'.ending (Session.run source path) = s.ending (Session.run source path) ∧
          Session.SameRecord (s.after (Session.run source path))
            (s'.after (Session.run source path)) := by
  intro s
  refine ⟨?_, ?_, s.run_forgets⟩
  · have hstart : (⟨host, machine, .start fatal colored⟩ : Session).Balanced :=
      Ledger.blank_balanced
    exact Session.balanced_stable.afterAll hstart acts
  · intro a status s' h
    have hafter : s.after a.perform = s' := by
      rw [a.perform_eq, Session.after_discard]
      simp only [Session.after, h]
    exact ⟨hafter.symm, a.outcome_returns h⟩

/-- Behind a program that failed, and a file that could not be opened and whose report ended the
process, the guarded run of a source with a static error. -/
theorem session_bookkeeping_refused :
    let host : Host := ⟨.standard Nat.toFloat, callDepth, loopTurns⟩
    let acts : List Session.Act :=
      [.run "var a = true; print a; a();" "1", .guarded (.runFile (fun _ => .refused) "2")]
    let s := (⟨host, .start host.library.globals, .start true false⟩ : Session).afterAll acts
    let a : Session.Act := .guarded (.run "a = nil; print a" "3")
    s.reporter.errors = ["'2' could not be opened"] ∧
      s.reporter.runtimeErrors = ["Can only call functions and classes.\n[line 1]"] ∧
      s.reporter.ledger.Balanced ∧ s.Returns .dataError (s.after a.perform) ∧
      (s.after a.perform).reporter.errors = ["[line 1] Error at end: Expect ';' after value."] ∧
      (s.after a.perform).reporter.runtimeErrors = [] := by
  intro host acts s a
  have hending : s.ending a.outcome = .ok (some .dataError) := by decide +kernel
  have hreturn : a.outcome s = .ok (some .dataError) (s.after a.perform) := by
    rw [a.perform_eq, Session.after_discard]
    exact Session.of_ending hending
  obtain ⟨hbalanced, hreturns, -⟩ :=
    session_bookkeeping host (.start host.library.globals) true false acts
  exact ⟨by decide +kernel, by decide +kernel, hbalanced, (hreturns a _ _ hreturn).2,
    by decide +kernel, by decide +kernel⟩

end LoxScript
