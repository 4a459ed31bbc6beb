import LoxScript.Proofs.Binding
import LoxScript.Proofs.Runs

/-!
Accepted sources do not fail from inside.

If no local variable is read in its own initializer, all that a run reads by its distance is there,
and all that it applies is an operator. What is left of the ways in which a run can end early are
the faults that the language has, calls that are nested too deeply, and one kind of remainder.
-/
namespace LoxScript

/-- The regime in which all that is read has been defined. -/
def Regime.definite : Regime where
  holds := Spot.Safe
  safe := True
  exact := False
  safe_of_exact h := h.elim
  safe_of_holds _ _ h := h
  exact_of_holds h := h.elim

/-- Sources one after another that are accepted, and in which no local variable is read in its own
initializer. -/
def Definite : List (String × String) → Prop :=
  AllAccepted fun i source => ∀ x : Spot, x.readsVariable → ¬ x.OwnReference i source

/-- Sources that a check finds definite, if nothing in them is nested deeper than `depth`. -/
theorem definite_of_check (depth : Nat) {sources : List (String × String)}
    (h : sources.zipIdx.all fun (entry, i) => decide (Accepted entry.1) &&
      Spot.checkProgram (Spot.ownFree depth) depth i entry.1) : Definite sources :=
  .of_check (fun _ _ hfree x _ => Spot.ownReference_free depth hfree x) h

namespace Session

/-- The ways in which the run of a source ends that does not fail from inside, after some
applications of operators: without a fault, with one fault that is reported, by calls that are
nested too deeply, by the remainder of an infinite number, or, if it does not end by itself, by an
interruption. -/
inductive Ends (applied : List Application) : EStateM.Result Escape Session Status → Prop
  | success {s : Session} (quiet : s.reporter.runtimeErrors = []) : Ends applied (.ok .success s)
  | fault {s : Session} {token : Token} {cause : Fault}
      (known : ∀ lexeme, cause ≠ .unknownOperator lexeme)
      (reported : s.reporter.runtimeErrors =
        [cause.message ++ "\n" ++ ("[line " ++ lineText (some token.line) ++ "]")]) :
      Ends applied (.ok .runtimeError s)
  | tooDeep {s : Session} : Ends applied (.error .tooDeep s)
  | infiniteRemainder {s : Session} {a : Application} (last : applied.head? = some a)
      (infinite : a.IsInfinite) :
      Ends applied (.error (.unknown "ValueError" "math domain error") s)
  | interrupted {s : Session} : Ends applied (.error .interrupted s)

end Session

theorem Reporter.reportRuntime_first (r : Reporter) (h : r.runtimeErrors = []) (token : Token)
    (message : String) :
    (r.reportRuntime (some token) message).hadRuntimeError ∧
      (r.reportRuntime (some token) message).runtimeErrors =
        [message ++ "\n" ++ ("[line " ++ lineText (some token.line) ++ "]")] := by
  have hwrite (r' : Reporter) (line : Option Nat) :
      (r'.writeLine line (some token)).hadRuntimeError = r'.hadRuntimeError ∧
        (r'.writeLine line (some token)).runtimeErrors = r'.runtimeErrors := by
    unfold writeLine
    split <;> exact ⟨rfl, rfl⟩
  simp only [reportRuntime, hwrite, write, h, List.nil_append, Option.map_some, and_self]

section
variable {t : Tracer} {s : Session} {source : String}

/-- A program that fits ends as it may. -/
theorem Session.run_ends (hlib : s.host.library.Plain) (hsource : Accepted source) (number : Nat)
    (hfits : ∀ x ∈ Spot.stmts [number] 0 [] (resolve (programOf source)).program,
      x.Throughout Spot.Safe)
    (hS : t.Stands .definite []) (hm : t.machine = s.machine) (path : String) :
    Ends (t.interpret s.host number (resolve (programOf source)).program).applied
      (run source path s) := by
  have herases := s.host.traceProgram_erases [number] 0 (resolve (programOf source)).program t
  obtain ⟨grown, hkeeps⟩ := s.host.traceProgram_sound hlib 0 _ hfits hS
  simp only [run_accepted hsource, interpret, Tracer.interpret, execProgram_opened, ← hm, herases]
  cases hrun : s.host.traceProgram [number] 0 (resolve (programOf source)).program t with
  | ok a u => exact .success rfl
  | error failure u =>
    simp only [Traced.Keeps, hrun] at hkeeps
    have hpermitted : failure.Permitted u.applied := hkeeps.2 trivial
    cases failure with
    | fault token cause =>
      have hreport := (s.opened source path).reporter.reportRuntime_first rfl token cause.message
      have hknown : ∀ lexeme, cause ≠ .unknownOperator lexeme := by
        rintro lexeme rfl
        exact hpermitted
      simp only [concluded, hreport.1, if_true]
      exact .fault hknown hreport.2
    | unbound name => exact hpermitted.elim
    | noFrame => exact hpermitted.elim
    | infiniteRemainder =>
      obtain ⟨a, hlast, hinfinite⟩ := hpermitted
      exact .infiniteRemainder hlast hinfinite
    | tooDeep => exact .tooDeep
    | endless => exact .interrupted

end

/-- No failure from inside escapes from the runs of accepted sources: in every session, each of
them ends in one of the ways that the language has. -/
theorem accepted_run_ends (readings : Nat → Float) (depth turns : Nat) (reporter : Reporter)
    (sources : List (String × String)) (hsources : Definite sources) (i : Nat)
    (source path : String) (hi : sources[i]? = some (source, path)) :
    let host : Host := ⟨.standard readings, depth, turns⟩
    let session : Session := ⟨host, .start host.library.globals, reporter⟩
    let s := session.runAll (sources.take i)
    let before := (Tracer.start host.library.globals).interpretAll host 0
      (programsOf (sources.take i))
    let record := before.interpret host i (resolve (programOf source)).program
    record.machine = (s.after (Session.run source path)).machine ∧
      Session.Ends record.applied (Session.run source path s) := by
  intro host session s before record
  have hsafe (j : Nat) (other place : String) (hj : sources[j]? = some (other, place)) :
      ∀ x : Spot, x.In j other → x.Safe := by
    obtain ⟨haccepted, hown⟩ := hsources j other place hj
    exact fun x hx => hx.safe haccepted hown
  have hstart : (Tracer.start host.library.globals).Stands .definite [] :=
    Tracer.start_stands fun _ _ => Library.isData_globals
  have hstands : before.Stands .definite [] := by
    refine Tracer.programsOf_stands (Library.standard_plain readings) (fun j other place hj => ?_) hstart
    rw [List.getElem?_take] at hj
    split at hj
    · exact hsafe j other place hj
    · cases hj
  have haccepted : ∀ entry ∈ sources.take i, Accepted entry.1 :=
    fun entry hentry => hsources.accepted entry (List.mem_of_mem_take hentry)
  obtain ⟨hmachine, hhost⟩ : before.machine = s.machine ∧ s.host = host :=
    Tracer.interpretAll_run (s := session) haccepted rfl 0
  have hsource : Accepted source := (hsources i source path hi).1
  have hlib : s.host.library.Plain := hhost ▸ Library.standard_plain readings
  have hfits : ∀ x ∈ Spot.stmts [i] 0 [] (resolve (programOf source)).program,
      x.Throughout Spot.Safe := fun x hx y hy => hsafe i source path hi y ⟨x, hx, hy⟩
  have hrecord := (Tracer.interpret_run hsource hmachine i path).1
  have hends := Session.run_ends hlib hsource i hfits hstands hmachine path
  rw [hhost] at hrecord hends
  exact ⟨hrecord, hends⟩

/-- After a program with a closure that writes a local variable and one that reads it, a program
with a fault. -/
theorem accepted_run_ends_closures :
    let first := "\x7b var a = nil; fun f(b) \x7b a = b; return fun () \x7b return a; \x7d; \x7d " ++
      "print f(true)(); \x7d"
    let second := "print b;"
    let host : Host := ⟨.standard Nat.toFloat, callDepth, loopTurns⟩
    let session : Session := ⟨host, .start host.library.globals, .start false false⟩
    let s := session.runAll [(first, "1")]
    let before := (Tracer.start host.library.globals).interpretAll host 0 (programsOf [(first, "1")])
    let record := before.interpret host 1 (resolve (programOf second)).program
    Definite [(first, "1"), (second, "2")] ∧
      record.machine = (s.after (Session.run second "2")).machine ∧
      Session.Ends record.applied (Session.run second "2" s) := by
  intro first second host session s before record
  have hdefinite : Definite [(first, "1"), (second, "2")] := definite_of_check 12 (by decide +kernel)
  exact ⟨hdefinite, accepted_run_ends Nat.toFloat callDepth loopTurns (.start false false) _ hdefinite 1
    second "2" rfl⟩

end LoxScript
