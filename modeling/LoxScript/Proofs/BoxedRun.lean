import LoxScript.Proofs.PaddedRun
import LoxScript.Proofs.Reshaping
import LoxScript.Proofs.Sexps

/-!
Running a program with blocks of their own for some of its statements.

A session that has run some sources is in step with itself. From there the program and the one with
the blocks are executed in step, also where a function that was made in such a block is called long
after the block was left, so the same is seen of the two runs.
-/
namespace LoxScript

/-- All names are known, and scopes may be added anywhere. -/
def Padding.boxing : Padding where
  known _ := True
  roomy := True
  globals := Bindings.Alike Eq
  get? h _ := h.get? (by grind) rfl
  set h _ hv := h.set (by grind) rfl hv
  mono h hr := h.mono hr

theorem Value.Padded.of_isData {P : Padding} {w : Overlay P} (hknown : ∀ name, P.known name)
    {v : Value} (h : v.isData) : v.Padded w v := by
  cases v with
  | native n => exact .native (hknown n.name)
  | function f | klass c | object o => cases h
  | _ => exact .constant rfl

theorem Padding.boxing_serves {library : Library} (hlib : library.Steady) :
    Padding.boxing.Serves library library := by
  intro w n calls vs vs' _ _ _
  cases hn : library.get? n.name with
  | none => exact .constant rfl
  | some b =>
    obtain ⟨hdata, heq⟩ := hlib n.name b calls vs vs' hn
    simp only [Option.map_some, Option.getD_some, heq]
    exact .of_isData (fun _ => trivial) hdata

namespace Session

/-- A program with blocks of their own for the statements at some places, as far as they are no
declarations. -/
def boxed (chosen : Path → Bool) (source : String) : List RawStmt :=
  Stmt.reshapedAll ⟨chosen, fun _ => false⟩ [] 0 (programOf source)

/-- A session is in step with itself, whatever it has run. -/
theorem runAll_boxing (readings : Nat → Float) (depth turns : Nat) (reporter : Reporter)
    (earlier : List (String × String)) :
    let host : Host := ⟨.standard readings, depth, turns⟩
    let s := (⟨host, .start host.library.globals, reporter⟩ : Session).runAll earlier
    s.InStep .boxing s := by
  intro host s
  have hserves := Padding.boxing_serves (Library.standard_steady readings)
  have hglobals : Padding.boxing.globals (Value.Padded (P := .boxing)
      ⟨.start host.library.globals, .start host.library.globals, id⟩) host.library.globals
      host.library.globals :=
    List.forall₂_same.mpr fun entry hentry =>
      ⟨rfl, .of_isData (fun _ => trivial) (Library.data_globals entry hentry)⟩
  have hstart : (⟨host, .start host.library.globals, reporter⟩ : Session).InStep .boxing
      ⟨host, .start host.library.globals, reporter⟩ :=
    ⟨rfl, rfl, hserves, rfl, id, Overlay.start_stands hglobals⟩
  exact runAll_inStep (fun _ _ h => h.padded_self fun _ _ _ => trivial) hstart

/-- Two sessions of which the same can be seen. -/
structure LooksAlike (s s' : Session) : Prop where
  output : s'.machine.output = s.machine.output
  reporter : s'.reporter = s.reporter
  globals : s'.shownGlobals = s.shownGlobals

theorem InStep.looksAlike {s s' : Session} (h : s.InStep .boxing s') : s.LooksAlike s' := by
  obtain ⟨place, hS⟩ := h.machines
  exact ⟨h.output, h.reporter, Bindings.Alike.shown_eq Value.Padded.display hS.sound.globals⟩

/-- A program that is padded by another one is run in step with it. -/
theorem run_padded {s : Session} {source : String} {program : List RawStmt} (hsource : Accepted source)
    (hclean : (resolve program).diagnostics = [])
    (hpadded : Stmt.AllPadded .boxing [.both] (resolve (programOf source)).program
      (resolve program).program) (hself : s.InStep .boxing s) (path : String) :
    EndsInStep .boxing (run source path s) (runProgram program (s.opened source path)) := by
  have hprogram : runProgram program (s.opened source path) =
      concluded (interpret (resolve program).program (s.opened source path)) :=
    runProgram_clean hclean rfl
  rw [run_accepted hsource, hprogram]
  exact (interpret_inStep hpadded (hself.opened source path)).concluded

/-- Blocks of their own for some statements are no static errors, and whatever a session has run
before, the program ends with them as it does without them and shows the same: for all limits on
the depth of calls and on the turns of loops, so it also ends if and only if it does without. -/
theorem run_boxed (readings : Nat → Float) (depth turns : Nat) (reporter : Reporter)
    (earlier : List (String × String)) (source path : String) (chosen : Path → Bool)
    (hsource : Accepted source) :
    let host : Host := ⟨.standard readings, depth, turns⟩
    let s := (⟨host, .start host.library.globals, reporter⟩ : Session).runAll earlier
    let s' := s.opened source path
    let boxedRun := runProgram (boxed chosen source)
    (resolve (boxed chosen source)).diagnostics = [] ∧
      s'.ending boxedRun = s.ending (run source path) ∧
      (s.after (run source path)).LooksAlike (s'.after boxedRun) := by
  intro host s s' boxedRun
  obtain ⟨hclean, hpadded⟩ := hsource.reshaped (P := .boxing) ⟨chosen, fun _ => false⟩
    (fun _ _ _ => trivial) ⟨fun _ => trivial, nofun⟩
  have hself : s.InStep .boxing s := runAll_boxing readings depth turns reporter earlier
  have hends := run_padded hsource hclean hpadded hself path
  exact ⟨hclean, hends.ending_eq, hends.after.looksAlike⟩

/-- A function that was made in a block of its own is called behind it, and changes a variable
around the block. -/
theorem run_boxed_closure :
    let source := "var f; var i = true; while (i) \x7b var t = \"a\"; " ++
      "if (i) f = fun () \x7b t = t + \"b\"; return t; \x7d; i = false; \x7d print f(); print f();"
    let other := "var f; var i = true; \x7b while (i) \x7b\x7b var t = \"a\"; " ++
      "\x7b if (i) \x7b f = fun () \x7b \x7b t = t + \"b\"; \x7d \x7b return t; \x7d \x7d; \x7d \x7d " ++
      "\x7b i = false; \x7d \x7d\x7d \x7d \x7b print f(); \x7d \x7b print f(); \x7d"
    let chosen : Path → Bool := fun _ => true
    let host : Host := ⟨.standard Nat.toFloat, callDepth, loopTurns⟩
    let s := (⟨host, .start host.library.globals, .start false false⟩ : Session).runAll []
    let s' := s.opened source "1"
    let boxedRun := runProgram (boxed chosen source)
    Accepted source ∧
      ((resolve (boxed chosen source)).diagnostics = [] ∧
        s'.ending boxedRun = s.ending (run source "1") ∧
        (s.after (run source "1")).LooksAlike (s'.after boxedRun)) ∧
      printProgram (boxed chosen source) = printProgram (programOf other) ∧
      (s'.after boxedRun).machine.output = ["abb\n", "ab\n"] := by
  intro source other chosen host s s' boxedRun
  have hsource : Accepted source := by decide +kernel
  refine ⟨hsource, run_boxed Nat.toFloat callDepth loopTurns _ [] source "1" chosen hsource, ?_, ?_⟩
  · exact printProgram_eq (by decide +kernel)
  · decide +kernel

end Session
end LoxScript
