import LoxScript.Proofs.BoxedRun

/-!
Running a program with the increments of some loops at the ends of their bodies.

The increment of a loop runs around the body, in the scope of the loop. At the end of the body it
runs in the block that the body has become, a scope farther in, once in each round that the body
did not cut short. Where the body has no `continue` of the loop, no other round would have run it.
-/
namespace LoxScript
namespace Session

/-- A program with the increments of the loops at some places at the ends of their bodies, as far as
the bodies have no `continue` of these loops. -/
def expanded (chosen : Path → Bool) (source : String) : List RawStmt :=
  Stmt.reshapedAll ⟨fun _ => false, chosen⟩ [] 0 (programOf source)

/-- A loop may be written out with its increment as the last statement of its body: that is no static
error, and whatever a session has run before, the program ends as it does otherwise and shows the
same, for all limits on the depth of calls and on the turns of loops. -/
theorem run_expanded (readings : Nat → Float) (depth turns : Nat) (reporter : Reporter)
    (earlier : List (String × String)) (source path : String) (chosen : Path → Bool)
    (hsource : Accepted source) :
    let host : Host := ⟨.standard readings, depth, turns⟩
    let s := (⟨host, .start host.library.globals, reporter⟩ : Session).runAll earlier
    let s' := s.opened source path
    let expandedRun := runProgram (expanded chosen source)
    (resolve (expanded chosen source)).diagnostics = [] ∧
      s'.ending expandedRun = s.ending (run source path) ∧
      (s.after (run source path)).LooksAlike (s'.after expandedRun) := by
  intro host s s' expandedRun
  obtain ⟨hclean, hpadded⟩ := hsource.reshaped (P := .boxing) ⟨fun _ => false, chosen⟩
    (fun _ _ _ => trivial) ⟨nofun, fun _ => trivial⟩
  have hself : s.InStep .boxing s := runAll_boxing readings depth turns reporter earlier
  have hends := run_padded hsource hclean hpadded hself path
  exact ⟨hclean, hends.ending_eq, hends.after.looksAlike⟩

/-- A function that was made in the body changes the variable of the loop when the loop is over. The
loop inside the body has a `continue`, which is its own. -/
theorem run_expanded_closure :
    let source := "var f; for (var i = \"\"; i != \"aa\"; i += \"a\") \x7b " ++
      "if (i == \"\") f = fun () \x7b return i += \"b\"; \x7d; " ++
      "var more = true; while (more) \x7b more = false; continue; \x7d \x7d print f();"
    let other := "var f; \x7b var i = \"\"; while (i != \"aa\") \x7b \x7b " ++
      "if (i == \"\") f = fun () \x7b return i += \"b\"; \x7d; " ++
      "var more = true; while (more) \x7b more = false; continue; \x7d \x7d i += \"a\"; \x7d \x7d print f();"
    let chosen : Path → Bool := fun _ => true
    let host : Host := ⟨.standard Nat.toFloat, callDepth, loopTurns⟩
    let s := (⟨host, .start host.library.globals, .start false false⟩ : Session).runAll []
    let s' := s.opened source "1"
    let expandedRun := runProgram (expanded chosen source)
    Accepted source ∧
      ((resolve (expanded chosen source)).diagnostics = [] ∧
        s'.ending expandedRun = s.ending (run source "1") ∧
        (s.after (run source "1")).LooksAlike (s'.after expandedRun)) ∧
      printProgram (expanded chosen source) = printProgram (programOf other) ∧
      (s'.after expandedRun).machine.output = ["aab\n"] := by
  intro source other chosen host s s' expandedRun
  have hsource : Accepted source := by decide +kernel
  refine ⟨hsource, run_expanded Nat.toFloat callDepth loopTurns _ [] source "1" chosen hsource, ?_, ?_⟩
  · exact printProgram_eq (by decide +kernel)
  · decide +kernel

end Session
end LoxScript
