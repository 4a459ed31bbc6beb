import LoxScript.Proofs.Provenance
import LoxScript.Proofs.RenamedProgram

/-!
Running a program with a local variable renamed.

A session that has run some sources is like itself, with no frame of the scope of the variable. From
there the program and the renamed one are executed in step, so what can be seen of the two runs is
the same, but for a failure that names the variable.
-/
namespace LoxScript

theorem Renaming.carries (r : Renaming) : r.likeness.Carries (fun _ => True) id :=
  ⟨fun _ _ => rfl, fun _ _ _ => trivial⟩

/-- Every program is like itself where the variable to be renamed is not in scope. -/
theorem Renaming.program_self (r : Renaming) (program : List ResolvedStmt) :
    Stmt.AllAlike r.likeness [r.likeness.plain] program program := by
  apply Stmt.allAlike_self r.carries (List.forall_mem_singleton.mpr rfl)
  exact Stmt.allWords_of_tokens program fun _ _ => trivial

namespace Session

/-- Results of runs of which the same is seen, but that one run may fail for want of the old name
where the other fails for want of the new one. -/
inductive ShowsSame (r : Renaming) : EStateM.Result Escape Session Status →
    EStateM.Result Escape Session Status → Prop
  | ok {status : Status} {s s' : Session} (output : s'.machine.output = s.machine.output)
      (globals : s'.shownGlobals = s.shownGlobals) (reporter : s'.reporter = s.reporter) :
      ShowsSame r (.ok status s) (.ok status s')
  | error {e e' : Escape} {s s' : Session} (escape : e' = e ∨
        (e = (Failure.unbound r.old).escape ∧ e' = (Failure.unbound r.new).escape))
      (output : s'.machine.output = s.machine.output)
      (globals : s'.shownGlobals = s.shownGlobals) (reporter : s'.reporter = s.reporter) :
      ShowsSame r (.error e s) (.error e' s')

section
variable {r : Renaming}

theorem escape_renamed {f g : Failure} (h : f.Alike r.likeness g)
    (hf : ∀ t cause, f ≠ .fault t cause) :
    g.escape = f.escape ∨
      (f.escape = (Failure.unbound r.old).escape ∧ g.escape = (Failure.unbound r.new).escape) := by
  cases h with
  | fault _ => exact absurd rfl (hf _ _)
  | @unbound l a b name =>
    cases l with
    | false =>
      obtain rfl : a = b := name
      exact .inl rfl
    | true =>
      rcases name with ⟨rfl, rfl⟩ | ⟨rfl, -, -⟩
      · exact .inr ⟨rfl, rfl⟩
      · exact .inl rfl
  | _ => exact .inl rfl

/-- Tokens at which faults are placed are kept, so the same is reported. -/
theorem EndsAlike.showsSame {s : Session} {x y : EStateM.Result Escape Session Status}
    (h : EndsAlike r.likeness s s x y) : ShowsSame r x y := by
  cases h with
  | success sound => exact .ok sound.output sound.shown_eq rfl
  | @fault w t u cause sound token =>
    obtain rfl : t = u := token
    exact .ok sound.output sound.shown_eq rfl
  | escape sound alike other =>
    exact .error (escape_renamed alike other) sound.output sound.shown_eq rfl

end

/-- A program with a local variable renamed is resolved as before. Given to a session where the
parser would hand over that of the source, it shows what the source shows. -/
theorem run_renamed (readings : Nat → Float) (depth turns : Nat) (reporter : Reporter)
    (earlier : List (String × String)) (source path : String) (r : Renaming)
    (hsource : Accepted source) (hlocal : r.OfLocal source) (hnew : r.NewTo source) :
    let host : Host := ⟨.standard readings, depth, turns⟩
    let s := (⟨host, .start host.library.globals, reporter⟩ : Session).runAll earlier
    r.Resolves source ∧
      ShowsSame r (run source path s) (runProgram (r.program source) (s.opened source path)) := by
  intro host s
  have hresolves := hlocal.resolves hsource hnew
  refine ⟨hresolves, ?_⟩
  obtain ⟨hlib, label, hstands⟩ : s.host.library.Steady ∧ s.machine.Selfsame r.likeness :=
    runAll_selfsame (fun _ _ _ => r.program_self _)
      ⟨Library.standard_steady readings, .start _ Library.data_globals⟩
  have hmatches := s.host.execProgram_matches hlib (hlocal.alike hsource hnew) hstands
  have hfresh := s.fresh_opened source path
  rw [run_accepted hsource, runProgram_clean hresolves.accepted rfl, hlocal.marked_eq hsource hnew]
  exact (interpret_alike hfresh hfresh hmatches).showsSame

/-- The renamed variable hides a global, which a function before its declaration still refers to,
and it gets the name of another global. -/
theorem run_renamed_hiding :
    let earlier := "var a = true; var b = a;"
    let source := "\x7b fun f() \x7b return a; \x7d var a; print f(); a(); \x7d"
    let other := "\x7b fun f() \x7b return a; \x7d var b; print f(); b(); \x7d"
    let r : Renaming := ⟨[0, 0], 0, "a", "b"⟩
    let host : Host := ⟨.standard Nat.toFloat, callDepth, loopTurns⟩
    let s := (⟨host, .start host.library.globals, .start false false⟩ : Session).runAll
      [(earlier, "1")]
    (Accepted source ∧ r.OfLocal source ∧ r.NewTo source) ∧
      (r.Resolves source ∧
        ShowsSame r (run source "2" s) (runProgram (r.program source) (s.opened source "2"))) ∧
      printProgram (r.program source) = printProgram (programOf other) ∧
      (s.after (run source "2")).machine.output = ["true\n"] ∧
      (s.after (run source "2")).reporter.runtimeErrors =
        ["Can only call functions and classes.\n[line 1]"] := by
  intro earlier source other r host s
  have hsource : Accepted source := by decide +kernel
  have hlocal : r.OfLocal source := Renaming.finds_of_find 1 (by decide +kernel)
  have hnew : r.NewTo source := ⟨by decide +kernel, by decide +kernel⟩
  refine ⟨⟨hsource, hlocal, hnew⟩,
    run_renamed Nat.toFloat callDepth loopTurns _ _ source "2" r hsource hlocal hnew, ?_⟩
  exact ⟨by decide +kernel, by decide +kernel, by decide +kernel⟩

end Session
end LoxScript
