import LoxScript.Proofs.Accepted
import LoxScript.Proofs.ScopeAgreement
import LoxScript.Proofs.Signals

/-!
Signals stay inside what they are for.

A run is also made with alarms. An alarm is raised if the body of a function ends with `break` or
`continue`, if that of an initializer returns something other than nil, or if a statement of a
program at its top level ends with any signal at all. For programs without static errors, no run
can tell whether there are alarms.
-/
namespace LoxScript

open Scope Run

/-- The signals with which the body of a function may end. -/
def Closure.mayEnd (f : Closure) : Signal → Bool
  | .proceed => true
  | .breakLoop => false
  | .continueLoop => false
  | .returnValue .nil => true
  | .returnValue _ => !f.isInitializer

section Alarms

variable (alarm : Failure)

def Closure.alarmedCall (turns : Nat) (inv : Invoke) (f : Closure) (vs : List Value) :
    Run Value := do
  let signal ← f.runBody turns inv vs
  if f.mayEnd signal then f.conclude signal else throw alarm

def alarmedInvoke (library : Library) (turns : Nat) : Nat → Invoke
  | 0 => fun _ _ => throw .tooDeep
  | depth + 1 => invokeBy library (Closure.alarmedCall alarm turns (alarmedInvoke library turns depth))

def Host.alarmedProgram (h : Host) : List ResolvedStmt → Run Unit
  | [] => return
  | s :: ss => do
    match ← s.exec h.turns (alarmedInvoke alarm h.library h.turns h.depth) with
    | .proceed => h.alarmedProgram ss
    | _ => throw alarm

end Alarms

theorem Signal.Permitted.mayEnd {f : Closure} {role : Role} {signal : Signal}
    (h : signal.Permitted role 0) (hrole : f.isInitializer = true → role = .initializer) :
    f.mayEnd signal := by
  cases signal with
  | proceed => rfl
  | breakLoop | continueLoop => exact absurd h (Nat.lt_irrefl 0)
  | returnValue v =>
    by_cases hinitializer : f.isInitializer
    · rw [h.2 (hrole hinitializer)]
      rfl
    · cases v <;> simp [Closure.mayEnd, hinitializer]

/-- A matching step that can give only what `P` says. -/
theorem Run.Matches.given {L : Likeness} {w : Pairing L} {α β : Type}
    {Q : α → β → Pairing L → Prop} {P : α → Prop} {c : Run α} {d : Run β} (h : Matches w Q c d)
    (hp : c.Gives P) : Matches w (fun a b u => P a ∧ Q a b u) c d := by
  simp only [Matches] at h ⊢
  generalize hx : c w.left = x at h
  generalize d w.right = y at h
  cases h with
  | ok leads holds => exact .ok leads ⟨hp _ _ _ hx, holds⟩
  | error leads alike => exact .error leads alike

section Licensed

variable {w : Pairing .licensed} {alarm : Failure} {inv inv' : Invoke} {turns : Nat}

theorem Closure.alarmedCall_matches (hi : CallsMatch .licensed inv inv') :
    BodiesMatch .licensed (Closure.call turns inv) (Closure.alarmedCall alarm turns inv') := by
  intro w Γ f g vs vs' h hf hreceiver hvs
  obtain ⟨-, role, hrole, hlicensed⟩ := hf.fits
  have hends : (f.runBody turns inv vs).Gives (Signal.Permitted role 0) :=
    .after fun _ => .inEnvironment (Stmt.execAll_permitted f.body hlicensed)
  rw [Closure.call_eq]
  refine Matches.bind ((Closure.runBody_matches hi h hf hvs).given hends) ?_
  rintro x x' u hl ⟨hpermitted, hx⟩
  have hmay : g.mayEnd x' := by
    have hleft : f.mayEnd x := hpermitted.mayEnd hrole
    cases hx with
    | returnValue alike =>
      cases alike with
      | data _ => simpa only [Closure.mayEnd, hf.isInitializer] using hleft
      | _ => simpa only [Closure.mayEnd, hf.isInitializer] using hleft
    | _ => exact hleft
  rw [if_pos hmay]
  exact Closure.conclude_matches hl.sound (hf.mono hl.toLater) hreceiver hx

theorem alarmedInvoke_matches {library : Library} (hlib : library.Steady) (turns depth : Nat) :
    CallsMatch .licensed (invoke library turns depth) (alarmedInvoke alarm library turns depth) := by
  induction depth with
  | zero => exact fun w f g vs vs' h _ _ => .throw h .tooDeep
  | succ depth ih => exact invokeBy_matches hlib (Closure.alarmedCall_matches ih)

theorem Host.alarmedProgram_matches {h : Host} (hlib : h.library.Steady)
    {program : List ResolvedStmt} {Γ : List Unit} (hp : Stmt.AllUpright program)
    (hl : Stmt.AllLicensed .topLevel 0 program) (hS : w.Stands Γ) :
    Matches w (fun _ _ _ => True) (h.execProgram program) (h.alarmedProgram alarm program) := by
  induction program generalizing w with
  | nil => exact .pure hS.sound trivial
  | cons s ss ih =>
    have hs : Stmt.Upright s := fun Γ => by cases hp Γ with | cons head _ => exact head
    have hss : Stmt.AllUpright ss := fun Γ => by cases hp Γ with | cons _ tail => exact tail
    refine .bind ((s.exec_matches (alarmedInvoke_matches hlib h.turns h.depth) (hs Γ) hS).given
      (s.exec_permitted hl.1)) ?_
    rintro x x' u hu ⟨hpermitted, hx⟩
    cases hx with
    | proceed => exact ih hss hl.2 (hu.stands hS)
    | breakLoop | continueLoop => exact absurd hpermitted (Nat.lt_irrefl 0)
    | returnValue alike => exact absurd rfl hpermitted.1

/-! Machines that are licensed alike are equal. -/

theorem Closure.Alike.eq {between Γ : List Unit} {f g : Closure} (h : f.Alike w between Γ g) :
    g = f := by
  obtain ⟨l, hparams, -⟩ := h.body
  have hsame : f.params = g.params := List.forall₂_eq_eq_eq ▸ hparams
  cases f
  cases g
  obtain ⟨hidentity, hname, henvironment, hinitializer, -, ⟨hbody, -⟩, -⟩ := h
  cases hidentity
  cases hname
  cases henvironment
  cases hinitializer
  cases hbody
  cases hsame
  rfl

theorem Class.Alike.eq {c d : Class} (h : c.Alike w d) : d = c := by
  have hmethods := h.methods.eq fun f g hf => by
    obtain ⟨Γ, hf⟩ := hf
    exact hf.eq
  cases c
  cases d
  cases h.identity
  cases h.name
  cases hmethods
  rfl

theorem Value.Alike.eq {v v' : Value} (h : v.Alike w v') : v' = v := by
  cases h with
  | data plain => rfl
  | function alike receiver => rw [alike.eq]
  | klass alike => rw [alike.eq]
  | @object o p identity owner =>
    cases o
    cases p
    cases identity
    cases owner.eq
    rfl

theorem Pairing.Sound.eq (h : w.Sound) : w.right = w.left := by
  have hframes : w.right.store.frames = w.left.store.frames := by
    refine Array.ext h.size fun a ha ha' => ?_
    have hframe := (h.frames a).eq fun _ _ hv => hv.eq
    simpa [Store.frame, ha, ha'] using hframe
  have hobjects : w.right.store.objects = w.left.store.objects := by
    refine Array.ext h.instances fun i hi hi' => ?_
    have hfields := (h.fields ⟨i, 0, "", []⟩ ⟨i, 0, "", []⟩ rfl).eq fun _ _ hv => hv.eq
    simpa [Store.fields, hi, hi'] using hfields
  obtain ⟨left, right, label⟩ := w
  obtain ⟨⟨frames, objects, identities⟩, environment, output, asked⟩ := left
  obtain ⟨⟨frames', objects', identities'⟩, environment', output', asked'⟩ := right
  cases hframes
  cases hobjects
  cases h.identities
  cases h.environment
  cases h.output
  cases h.asked
  rfl

theorem Failure.Alike.eq {f g : Failure} (h : f.Alike .licensed g) : g = f := by
  cases h with
  | fault token => rw [show _ = _ from token]
  | unbound name => rw [show _ = _ from name]
  | _ => rfl

/-- Steps that match without a result to compare end in one way. -/
theorem Run.Matches.eq {c d : Run Unit} {m : Machine} {label : Address → Unit}
    (h : Matches (L := .licensed) ⟨m, m, label⟩ (fun _ _ _ => True) c d) : d m = c m := by
  simp only [Matches] at h
  generalize c m = x at h
  generalize d m = y at h
  cases h with
  | ok leads _ => rw [leads.sound.eq]
  | error leads alike => rw [leads.sound.eq, alike.eq]

end Licensed

theorem resolve_upright {program : List RawStmt} (h : (resolve program).diagnostics = []) :
    Stmt.AllUpright (resolve program).program ∧
      Stmt.AllLicensed .topLevel 0 (resolve program).program :=
  (Stmt.resolveAll_upright program .start).result ((faults_eq_nil_iff program).mpr h)

/-- Programs without static errors leave a machine all of whose functions have bodies with
permitted jumps. -/
theorem Session.interpretAll_upright {s : Session} {programs : List (List RawStmt)}
    (hp : ∀ p ∈ programs, (resolve p).diagnostics = [])
    (h : s.host.library.Steady ∧ s.machine.Selfsame .licensed) :
    (s.interpretAll programs).machine.Selfsame .licensed := by
  induction programs generalizing s with
  | nil => exact h.2
  | cons program rest ih =>
    obtain ⟨hfirst, hrest⟩ := List.forall_mem_cons.mp hp
    exact ih hrest (interpret_selfsame ((resolve_upright hfirst).1 _) s h)

/-- Where a run came to a statement, the walk over its program had come to it at one moment, and
the statement ends only with signals that are permitted by what was around it then. -/
structure Visit.Contains (v : Visit) (s : ResolvedStmt) (g : Sighting) : Prop where
  path : g.path = v.path
  node : (g.node.resolve g.walk).1 = .stmt s
  permitted : ∀ turns call, (s.exec turns call).Gives (Signal.Permitted g.walk.role g.walk.loops)
  loops : ∀ condition body increment, s = .loop condition body increment →
    ∀ turns call, (s.exec turns call).Gives fun signal =>
      signal = .proceed ∨ ∃ value, signal = .returnValue value

/-- Sightings of a node in which the walk found no fault. -/
def Sighting.Quiet (g : Sighting) : Prop := (g.node.resolve g.walk).2.faults = []

theorem Visit.Agrees.contains {v : Visit} {g : Sighting} {s : ResolvedStmt} (h : v.Agrees g)
    (hquiet : g.Quiet) (hs : v.node = .stmt s) : v.Contains s g := by
  have hnode : (g.node.resolve g.walk).1 = .stmt s := h.node.trans hs
  refine ⟨h.path, hnode, fun turns call => ?_, ?_⟩
  · cases hg : g.node with
    | expr e =>
      rw [hg] at hnode
      cases hnode
    | stmt raw =>
      rw [Sighting.Quiet, hg] at hquiet
      rw [hg] at hnode
      have hstmt : (raw.resolve g.walk).1 = s := Node.stmt.inj hnode
      rw [← hstmt]
      exact Stmt.exec_permitted _ ((raw.resolve_upright g.walk).result hquiet).2
  · rintro condition body increment rfl turns call
    exact Stmt.exec_loop_gives condition body increment

/-- A run of programs without static errors comes only to nodes at which the walk was quiet. -/
theorem agrees_quiet (readings : Nat → Float) (depth turns : Nat) {programs : List (List RawStmt)}
    (hprograms : ∀ p ∈ programs, (resolve p).diagnostics = []) :
    let host : Host := ⟨.standard readings, depth, turns⟩
    ∀ v ∈ ((Tracer.start host.library.globals).interpretAll host 0 programs).visits,
      ∃ g ∈ allSightings 0 programs, g.Quiet ∧ v.Agrees g := by
  classical
  intro host v hv
  let record := (allSightings 0 programs).filter fun g => decide g.Quiet
  have hstart : (Tracer.start host.library.globals).Stands (.seen record) [] :=
    Tracer.start_stands fun _ _ => Library.isData_globals
  have hstands : ((Tracer.start host.library.globals).interpretAll host 0 programs).Stands
      (.seen record) [] := by
    refine Tracer.interpretAll_stands (Library.standard_plain readings) 0 (fun i program hi x hx => ?_)
      hstart
    refine (sightings_show (0 + i) program x hx).mono fun y hy => ?_
    obtain ⟨g, hg, hshows, hfaults⟩ := hy
    have hnone := (faults_eq_nil_iff program).mpr (hprograms program (List.mem_of_getElem? hi))
    rw [hnone] at hfaults
    exact ⟨g, List.mem_filter.mpr ⟨sightings_subset 0 hi hg,
      decide_eq_true (List.suffix_nil.mp hfaults)⟩, hshows⟩
  obtain ⟨g, hg, hagrees⟩ := (hstands.sound.visits v hv).agrees
  obtain ⟨hg, hquiet⟩ := List.mem_filter.mp hg
  exact ⟨g, hg, of_decide_eq_true hquiet, hagrees⟩

/-- Signals are contained in the runs of some programs one after another: those of statements are
permitted by the walk, and in no run of a program does an alarm make a difference. -/
structure Session.Contains (s : Session) (programs : List (List RawStmt)) : Prop where
  visits :
    let run := (Tracer.start s.host.library.globals).interpretAll s.host 0 programs
    let record := allSightings 0 programs
    run.machine = (s.interpretAll programs).machine ∧
      ∀ v ∈ run.visits, ∀ x, v.node = .stmt x → ∃ g ∈ record,
        v.Contains x g ∧ ∀ g' ∈ record, g'.path = v.path → g' = g
  alarms : ∀ i program, programs[i]? = some program →
    let m := (s.interpretAll (programs.take i)).machine
    ∀ alarm, s.host.alarmedProgram alarm (resolve program).program m =
      s.host.execProgram (resolve program).program m

/-- In the runs of programs without static errors, signals never leak. -/
theorem signals_contained (readings : Nat → Float) (depth turns : Nat) (reporter : Reporter)
    (programs : List (List RawStmt)) (hprograms : ∀ p ∈ programs, (resolve p).diagnostics = []) :
    let host : Host := ⟨.standard readings, depth, turns⟩
    let session : Session := ⟨host, .start host.library.globals, reporter⟩
    session.Contains programs := by
  intro host session
  constructor
  · refine ⟨Tracer.interpretAll_machine (s := session) rfl 0 programs, fun v hv x hx => ?_⟩
    obtain ⟨g, hg, hquiet, hagrees⟩ := agrees_quiet readings depth turns hprograms v hv
    refine ⟨g, hg, hagrees.contains hquiet hx, fun g' hg' hpath => ?_⟩
    exact List.inj_on_of_nodup_map (allSightings_nodup 0 programs).1 hg' hg
      (hpath.trans hagrees.path.symm)
  · intro i program hi m alarm
    obtain ⟨hprogram, hlicensed⟩ := resolve_upright (hprograms program (List.mem_of_getElem? hi))
    have hlib := Library.standard_steady readings
    obtain ⟨label, hupright⟩ : m.Selfsame .licensed :=
      Session.interpretAll_upright (fun p hp => hprograms p (List.mem_of_mem_take hp))
        ⟨hlib, .start _ Library.data_globals⟩
    exact (Host.alarmedProgram_matches hlib hprogram hlicensed hupright).eq

/-- A program with every kind of jump, whose functions are kept in variables and in instances. -/
theorem signals_contained_jumps :
    let source := "class A \x7b init(n) \x7b this.f = n; while (n) \x7b if (n) return; break; \x7d \x7d \x7d " ++
      "fun g() \x7b for (;;) \x7b if (nil) continue; return true; \x7d \x7d " ++
      "var a = A(g); while (true) \x7b print a.f(); break; \x7d"
    let host : Host := ⟨.standard Nat.toFloat, callDepth, loopTurns⟩
    let session : Session := ⟨host, .start host.library.globals, .start false false⟩
    (∀ p ∈ [programOf source], (resolve p).diagnostics = []) ∧
      session.Contains [programOf source] := by
  intro source host session
  have hprograms : ∀ p ∈ [programOf source], (resolve p).diagnostics = [] := by decide +kernel
  exact ⟨hprograms, signals_contained Nat.toFloat callDepth loopTurns (.start false false) _ hprograms⟩

end LoxScript
