import Mathlib.Data.List.Nodup
import LoxScript.Proofs.History
import LoxScript.Proofs.Passage
import LoxScript.Proofs.References

/-!
Resolution and execution agree on scopes.

Whenever a run comes to a node, the frames of its environment below the globals are those of the
scopes that were on the stack when the program was resolved and the walk came to that node. So the
distances that the walk recorded lead to the frames of the scopes in which it found the names.
-/
namespace LoxScript

open Resolve Scope

/-- The frames of an environment below the globals were made for some scopes, innermost first. -/
structure Moment.Below (m : Moment) (frames : List Address) (sites : List Site) : Prop where
  chain : m.chain = frames ++ [Environment.global.frame]
  made : frames.map m.site = sites.map some
  allocated : ∀ a ∈ frames, a < m.size ∧ a ≠ Environment.global.frame

/-- At a visit of a run, the environment is what the stack of the walk was when it came to the
same node. -/
structure Visit.Agrees (v : Visit) (g : Sighting) : Prop where
  path : g.path = v.path
  node : (g.node.resolve g.walk).1 = v.node
  frames : ∃ frames, v.Below frames g.sites ∧ frames.length = g.walk.scopes.length
  distances : ∀ name d, v.node.target? = some (name, some d) →
    distance? g.walk.scopes name = some d ∧ ∃ a, v.machine.environment.ancestor? d = some a ∧
      a < v.size ∧ a ≠ Environment.global.frame ∧ g.sites[d]? = v.site a

/-- What the walks over some programs come to, the first program having a number. -/
def allSightings (number : Nat) : List (List RawStmt) → List Sighting
  | [] => []
  | program :: rest => sightings number program ++ allSightings (number + 1) rest

theorem sightings_subset {programs : List (List RawStmt)} {i : Nat} {program : List RawStmt}
    (number : Nat) (h : programs[i]? = some program) :
    sightings (number + i) program ⊆ allSightings number programs := by
  induction programs generalizing number i with
  | nil => cases h
  | cons first rest ih =>
    intro g hg
    cases i with
    | zero =>
      obtain rfl : first = program := by simpa using h
      exact List.mem_append_left _ hg
    | succ i =>
      refine List.mem_append_right _ (ih (number + 1) (by simpa using h) ?_)
      rwa [show number + 1 + i = number + (i + 1) from by omega]

/-- The walks over some programs come to no place twice. -/
theorem allSightings_nodup (number : Nat) (programs : List (List RawStmt)) :
    ((allSightings number programs).map (·.path)).Nodup ∧
      ∀ g ∈ allSightings number programs, ∃ i, number ≤ i ∧ [i] <:+ g.path := by
  induction programs generalizing number with
  | nil => exact ⟨List.nodup_nil, List.forall_mem_nil _⟩
  | cons program rest ih =>
    obtain ⟨hnodup, hplace⟩ := sightings_nodup number program
    obtain ⟨hrest, hplaces⟩ := ih (number + 1)
    constructor
    · rw [allSightings, List.map_append, List.nodup_append]
      refine ⟨hnodup, hrest, ?_⟩
      intro q hq q' hq' heq
      obtain ⟨g, hg, rfl⟩ := List.mem_map.mp hq
      obtain ⟨g', hg', rfl⟩ := List.mem_map.mp hq'
      obtain ⟨i, hi, hgi⟩ := hplaces g' hg'
      have hsame : number = i := child_unique (heq ▸ hplace g hg) hgi
      omega
    · intro g hg
      rcases List.mem_append.mp hg with h | h
      · exact ⟨number, Nat.le_refl _, hplace g h⟩
      · obtain ⟨i, hi, hgi⟩ := hplaces g h
        exact ⟨i, by omega, hgi⟩

/-- Environments that cover a context have a frame for each of its scopes. -/
theorem Covers.frames {R : Regime} {m : Moment} {Γ : Context} {chain : List Address}
    (h : Covers R m chain Γ) : ∃ frames, chain = frames ++ [Environment.global.frame] ∧
      frames.map m.site = (Γ.map (·.site)).map some ∧
      (∀ a ∈ frames, a < m.size ∧ a ≠ Environment.global.frame) ∧ frames.length = Γ.length := by
  induction h with
  | global allocated untagged => exact ⟨[], rfl, rfl, List.forall_mem_nil _, rfl⟩
  | @inner a e chain Γ head younger tail ih =>
    obtain ⟨frames, hchain, hmade, hallocated, hlength⟩ := ih
    refine ⟨a :: frames, by rw [hchain]; rfl, ?_, ?_, by rw [List.length_cons, hlength]; rfl⟩
    · rw [List.map_cons, hmade, head.made]
      rfl
    · refine List.forall_mem_cons.mpr ⟨⟨head.allocated, ?_⟩, hallocated⟩
      have hroot := younger Environment.global.frame (by rw [hchain]; simp)
      exact Nat.ne_of_gt hroot

/-- The regime in which all that is known of spots is that a walk came to them. -/
def Regime.seen (record : List Sighting) : Regime where
  holds x := ∃ g ∈ record, g.Shows x
  safe := False
  exact := False
  safe_of_exact h := h
  safe_of_holds h := h.elim
  exact_of_holds h := h.elim

theorem Visit.Sound.agrees {record : List Sighting} {v : Visit} (h : v.Sound (.seen record)) :
    ∃ g ∈ record, v.Agrees g := by
  obtain ⟨Γ, hholds, hcovers⟩ := h
  obtain ⟨g, hg, hshows⟩ := hholds
  obtain ⟨frames, hchain, hmade, hallocated, hlength⟩ := hcovers.frames
  have hsites : g.sites = Γ.map (·.site) := hshows.sites
  have hscopes : g.walk.scopes.length = Γ.length := by rw [hshows.scopes, List.length_map]
  refine ⟨g, hg, hshows.path, hshows.node, ⟨frames, ⟨hchain, hsites ▸ hmade, hallocated⟩,
    hlength.trans hscopes.symm⟩, ?_⟩
  intro name d hfound
  have hd : distance? g.walk.scopes name = some d :=
    distance?_of_target? (n := g.node) (by rw [hshows.node]; exact hfound)
  refine ⟨hd, ?_⟩
  have hlt : d < Γ.length := hscopes ▸ distance?_lt hd
  obtain ⟨a, ha, hcovered⟩ := hcovers.at (List.getElem?_eq_getElem hlt)
  have hancestor : v.machine.environment.ancestor? d = some a := ha
  refine ⟨a, hancestor, hcovered.allocated, ?_, ?_⟩
  · rw [hchain, List.getElem?_append_left (hlength.symm ▸ hlt)] at ha
    exact (hallocated a (List.mem_of_getElem? ha)).2
  · rw [hsites, List.getElem?_map, List.getElem?_eq_getElem hlt, hcovered.made]
    rfl

/-- Resolution and execution agree on scopes: in every history of programs, each visit of a node
agrees with the one moment at which the walk over its program came to that node. -/
theorem scopes_agree (readings : Nat → Float) (depth turns : Nat) (reporter : Reporter)
    (programs : List (List RawStmt)) :
    let host : Host := ⟨.standard readings, depth, turns⟩
    let session : Session := ⟨host, .start host.library.globals, reporter⟩
    let record := allSightings 0 programs
    let run := (Tracer.start host.library.globals).interpretAll host 0 programs
    run.machine = (session.interpretAll programs).machine ∧
      (∀ number, ∀ program ∈ programs,
        (Stmt.watchAll [number] 0 program).Erases (Stmt.resolveAll program)) ∧
      ∀ v ∈ run.visits, ∃ g ∈ record, v.Agrees g ∧ ∀ g' ∈ record, g'.path = v.path → g' = g := by
  intro host session record run
  refine ⟨Tracer.interpretAll_machine (s := session) rfl 0 programs,
    fun number program _ => Stmt.watchAll_erases [number] 0 program, fun v hv => ?_⟩
  have hstart : (Tracer.start host.library.globals).Stands (.seen record) [] :=
    Tracer.start_stands fun _ _ => Library.isData_globals
  have hstands : run.Stands (.seen record) [] := by
    refine Tracer.interpretAll_stands (Library.standard_plain readings) 0 (fun i program hi x hx => ?_)
      hstart
    refine (sightings_show (0 + i) program x hx).mono fun y hy => ?_
    obtain ⟨g, hg, hshows, -⟩ := hy
    exact ⟨g, sightings_subset 0 hi hg, hshows⟩
  obtain ⟨g, hg, hagrees⟩ := (hstands.sound.visits v hv).agrees
  refine ⟨g, hg, hagrees, fun g' hg' hpath => ?_⟩
  exact List.inj_on_of_nodup_map (allSightings_nodup 0 programs).1 hg' hg
    (hpath.trans hagrees.path.symm)

end LoxScript
