import LoxScript.Proofs.Shape

/-!
Sources that are accepted without a static error, and what is known of their programs: their words
are those of the language, their trees have the shape that the grammar gives them, and the walk over
them finds no fault.
-/
namespace LoxScript

open Grammar Resolve Scope

/-- A piece that is a token is a word as its kind says. -/
def Cut.Worded (c : Cut) : Prop :=
  ∀ kind literal, c.piece = .token kind literal →
    (kind = .kwThis → String.ofList c.taken = receiverName) ∧
      (kind = .identifier → String.ofList c.taken ≠ receiverName)

theorem Cut.Worded.of_ne {c : Cut} (h : ∀ kind literal, c.piece = .token kind literal →
    kind ≠ .kwThis ∧ kind ≠ .identifier) : c.Worded :=
  fun kind literal hpiece => ⟨fun hthis => absurd hthis (h kind literal hpiece).1,
    fun hname => absurd hname (h kind literal hpiece).2⟩

namespace Scan

theorem worded_ofWord (word : String) :
    (Kind.ofWord word = .kwThis → word = receiverName) ∧
      (Kind.ofWord word = .identifier → word ≠ receiverName) := by
  constructor
  · intro h
    unfold Kind.ofWord at h
    cases hlookup : Kind.keywords.lookup word with
    | none =>
      rw [hlookup] at h
      cases h
    | some kind =>
      rw [hlookup, Option.getD_some] at h
      obtain ⟨before, after, hkeywords, -⟩ := List.lookup_eq_some_iff.mp hlookup
      have hmem : (word, kind) ∈ Kind.keywords := by simp [hkeywords]
      have hall : ∀ entry ∈ Kind.keywords, entry.2 = .kwThis → entry.1 = receiverName := by decide
      exact hall _ hmem h
  · rintro h rfl
    revert h
    decide

theorem single?_kind {c : Char} {kind : Kind} (h : single? c = some kind) :
    kind ≠ .kwThis ∧ kind ≠ .identifier := by
  unfold single? at h
  split at h <;> cases h <;> decide

theorem double?_kind {c : Char} {plain withEqual : Kind} (h : double? c = some (plain, withEqual)) :
    (plain ≠ .kwThis ∧ plain ≠ .identifier) ∧ withEqual ≠ .kwThis ∧ withEqual ≠ .identifier := by
  unfold double? at h
  split at h <;> cases h <;> decide

theorem worded_cutOperator {c : Char} {plain withEqual : Kind} (rest : List Char)
    (h : double? c = some (plain, withEqual)) : (cutOperator c plain withEqual rest).Worded := by
  obtain ⟨hplain, hequal⟩ := double?_kind h
  refine .of_ne fun kind literal hpiece => ?_
  unfold cutOperator at hpiece
  split at hpiece <;> cases hpiece
  · exact hequal
  · exact hplain

theorem worded_cutString (rest : List Char) : (cutString rest).Worded := by
  refine .of_ne fun kind literal hpiece => ?_
  simp only [cutString] at hpiece
  split at hpiece <;> cases hpiece
  decide

theorem worded_cutNumber (first : Char) (rest : List Char) : (cutNumber first rest).Worded := by
  refine .of_ne fun kind literal hpiece => ?_
  simp only [cutNumber] at hpiece
  repeat' split at hpiece
  all_goals
    cases hpiece
    decide

theorem worded_cut (c : Char) (rest : List Char) : (cut c rest).Worded := by
  unfold cut
  split
  · exact .of_ne fun kind literal hpiece => by cases hpiece
  split
  next kind hsingle =>
    refine .of_ne fun kind literal hpiece => ?_
    cases hpiece
    exact single?_kind hsingle
  split
  next plain withEqual hdouble => exact worded_cutOperator rest hdouble
  split
  · exact .of_ne fun kind literal hpiece => by cases hpiece
  split
  · exact worded_cutString rest
  split
  · exact worded_cutNumber c rest
  split
  · intro kind literal hpiece
    cases hpiece
    exact worded_ofWord _
  · exact .of_ne fun kind literal hpiece => by cases hpiece

theorem worded_cuts (text : List Char) : ∀ c ∈ cuts text, c.Worded := by
  induction text using cuts.induct with
  | case1 =>
    rw [cuts]
    exact List.forall_mem_nil _
  | case2 c rest ih =>
    rw [cuts]
    exact List.forall_mem_cons.mpr ⟨worded_cut c rest, ih⟩

theorem worded_collect {pieces : List Cut} (h : ∀ c ∈ pieces, c.Worded) (start : Position) :
    ∀ t ∈ (collect start pieces).tokens, t.Worded := by
  induction pieces generalizing start with
  | nil =>
    refine List.forall_mem_singleton.mpr ⟨fun hkind => ?_, fun hkind => ?_⟩
    all_goals cases hkind
  | cons c pieces ih =>
    obtain ⟨hc, hpieces⟩ := List.forall_mem_cons.mp h
    have hrest := ih hpieces (start.after c.taken)
    rw [collect, Outcome.add]
    split
    next kind literal hpiece =>
      obtain ⟨hthis, hname⟩ := hc kind literal hpiece
      exact List.forall_mem_cons.mpr ⟨⟨hthis, hname⟩, hrest⟩
    all_goals exact hrest

end Scan

theorem scan_worded (source : String) : ∀ t ∈ (scan source).tokens, t.Worded :=
  Scan.worded_collect (Scan.worded_cuts source.toList) .start

/-- The program of a source. -/
def programOf (source : String) : List RawStmt := (parse (scan source).tokens).program

/-- A source in which no static error is found. -/
structure Accepted (source : String) : Prop where
  scanned : (scan source).diagnostics = []
  parsed : (parse (scan source).tokens).diagnostics = []
  resolved : (resolve (programOf source)).diagnostics = []

instance (source : String) : Decidable (Accepted source) :=
  decidable_of_iff ((scan source).diagnostics = [] ∧
    (parse (scan source).tokens).diagnostics = [] ∧ (resolve (programOf source)).diagnostics = [])
    ⟨fun h => ⟨h.1, h.2.1, h.2.2⟩, fun h => ⟨h.scanned, h.parsed, h.resolved⟩⟩

theorem Accepted.derives {source : String} (h : Accepted source) :
    ∃ words, (∀ t ∈ words, t.Worded) ∧ Derives .declarations words (programOf source) [] := by
  let words := (scan source).tokens.takeWhile (·.kind != .eof)
  have hfaults : (Parse.program words).faults = [] := List.map_eq_nil_iff.mp h.parsed
  have hsound := Parse.program_sound words
  refine ⟨words, fun t ht => scan_worded source t (List.takeWhile_subset _ ht), ?_⟩
  cases hvalue : (Parse.program words).value with
  | none => exact absurd hfaults (hsound.faulty hvalue)
  | some program =>
    obtain ⟨hderives, hrest⟩ := hsound.fits program hvalue hfaults
    have hprogram : programOf source = program := by
      change (Parse.program words).value.getD [] = program
      rw [hvalue, Option.getD_some]
    rw [hprogram]
    rwa [hrest] at hderives

/-- A spot of the resolved program of a source that has a number in a history. -/
def Spot.In (number : Nat) (source : String) (x : Spot) : Prop :=
  ∃ y ∈ Spot.stmts [number] 0 [] (resolve (programOf source)).program, y.Within x

/-- Spots of an accepted program are shaped as programs are. -/
theorem Accepted.shaped {source : String} (h : Accepted source) {number : Nat} {x : Spot}
    (hx : x.In number source) : x.node.Shaped := by
  obtain ⟨words, hwords, hderives⟩ := h.derives
  obtain ⟨y, hy, hwithin⟩ := hx
  have hnode : y.node ∈ ((Stmt.resolveAll (programOf source) .start).1).map Node.stmt := by
    rw [← Spot.map_node_stmts [number] 0 []]
    exact List.mem_map_of_mem hy
  obtain ⟨n, hn, w, hresolves⟩ := Stmt.from_resolveAll _ _ _ hnode
  obtain ⟨s, hs, rfl⟩ := List.mem_map.mp hn
  have hevery : y.node.Every Node.Shaped := by
    rw [hresolves]
    exact (hderives.shaped hwords s hs).resolve w
  exact hevery.throughout x hwithin

end LoxScript
