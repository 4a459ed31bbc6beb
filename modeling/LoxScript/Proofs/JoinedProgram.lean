import LoxScript.Proofs.JoinedText
import LoxScript.Proofs.Plain
import LoxScript.Proofs.Rewalk
import LoxScript.Proofs.Signals

/-!
Accepted sources joined at the end of a line.

The program of the two is that of the first and behind it that of the second, with its tokens on
later lines: nothing at the end of a complete declaration can go on with what starts another one,
and a walk leaves the top level of a program as it found it. So the two are accepted together.
-/
namespace LoxScript

open Grammar Resolve Scope

theorem Grammar.Derives.declarations_append {ts mid rest : List Token} {ss ss' : List RawStmt}
    (h : Derives .declarations ts ss mid) (h' : Derives .declarations mid ss' rest) :
    Derives .declarations ts (ss ++ ss') rest := by
  induction ss generalizing ts with
  | nil =>
    cases h
    exact h'
  | cons s ss ih =>
    cases h with
    | moreDeclarations first others => exact .moreDeclarations first (ih others)

theorem Token.keeps_moved (lines : Nat) : Keeps (Token.moved lines) :=
  ⟨fun _ => rfl, fun _ => rfl⟩

theorem Stmt.resolveAll_append (ps qs : List RawStmt) (w : Walk) :
    Stmt.resolveAll (ps ++ qs) w =
      ((Stmt.resolveAll ps w).1 ++ (Stmt.resolveAll qs (Stmt.resolveAll ps w).2).1,
        (Stmt.resolveAll qs (Stmt.resolveAll ps w).2).2) := by
  induction ps generalizing w with
  | nil => rfl
  | cons p ps ih =>
    have hrun (ss : List RawStmt) : Stmt.resolveAll (p :: ss) w =
        ((p.resolve w).1 :: (Stmt.resolveAll ss (p.resolve w).2).1,
          (Stmt.resolveAll ss (p.resolve w).2).2) := rfl
    rw [List.cons_append, hrun, hrun, ih]
    rfl

/-- Programs alike of which tokens of a kind are some lines further on in the second, and tokens
of another kind are where they are in the first. -/
def Likeness.moving (lines : Nat) (early late : Token → Prop) : Likeness where
  Label := Unit
  plain := ()
  names _ := Eq
  tokens t u := (late t ∧ u = t.moved lines) ∨ (early t ∧ u = t)
  fits _ _ _ := True
  names_plain a b := kept_names a b
  names_unique h k := Eq.congr h k
  kind_eq h := by rcases h with ⟨-, rfl⟩ | ⟨-, rfl⟩ <;> rfl
  lexeme_eq h := by rcases h with ⟨-, rfl⟩ | ⟨-, rfl⟩ <;> rfl

namespace Likeness.moving
variable {lines : Nat} {early late : Token → Prop}

theorem carries_late : (moving lines early late).Carries late (·.moved lines) :=
  ⟨fun _ ht => .inl ⟨ht, rfl⟩, fun _ _ _ => trivial⟩

theorem carries_early : (moving lines early late).Carries early id :=
  ⟨fun _ ht => .inr ⟨ht, rfl⟩, fun _ _ _ => trivial⟩

theorem apart : (moving lines early late).Apart fun _ => True where
  eq _ _ h k := h.trans k.symm
  receiver := trivial
  receiver_eq h := h.symm

theorem allPlain (Γ : List Unit) : (moving lines early late).AllPlain Γ := fun _ _ => rfl

end Likeness.moving

section
variable {a b : String}

theorem parse_joined (ha : Accepted a) (hb : Accepted b) :
    (parse (scan (a ++ "\n" ++ b)).tokens).diagnostics = [] ∧ programOf (a ++ "\n" ++ b) =
      programOf a ++ Stmt.mapAll (·.moved (lineCount a)) id (programOf b) := by
  have hfirst := (parsed_iff_derives a _).mp ⟨ha.parsed, rfl⟩
  have hsecond := (parsed_iff_derives b _).mp ⟨hb.parsed, rfl⟩
  have hscan (source : String) (h : Accepted source) : (scan source).faults = [] :=
    List.map_eq_nil_iff.mp h.scanned
  rw [parsed_iff_derives, (scan_joined (hscan a ha) (hscan b hb)).1]
  have hmoved := hsecond.map_append (Token.keeps_moved (lineCount a)) []
  rw [List.append_nil] at hmoved
  have hfront := hfirst.map_append .id ((wordsOf b).map (·.moved (lineCount a)))
  have hid : Symbol.declarations.mapTree id (programOf a) = programOf a := Stmt.mapAll_id _
  rw [hid, List.map_id] at hfront
  exact hfront.declarations_append hmoved

/-- The walk over an accepted program ends as it started, but for the references. -/
theorem Accepted.walk (h : Accepted a) (known : String → Prop) (L : Likeness) :
    let w := (Stmt.resolveAll (programOf a) .start).2
    Walk.Alike L known (w.references.map (·.place)) [L.plain] .start w := by
  intro w
  have hreturns := (Stmt.resolveAll_upright (programOf a) .start).returns
  have hscopes : w.scopes = [] := List.eq_nil_of_length_eq_zero hreturns.depth
  have hfaults : w.faults = [] := List.reverse_eq_nil_iff.mp (List.map_eq_nil_iff.mp h.resolved)
  exact ⟨hscopes ▸ .global, hreturns.role, hreturns.inClass, hreturns.loops, by rw [hfaults]; rfl, rfl⟩

/-- Behind an accepted program, another one is resolved as it is alone. -/
theorem resolve_joined (ha : Accepted a) (hb : Accepted b) :
    (resolve (programOf (a ++ "\n" ++ b))).diagnostics = [] ∧
      (resolve (programOf (a ++ "\n" ++ b))).program = (resolve (programOf a)).program ++
        Stmt.mapAll (·.moved (lineCount a)) id (resolve (programOf b)).program := by
  let L := Likeness.moving (lineCount a) (fun _ => False) (· ∈ wordsOf b)
  let second := (resolve (programOf b)).program
  let moved := Stmt.mapAll (·.moved (lineCount a)) id second
  let w := (Stmt.resolveAll (programOf a) .start).2
  have halike : Stmt.AllAlike L [L.plain] second moved :=
    Stmt.allAlike_map Likeness.moving.carries_late (Likeness.moving.allPlain _) _
      (hb.resolved_words fun _ ht => ht)
  have hraw : Stmt.rawAll moved = Stmt.mapAll (·.moved (lineCount a)) id (programOf b) := by
    rw [← Stmt.rawAll_resolve (programOf b) .start, Stmt.rawAll, Stmt.mapAll_mapAll, Stmt.rawAll,
      Stmt.mapAll_mapAll]
    rfl
  have hcopies := Stmt.copiesAll Likeness.moving.apart (programOf b)
    (hb.words fun _ _ => trivial) halike (ha.walk _ L)
  rw [hraw] at hcopies
  have hjoined : Stmt.resolveAll (programOf (a ++ "\n" ++ b)) .start =
      ((resolve (programOf a)).program ++ moved,
        (Stmt.resolveAll (Stmt.mapAll (·.moved (lineCount a)) id (programOf b)) w).2) := by
    rw [(parse_joined ha hb).2, Stmt.resolveAll_append, hcopies.result]
    rfl
  refine ⟨?_, congrArg Prod.fst hjoined⟩
  have hsecond : (Stmt.resolveAll (programOf b) .start).2.faults = [] :=
    List.reverse_eq_nil_iff.mp (List.map_eq_nil_iff.mp hb.resolved)
  have hfaults := hcopies.walk.faults
  rw [hsecond, List.map_nil, List.map_eq_nil_iff] at hfaults
  have hall : (Stmt.resolveAll (programOf (a ++ "\n" ++ b)) .start).2.faults = [] := by
    rw [hjoined]
    exact hfaults
  change List.map _ (List.reverse (Stmt.resolveAll _ Walk.start).2.faults) = []
  rw [hall]
  rfl

theorem Accepted.joined (ha : Accepted a) (hb : Accepted b) : Accepted (a ++ "\n" ++ b) := by
  have hscan (source : String) (h : Accepted source) : (scan source).faults = [] :=
    List.map_eq_nil_iff.mp h.scanned
  refine ⟨?_, (parse_joined ha hb).1, (resolve_joined ha hb).1⟩
  exact List.map_eq_nil_iff.mpr (scan_joined (hscan a ha) (hscan b hb)).2

end
end LoxScript
