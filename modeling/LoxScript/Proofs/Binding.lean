import LoxScript.Proofs.Placement
import LoxScript.Proofs.References

/-!
To what the references of an accepted program are bound.

A name that a reference finds in a scope has been defined there, unless the reference stands in the
initializer of that very variable. A scope that the reference passes over does not come to bind the
name, unless it declares the name behind a function in which the reference stands.
-/
namespace LoxScript

open Resolve Scope

namespace Spot

/-- The scope to which a reference is bound, and the name. -/
def binding? (x : Spot) : Option (Site × String) :=
  match x.reference? with
  | some (name, some d) => x.context[d]?.map fun l => (l.site, name)
  | _ => none

/-- A reference in the initializer of a local variable that is bound to that variable. -/
def OwnReference (number : Nat) (source : String) (x : Spot) : Prop :=
  ∃ site name, x.Initializes number source site name ∧ x.binding? = some (site, name)

/-- Whether a node is a variable or a compound assignment to one. -/
def readsVariable (x : Spot) : Bool :=
  match x.node with
  | .expr (.variable _ _) => true
  | .expr (.assign _ operator _ _) => operator.isSome
  | _ => false

/-- A scope declares a name behind a function, in which a reference to that name is bound outside of
the scope or left global. -/
inductive LateDeclaration (number : Nat) (source : String) : Prop
  | intro {z x : Spot} {p : Path} {Γ : Context} {body : List ResolvedStmt} {k j : Nat}
      {s later : ResolvedStmt} {name : String} {mark : Option Nat} (scope : z.In number source)
      (opened : (p, Γ, body) ∈ z.bodies) (stmt : body[k]? = some s)
      (function : (statement p Γ body k s).InFunction x)
      (reference : x.reference? = some (name, mark))
      (outside : ∀ d, mark = some d → x.context.length < d + Γ.length) (order : k < j)
      (other : body[j]? = some later) (declares : name ∈ later.declares)

section
variable {number : Nat} {source : String} {x : Spot}

theorem In.sighted (hsource : Accepted source) (hx : x.In number source) :
    ∃ g : Sighting, g.Shows x ∧ (g.node.resolve g.walk).2.faults = [] := by
  obtain ⟨root, hroot, hwithin⟩ := hx
  obtain ⟨g, -, hshows, hfaults⟩ := sightings_show number (programOf source) root hroot x hwithin
  rw [(faults_eq_nil_iff _).mpr hsource.resolved] at hfaults
  exact ⟨g, hshows, List.suffix_nil.mp hfaults⟩

theorem target?_of_reference? {name : String} {mark : Option Nat} (hshape : x.node.Shaped)
    (h : x.reference? = some (name, mark)) : x.node.target? = some (name, mark) := by
  obtain ⟨p, Γ, n⟩ := x
  cases n with
  | expr e =>
    cases e with
    | this keyword distance =>
      have hkeyword : keyword.lexeme = receiverName := hshape
      rw [← h]
      simp only [Node.target?, reference?, Node.referred?, Option.map_some, hkeyword]
    | «variable» token distance => exact h
    | assign token operator value distance => exact h
    | _ => cases h
  | stmt s => cases h

/-- A reference is marked with the distance of the innermost scope that has the name. -/
theorem In.mark (hsource : Accepted source) (hx : x.In number source) {name : String}
    {mark : Option Nat} (h : x.reference? = some (name, mark)) :
    mark = distance? (x.context.map (·.scope)) name := by
  obtain ⟨g, hshows, hfaults⟩ := hx.sighted hsource
  have htarget := target?_of_reference? (hsource.shaped hx) h
  rw [← hshows.node] at htarget
  rw [← hshows.scopes]
  rcases mark_of_target? htarget with hmark | ⟨-, hfaulty⟩
  · exact hmark
  · exact absurd hfaults hfaulty

theorem In.fresh (hsource : Accepted source) (hx : x.In number source) {name : String}
    (h : x.declares? = some name) {l : Layer} (hl : x.context.head? = some l) :
    l.scope.get? name = none := by
  obtain ⟨g, hshows, hfaults⟩ := hx.sighted hsource
  have hscope : g.walk.scopes.head? = some l.scope := by
    rw [hshows.scopes, List.head?_map, hl]
    rfl
  obtain ⟨q, n, w, sites⟩ := g
  have hnode := hshows.node
  cases n with
  | expr e =>
    unfold declares? at h
    rw [← hnode] at h
    cases h
  | stmt s =>
    have hdeclared : (s.resolve w).1.declared?.map (·.lexeme) = some name := by
      unfold declares? at h
      rw [← hnode] at h
      exact h
    rw [Stmt.declared?_resolve, Option.map_eq_some_iff] at hdeclared
    obtain ⟨token, htoken, rfl⟩ := hdeclared
    obtain ⟨w', hscopes, hsuffix⟩ := Stmt.resolve_declared htoken w
    have hnone : (declare token w').2.faults = [] := by
      refine List.suffix_nil.mp ?_
      rw [← hfaults]
      exact hsuffix
    exact declare_new hnone (by rw [hscopes]; exact hscope)

/-- A reference that stands in no initializer of the variable to which it is bound finds the
name defined. -/
theorem In.binds (hsource : Accepted source) (hx : x.In number source) {name : String} {d : Nat}
    (h : x.reference? = some (name, some d))
    (hown : ∀ site, x.binding? = some (site, name) → ¬ x.Initializes number source site name) :
    x.context.Binds d name := by
  obtain ⟨⟨scope, hscope, hhas⟩, -⟩ := distance?_eq_some (hx.mark hsource h).symm
  rw [List.getElem?_map, Option.map_eq_some_iff] at hscope
  obtain ⟨l, hl, rfl⟩ := hscope
  have hbinding : x.binding? = some (l.site, name) := by
    simp only [binding?, h, hl, Option.map_some]
  obtain ⟨defined, hdefined⟩ := (Bindings.has_iff _ _).mp hhas
  cases defined with
  | true => exact ⟨l, hl, hdefined⟩
  | false => exact absurd (hx.pending hsource d l hl name hdefined) (hown l.site hbinding)

theorem In.reaches (hsource : Accepted source) (hx : x.In number source) {name : String} {d : Nat}
    (h : x.reference? = some (name, some d)) : d < x.context.length := by
  have hlt := distance?_lt (hx.mark hsource h).symm
  rwa [List.length_map] at hlt

theorem Initializes.ne_receiver (hsource : Accepted source) {site : Site} {name : String}
    (h : x.Initializes number source site name) : name ≠ receiverName := by
  obtain ⟨z, start, l, hz, hstart, -⟩ := h
  have hshape := hsource.shaped hz
  unfold initializer? at hstart
  split at hstart
  next token value hnode =>
    cases hstart
    rw [hnode] at hshape
    exact hshape
  next => cases hstart

theorem reads_cases {name : String} {d : Nat} (hshape : x.node.Shaped)
    (h : x.reference? = some (name, some d)) (hreads : x.reads) :
    x.readsVariable ∨ name = receiverName := by
  obtain ⟨p, Γ, n⟩ := x
  cases n with
  | expr e =>
    cases e with
    | this keyword distance =>
      have hkeyword : keyword.lexeme = receiverName := hshape
      cases h
      exact .inr hkeyword
    | «variable» token distance => exact .inl rfl
    | assign token operator value distance => exact .inl hreads
    | _ => cases h
  | stmt s => cases h

/-- Where no variable is read in its own initializer, all that is read has been defined. -/
theorem In.safe (hsource : Accepted source)
    (hown : ∀ y : Spot, y.readsVariable → ¬ y.OwnReference number source)
    (hx : x.In number source) : x.Safe := by
  have hshape := hsource.shaped hx
  refine ⟨hshape, fun name d h hreads => hx.binds hsource h fun site hsite hinside => ?_,
    fun name d h => hx.reaches hsource h⟩
  rcases reads_cases hshape h hreads with hvariable | rfl
  · exact hown x hvariable ⟨site, name, hinside, hsite⟩
  · exact hinside.ne_receiver hsource rfl

/-- A scope that a reference passes over does not come to bind the name. -/
theorem In.not_mayBind (hsource : Accepted source) (hlate : ¬ LateDeclaration number source)
    (hx : x.In number source) {name : String} {mark : Option Nat}
    (h : x.reference? = some (name, mark)) {i : Nat} {l : Layer} (hl : x.context[i]? = some l)
    (hnone : l.scope.has name = false) (hpassed : ∀ d, mark = some d → i < d) :
    ¬ l.MayBind name := by
  intro hbinds
  unfold Layer.MayBind at hbinds
  split at hbinds
  next hactive =>
    rw [(Bindings.has_eq_false_iff _ _).mp hnone] at hbinds
    cases hbinds
  next hsealed =>
    -- What a scope around the function declares and has not passed, it declares behind it.
    rcases hx.foreseen hsource i l hl name hbinds with hhas | ⟨-, hactive, -⟩ | hbehind
    · rw [hnone] at hhas
      cases hhas
    · exact hsealed hactive
    · cases hbehind with
      | intro scope opened stmt inside order other declares depth function =>
        refine hlate (.intro scope opened stmt (function.resolve_left hsealed) h (fun d hd => ?_)
          order other declares)
        have hlt := hpassed d hd
        omega

/-- Where no reference is bound to the variable whose initializer it is in, and no scope
declares a name too late, a reference leads to the frame that a search would find. -/
theorem In.exact (hsource : Accepted source) (hown : ∀ y : Spot, ¬ y.OwnReference number source)
    (hlate : ¬ LateDeclaration number source) (hx : x.In number source) : x.Exact where
  found name d h := hx.binds hsource h fun site hsite hinside => hown x ⟨site, name, hinside, hsite⟩
  nearest name d h i hi l hl := by
    refine hx.not_mayBind hsource hlate h hl ?_ fun d' hd' => by cases hd'; exact hi
    refine (distance?_eq_some (hx.mark hsource h).symm).2 i hi l.scope ?_
    rw [List.getElem?_map, hl]
    rfl
  global name h l hl := by
    obtain ⟨i, hi⟩ := List.mem_iff_getElem?.mp hl
    refine hx.not_mayBind hsource hlate h hi ?_ fun d hd => by cases hd
    exact distance?_eq_none (hx.mark hsource h).symm l.scope (List.mem_map_of_mem hl)
  fresh name h l hl :=
    ⟨(hx.declaring hsource h hl).1, (hx.declaring hsource h hl).2, hx.fresh hsource h hl⟩

end

/-- Checks a spot and all that is inside it, if nothing is nested deeper than `depth` there. -/
def checkAll (test : Spot → Bool) : Nat → Spot → Bool
  | 0, _ => false
  | depth + 1, x => test x && x.children.all (checkAll test depth)

theorem checkAll_within {test : Spot → Bool} {depth : Nat} {x y : Spot}
    (h : x.checkAll test depth) (hy : x.Within y) : test y := by
  induction depth generalizing x with
  | zero => cases h
  | succ depth ih =>
    simp only [checkAll, Bool.and_eq_true, List.all_eq_true] at h
    rcases hy.cases_head with rfl | ⟨z, hz, hwithin⟩
    · exact h.1
    · exact ih (h.2 z hz) hwithin

def checkProgram (test : Spot → Bool) (depth number : Nat) (source : String) : Bool :=
  (stmts [number] 0 [] (resolve (programOf source)).program).all (checkAll test depth)

theorem In.checked {test : Spot → Bool} {depth number : Nat} {source : String} {x : Spot}
    (h : checkProgram test depth number source) (hx : x.In number source) : test x := by
  obtain ⟨root, hroot, hwithin⟩ := hx
  exact checkAll_within (List.all_eq_true.mp h root hroot) hwithin

def mentions (names : List String) (x : Spot) : Bool :=
  x.reference?.any fun r => r.1 ∈ names

/-- Whether no initializer mentions the variable that it is for. -/
def ownFree (depth : Nat) (z : Spot) : Bool :=
  z.initializer?.all fun (name, start) => start.checkAll (fun x => !x.mentions [name]) depth

/-- Whether no statement of a scope mentions what a later one declares. -/
def lateFree (depth : Nat) (z : Spot) : Bool :=
  z.bodies.all fun (p, Γ, body) => body.zipIdx.all fun (s, k) =>
    (statement p Γ body k s).checkAll (fun x => !x.mentions (declared (body.drop (k + 1)))) depth

theorem ownReference_free (depth : Nat) {number : Nat} {source : String}
    (h : checkProgram (ownFree depth) depth number source) (x : Spot) :
    ¬ x.OwnReference number source := by
  rintro ⟨site, name, ⟨z, start, l, hz, hstart, -, -, hwithin⟩, hbinding⟩
  have hfree := hz.checked h
  simp only [ownFree, hstart, Option.all_some] at hfree
  have hnot := checkAll_within hfree hwithin
  unfold binding? at hbinding
  split at hbinding
  next other d hreference =>
    obtain ⟨e, -, he⟩ := Option.map_eq_some_iff.mp hbinding
    cases he
    simp [mentions, hreference] at hnot
  next => cases hbinding

theorem lateDeclaration_free (depth : Nat) {number : Nat} {source : String}
    (h : checkProgram (lateFree depth) depth number source) :
    ¬ LateDeclaration number source := by
  rintro ⟨hz, hopened, hstmt, ⟨f, w, hf, -, hw, hx⟩, hreference, -, horder, hother, hdeclares⟩
  rename_i body k j s later name mark
  have hfree := List.all_eq_true.mp (hz.checked h) _ hopened
  have hmem : (s, k) ∈ body.zipIdx := List.mem_zipIdx_iff_getElem?.mpr hstmt
  have hnot := checkAll_within (List.all_eq_true.mp hfree _ hmem) ((hf.tail hw).trans hx)
  have hlater : later ∈ body.drop (k + 1) := by
    refine List.mem_iff_getElem?.mpr ⟨j - (k + 1), ?_⟩
    rw [List.getElem?_drop, ← hother]
    congr 1
    omega
  have hname : name ∈ declared (body.drop (k + 1)) := List.mem_flatMap.mpr ⟨later, hlater, hdeclares⟩
  simp [mentions, hreference, hname] at hnot

end Spot
end LoxScript
