import LoxScript.Proofs.Sightings

/-!
What a walk records at a reference and at a declaration.
-/
namespace LoxScript

open Resolve Scope

/-- The name by which a reference was looked up, and its mark. -/
def Node.target? : Node (Option Nat) → Option (String × Option Nat)
  | .expr (.variable name mark) => some (name.lexeme, mark)
  | .expr (.assign name _ _ mark) => some (name.lexeme, mark)
  | .expr (.this _ mark) => some (receiverName, mark)
  | _ => none

theorem distance?_eq_some {scopes : List (Bindings Bool)} {name : String} {d : Nat}
    (h : distance? scopes name = some d) : (∃ scope, scopes[d]? = some scope ∧ scope.has name) ∧
      ∀ i < d, ∀ scope, scopes[i]? = some scope → scope.has name = false := by
  obtain ⟨hlt, hhas, hleast⟩ := List.findIdx?_eq_some_iff_getElem.mp h
  refine ⟨⟨scopes[d], List.getElem?_eq_getElem hlt, hhas⟩, fun i hi scope hscope => ?_⟩
  obtain ⟨hi', rfl⟩ := List.getElem?_eq_some_iff.mp hscope
  simpa using hleast i hi

theorem distance?_lt {scopes : List (Bindings Bool)} {name : String} {d : Nat}
    (h : distance? scopes name = some d) : d < scopes.length :=
  (List.findIdx?_eq_some_iff_findIdx_eq.mp h).1

theorem distance?_eq_none {scopes : List (Bindings Bool)} {name : String}
    (h : distance? scopes name = none) : ∀ scope ∈ scopes, scope.has name = false := by
  intro scope hscope
  simpa using List.findIdx?_eq_none_iff.mp h scope hscope

/-- A walk records the distance of the scope in which it finds a name. It records none for
a receiver outside of classes, which is a fault. -/
theorem mark_of_target? {n : Node Unit} {w : Walk} {name : String} {mark : Option Nat}
    (h : (n.resolve w).1.target? = some (name, mark)) :
    mark = distance? w.scopes name ∨ (mark = none ∧ (n.resolve w).2.faults ≠ []) := by
  cases n with
  | expr e =>
    have hnode : ((Node.expr e).resolve w).1 = .expr (e.resolve w).1 := rfl
    rw [hnode] at h
    match e with
    | .variable token _ =>
      rw [(Expr.resolve_variable token _ w).1] at h
      obtain ⟨rfl, hmark⟩ : token.lexeme = name ∧ distance? w.scopes token.lexeme = mark := by
        simpa [Node.target?] using h
      exact .inl hmark.symm
    | .assign token operator value _ =>
      have hrun : ((Expr.assign token operator value ()).resolve w).1 = .assign token operator
          (value.resolve w).1 (refer .assign token token.lexeme (value.resolve w).2).1 := rfl
      rw [hrun, (refer_run _ _ _ _).1, (value.resolve_leaves w).scopes] at h
      obtain ⟨rfl, hmark⟩ : token.lexeme = name ∧ distance? w.scopes token.lexeme = mark := by
        simpa [Node.target?] using h
      exact .inl hmark.symm
    | .this keyword _ =>
      rw [(Expr.resolve_this keyword _ w).1] at h
      obtain ⟨rfl, hmark⟩ : receiverName = name ∧
          (if w.inClass then distance? w.scopes receiverName else none) = mark := by
        simpa [Node.target?] using h
      by_cases hclass : w.inClass
      · rw [if_pos hclass] at hmark
        exact .inl hmark.symm
      · rw [if_neg hclass] at hmark
        refine .inr ⟨hmark.symm, ?_⟩
        have hfaults : ((Node.expr (.this keyword ())).resolve w).2.faults =
            ⟨keyword, .thisOutsideClass⟩ :: w.faults := Expr.resolve_this_outside keyword () hclass
        rw [hfaults]
        exact List.cons_ne_nil _ _
    | .function none _ _ => cases h
    | .function (some _) _ _ => cases h
    | .literal _ => cases h
    | .grouping _ => cases h
    | .unary _ _ => cases h
    | .binary _ _ _ => cases h
    | .logical _ _ _ => cases h
    | .call _ _ _ => cases h
    | .get _ _ => cases h
    | .set _ _ _ _ => cases h
  | stmt s => cases h

theorem distance?_of_target? {n : Node Unit} {w : Walk} {name : String} {d : Nat}
    (h : (n.resolve w).1.target? = some (name, some d)) : distance? w.scopes name = some d := by
  rcases mark_of_target? h with hmark | ⟨hnone, -⟩
  · exact hmark.symm
  · cases hnone

theorem declare_new {name : Token} {w : Walk} (h : (declare name w).2.faults = [])
    {scope : Bindings Bool} (hscope : w.scopes.head? = some scope) : scope.get? name.lexeme = none := by
  cases hscopes : w.scopes with
  | nil =>
    rw [hscopes] at hscope
    cases hscope
  | cons first outer =>
    rw [hscopes] at hscope
    cases hscope
    by_contra hsome
    have hhas : scope.has name.lexeme := Option.isSome_iff_ne_none.mpr hsome
    simp only [declare, Bind.bind, StateT.bind, get, getThe, MonadStateOf.get, StateT.get, Pure.pure,
      hscopes, hhas, if_true] at h
    cases h

theorem define_faults (name : Token) (w : Walk) : (define name w).2.faults = w.faults := by
  rw [define_run]

theorem inFunction_faults (role : Role) (params : List Token) (body : List RawStmt) (w : Walk) :
    w.faults <:+ (inFunction role params (Stmt.resolveAll body) w).2.faults :=
  (Watch.Shows.inFunction (Lookout.ofWalk_stands w) fun m
    (hM : m.Stands (.body [] (params.map (·.lexeme)) body :: _)) =>
      Stmt.watchAll_shows 0 body hM).faults
    (.inFunction _ _ _ (Stmt.watchAll_erases [] 0 body))

theorem inReceiver_faults (methods : List RawMethod) (w : Walk) :
    w.faults <:+ (inScope [(receiverName, true)] (Method.resolveAll methods) w).2.faults :=
  (Watch.Shows.inScope (e := .receiver [0]) []
    (Lookout.stands_sealed.mpr (Lookout.ofWalk_stands w)) fun _ hM =>
      Method.watchAll_shows (p := []) 0 methods hM).faults
    (.inScope _ _ (Method.watchAll_erases [] 0 methods))

theorem Stmt.declared?_resolve (s : RawStmt) (w : Walk) :
    (s.resolve w).1.declared? = s.declared? := by
  cases s with
  | varDecl name value => cases value <;> rfl
  | ifElse condition yes no => cases no <;> rfl
  | loop condition body increment => cases increment <;> rfl
  | breakLoop keyword =>
    rw [Stmt.resolve_breakLoop]
    rfl
  | continueLoop keyword =>
    rw [Stmt.resolve_continueLoop]
    rfl
  | returnFrom keyword value =>
    cases value with
    | none =>
      rw [Stmt.resolve_returnNothing]
      rfl
    | some value =>
      obtain ⟨w', h⟩ := Stmt.resolve_returnValue keyword value w
      rw [h]
      rfl
  | _ => rfl

/-- A declaration begins with its name, and keeps the fault that it finds there. -/
theorem Stmt.resolve_declared {s : RawStmt} {token : Token} (h : s.declared? = some token)
    (w : Walk) : ∃ w', w'.scopes = w.scopes ∧
      (declare token w').2.faults <:+ (s.resolve w).2.faults := by
  cases s with
  | varDecl name value =>
    cases h
    refine ⟨w, rfl, ?_⟩
    cases value with
    | none =>
      have hrun : ((Stmt.varDecl token none).resolve w).2 = (define token (declare token w).2).2 := rfl
      simp only [hrun, define_faults, List.suffix_refl]
    | some value =>
      have hrun : ((Stmt.varDecl token (some value)).resolve w).2 =
          (define token (value.resolve (declare token w).2).2).2 := rfl
      rw [hrun, define_faults]
      exact (value.resolve_leaves _).faults
  | functionDecl name params body =>
    cases h
    refine ⟨w, rfl, ?_⟩
    have hrun : ((Stmt.functionDecl token params body).resolve w).2 =
        (inFunction .function params (Stmt.resolveAll body) (define token (declare token w).2).2).2 :=
      rfl
    rw [hrun, ← define_faults token (declare token w).2]
    exact inFunction_faults _ _ _ _
  | classDecl name methods =>
    cases h
    refine ⟨{ w with inClass := true }, rfl, ?_⟩
    have hrun : ((Stmt.classDecl token methods).resolve w).2.faults =
        (inScope [(receiverName, true)] (Method.resolveAll methods)
          (define token (declare token { w with inClass := true }).2).2).2.faults := rfl
    rw [hrun, ← define_faults token (declare token { w with inClass := true }).2]
    exact inReceiver_faults _ _
  | _ => cases h

end LoxScript
