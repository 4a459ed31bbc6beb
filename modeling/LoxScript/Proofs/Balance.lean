import LoxScript.Proofs.PaddedWalk
import LoxScript.Proofs.Signals

/-!
What a walk gives back.

The state of a walk has registers, which are its scopes, its role, its class and its loops, and a
record of what it found. A step reads the registers only, and only adds to the record. An expression
leaves the registers as they were, and so does a statement, but for the names that it declares in
the innermost scope. At the top level there is no scope, so every statement of a program is walked
like the first one.
-/
namespace LoxScript

open Resolve Scope

namespace Scope.Walk

/-- The state of a walk without what it found. -/
def registers (w : Walk) : Walk := { w with faults := [], references := [] }

/-- The state of a walk whose record goes on from that of another one. -/
def behind (u w : Walk) : Walk :=
  { u with faults := u.faults ++ w.faults, references := u.references ++ w.references }

/-- The walk with some names defined in its innermost scope, if there is one. -/
def defining (w : Walk) (names : List String) : Walk :=
  { w with scopes := w.scopes.modifyHead fun scope => names.foldl (·.set · true) scope }

variable (u v w : Walk)

@[simp]
theorem registers_registers : w.registers.registers = w.registers := rfl

@[simp]
theorem registers_behind : (u.behind w).registers = u.registers := rfl

@[simp]
theorem registers_checked (q : Walk → Prop) [DecidablePred q] (t : Token) (cause : Cause) :
    (w.checked q t cause).registers = w.registers := rfl

theorem behind_behind : (v.behind u).behind w = v.behind (u.behind w) := by
  simp only [behind, List.append_assoc]

/-- A check sees the registers only. -/
theorem checked_behind {q : Walk → Prop} [DecidablePred q] (hq : ∀ w, q w ↔ q w.registers)
    (t : Token) (cause : Cause) :
    (w.registers.checked q t cause).behind w = w.checked q t cause := by
  by_cases h : q w
  · simp only [checked, if_pos h, if_pos ((hq w).mp h)]
    rfl
  · simp only [checked, if_neg h, if_neg fun hp => h ((hq w).mpr hp)]
    rfl

end Scope.Walk

namespace Resolve

/-- A step that adds to the record of a walk and does not read it. -/
def Records {α : Type} (c : Resolve α) : Prop :=
  ∀ w : Walk, c w = ((c w.registers).1, (c w.registers).2.behind w)

namespace Records
variable {α β : Type} {c : Resolve α}

theorem pure (a : α) : Records (Pure.pure a) := fun _ => rfl

theorem bind {k : α → Resolve β} (hc : Records c) (hk : ∀ a, Records (k a)) :
    Records (c >>= k) := by
  intro w
  let a := (c w.registers).1
  let u := (c w.registers).2
  have hfirst : c w = (a, u.behind w) := hc w
  have hlater : k a (u.behind w) = ((k a u.registers).1, (k a u.registers).2.behind (u.behind w)) :=
    hk a (u.behind w)
  have hregisters : k a u = ((k a u.registers).1, (k a u.registers).2.behind u) := hk a u
  show k (c w).1 (c w).2 = ((k a u).1, (k a u).2.behind w)
  rw [hfirst, hregisters, Walk.behind_behind]
  exact hlater

/-- A change of the registers. -/
theorem modifying {f : Walk → Walk} (hf : ∀ w, f w = (f w.registers).behind w) :
    Records (modify f) :=
  fun w => congrArg ((), ·) (hf w)

/-- A step may read the registers. -/
theorem reading {k : Walk → Resolve β} (hregisters : ∀ w, k w = k w.registers)
    (hk : ∀ w, Records (k w)) : Records (get >>= k) := by
  intro w
  show k w w = ((k w.registers w.registers).1, (k w.registers w.registers).2.behind w)
  rw [hregisters w]
  exact hk w.registers w

theorem report (t : Token) (cause : Cause) : Records (Resolve.report t cause) :=
  modifying fun _ => rfl

theorem check {q : Walk → Prop} [DecidablePred q] {t : Token} {cause : Cause} {k : Resolve β}
    (hq : ∀ w, q w ↔ q w.registers) (hk : Records k) :
    Records (do
      if q (← get) then Resolve.report t cause
      k) := by
  intro w
  rw [check_eq, check_eq, hk (w.checked q t cause), hk (w.registers.checked q t cause)]
  simp only [Walk.registers_checked, Walk.registers_registers, Walk.behind_behind,
    Walk.checked_behind w hq]

theorem declare (t : Token) : Records (Resolve.declare t) := by
  intro w
  refine Prod.ext rfl ?_
  have hchecked := Walk.checked_behind w (q := (·.scopes.head?.any (·.has t.lexeme)))
    (fun _ => Iff.rfl) t .alreadyDeclared
  show (Resolve.declare t w).2 = (Resolve.declare t w.registers).2.behind w
  rw [declare_run, declare_run, ← hchecked]
  rfl

theorem define (t : Token) : Records (Resolve.define t) := by
  intro w
  refine Prod.ext rfl ?_
  show (Resolve.define t w).2 = (Resolve.define t w.registers).2.behind w
  rw [define_run, define_run]
  rfl

theorem declareAll (ts : List Token) : Records (Resolve.declareAll ts) := by
  induction ts with
  | nil => exact pure ()
  | cons t ts ih => exact bind (declare t) fun _ => bind (define t) fun _ => ih

theorem refer (form : Form) (t : Token) (name : String) : Records (Resolve.refer form t name) := by
  intro w
  have hscopes : w.registers.scopes = w.scopes := rfl
  simp only [refer_eq, hscopes]
  simp only [Walk.behind, Walk.registers, List.append_nil, List.nil_append]

theorem inScope {names : Bindings Bool} (hc : Records c) : Records (Resolve.inScope names c) :=
  bind (modifying fun _ => rfl) fun _ => bind hc fun _ =>
    bind (modifying fun _ => rfl) fun _ => pure _

theorem inLoop (hc : Records c) : Records (Resolve.inLoop c) :=
  bind (modifying fun _ => rfl) fun _ => bind hc fun _ =>
    bind (modifying fun _ => rfl) fun _ => pure _

theorem inFunction {role : Role} {params : List Token} (hc : Records c) :
    Records (Resolve.inFunction role params c) :=
  reading (fun _ => rfl) fun _ => bind (modifying fun _ => rfl) fun _ =>
    bind (inScope (bind (declareAll params) fun _ => hc)) fun _ =>
      bind (modifying fun _ => rfl) fun _ => pure _

theorem inClass {name : Token} (hc : Records c) : Records (Resolve.inClass name c) :=
  reading (fun _ => rfl) fun _ => bind (modifying fun _ => rfl) fun _ =>
    bind (declare name) fun _ => bind (define name) fun _ => bind (inScope hc) fun _ =>
      bind (modifying fun _ => rfl) fun _ => pure _

end Records
end Resolve

/-! ### Nodes -/

mutual

theorem Expr.resolve_records : (e : RawExpr) → e.resolve.Records
  | .literal _ => .pure _
  | .grouping inner => .bind inner.resolve_records fun _ => .pure _
  | .unary _ right => .bind right.resolve_records fun _ => .pure _
  | .binary left _ right =>
    .bind left.resolve_records fun _ => .bind right.resolve_records fun _ => .pure _
  | .logical left _ right =>
    .bind left.resolve_records fun _ => .bind right.resolve_records fun _ => .pure _
  | .variable name _ =>
    .check (q := fun w => isPending w.scopes name.lexeme) (fun _ => Iff.rfl) <|
      .bind (.refer .variable name name.lexeme) fun _ => .pure _
  | .assign name _ value _ =>
    .bind value.resolve_records fun _ => .bind (.refer .assign name name.lexeme) fun _ => .pure _
  | .call callee _ arguments =>
    .bind callee.resolve_records fun _ => .bind (Expr.resolveAll_records arguments) fun _ => .pure _
  | .get object _ => .bind object.resolve_records fun _ => .pure _
  | .set object _ _ value =>
    .bind value.resolve_records fun _ => .bind object.resolve_records fun _ => .pure _
  | .this keyword _ => by
    refine .reading (fun _ => rfl) fun w => ?_
    by_cases h : w.inClass
    · rw [if_pos h]
      exact .bind (.refer .this keyword receiverName) fun _ => .pure _
    · rw [if_neg h]
      exact .bind (.report keyword .thisOutsideClass) fun _ => .pure _
  | .function none _ body => .bind (.inFunction (Stmt.resolveAll_records body)) fun _ => .pure _
  | .function (some name) _ body =>
    .bind (.inScope (.bind (.declare name) fun _ => .bind (.define name) fun _ =>
      .inFunction (Stmt.resolveAll_records body))) fun _ => .pure _

theorem Expr.resolveAll_records : (es : List RawExpr) → (Expr.resolveAll es).Records
  | [] => .pure _
  | e :: es => .bind e.resolve_records fun _ => .bind (Expr.resolveAll_records es) fun _ => .pure _

theorem Stmt.resolve_records : (s : RawStmt) → s.resolve.Records
  | .expression value => .bind value.resolve_records fun _ => .pure _
  | .print value => .bind value.resolve_records fun _ => .pure _
  | .varDecl name none => .bind (.declare name) fun _ => .bind (.define name) fun _ => .pure _
  | .varDecl name (some value) =>
    .bind (.declare name) fun _ => .bind value.resolve_records fun _ =>
      .bind (.define name) fun _ => .pure _
  | .block body => .bind (.inScope (Stmt.resolveAll_records body)) fun _ => .pure _
  | .ifElse condition yes none =>
    .bind condition.resolve_records fun _ => .bind yes.resolve_records fun _ => .pure _
  | .ifElse condition yes (some no) =>
    .bind condition.resolve_records fun _ => .bind yes.resolve_records fun _ =>
      .bind no.resolve_records fun _ => .pure _
  | .loop condition body none =>
    .bind condition.resolve_records fun _ => .bind (.inLoop body.resolve_records) fun _ => .pure _
  | .loop condition body (some increment) =>
    .bind condition.resolve_records fun _ => .bind (.inLoop body.resolve_records) fun _ =>
      .bind increment.resolve_records fun _ => .pure _
  | .breakLoop _ => .check (q := (·.loops = 0)) (fun _ => Iff.rfl) (.pure _)
  | .continueLoop _ => .check (q := (·.loops = 0)) (fun _ => Iff.rfl) (.pure _)
  | .returnFrom _ none => .check (q := (·.role = .topLevel)) (fun _ => Iff.rfl) (.pure _)
  | .returnFrom _ (some value) =>
    .check (q := (·.role = .topLevel)) (fun _ => Iff.rfl) <|
      .check (q := (·.role = .initializer)) (fun _ => Iff.rfl) <|
        .bind value.resolve_records fun _ => .pure _
  | .functionDecl name _ body =>
    .bind (.declare name) fun _ => .bind (.define name) fun _ =>
      .bind (.inFunction (Stmt.resolveAll_records body)) fun _ => .pure _
  | .classDecl _ methods => .bind (.inClass (Method.resolveAll_records methods)) fun _ => .pure _

theorem Stmt.resolveAll_records : (ss : List RawStmt) → (Stmt.resolveAll ss).Records
  | [] => .pure _
  | s :: ss => .bind s.resolve_records fun _ => .bind (Stmt.resolveAll_records ss) fun _ => .pure _

theorem Method.resolveAll_records : (ms : List RawMethod) → (Method.resolveAll ms).Records
  | [] => .pure _
  | .mk _ _ body :: ms =>
    .bind (.bind (.inFunction (Stmt.resolveAll_records body)) fun _ => .pure _) fun _ =>
      .bind (Method.resolveAll_records ms) fun _ => .pure _

end

/-- Declarations define their names in the innermost scope of a context. -/
theorem Context.scopes_declare (Γ : Context) (names : List String) :
    (Γ.declare names).map (·.scope) =
      (Γ.map (·.scope)).modifyHead fun scope => names.foldl (·.set · true) scope := by
  cases Γ with
  | nil => rw [declare_nil]; rfl
  | cons l Γ => rw [declare_cons]; rfl

/-- An expression gives the registers back. -/
theorem Expr.resolve_registers (e : RawExpr) (w : Walk) :
    (e.resolve w).2.registers = w.registers := by
  have hreturns := (e.resolve_upright w).returns
  simp only [Walk.registers, (e.resolve_leaves w).scopes, hreturns.role, hreturns.inClass,
    hreturns.loops]

/-- A statement gives the registers back, with its names defined. -/
theorem Stmt.resolve_registers (s : RawStmt) (w : Walk) :
    (s.resolve w).2.registers = (w.defining s.declares).registers := by
  have hreturns := (s.resolve_upright w).returns
  have hS := Lookout.ofWalk_stands w
  have hwalk : (s.resolve w).2 = (s.watch [] (.ofWalk w)).2.walk :=
    congrArg Prod.snd (s.watch_erases [] (.ofWalk w))
  have hscopes : (s.resolve w).2.scopes = (w.defining s.declares).scopes := by
    rw [hwalk, (s.watch_shows (p := []) hS).stands.scopes, Context.scopes_declare, ← hS.scopes]
    rfl
  simp only [Walk.registers, hscopes, hreturns.role, hreturns.inClass, hreturns.loops]
  rfl

/-- Where declarations stand in bodies only, a statement declares nothing but its own name. -/
theorem Stmt.declares_own {ρ : Type} (s : Stmt ρ) (h : (Node.stmt s).Shaped) :
    s.declares = (s.declared?.map (·.lexeme)).toList := by
  cases s with
  | ifElse condition yes no =>
    cases no with
    | none => exact h.1
    | some no =>
      show yes.declares ++ no.declares = []
      rw [h.1, h.2 no rfl, List.append_nil]
  | loop condition body increment => exact h
  | _ => rfl

/-- A statement at the top level leaves the registers of the start. -/
theorem Stmt.resolve_start (s : RawStmt) : (s.resolve .start).2.registers = .start :=
  s.resolve_registers .start

/-- The statements behind the first one are walked from the start too, and what they add stands in
front of its record, which is written from the end. -/
theorem Stmt.resolveAll_start (s : RawStmt) (ss : List RawStmt) :
    Stmt.resolveAll (s :: ss) .start =
      ((s.resolve .start).1 :: (Stmt.resolveAll ss .start).1,
        (Stmt.resolveAll ss .start).2.behind (s.resolve .start).2) := by
  have hrest := Stmt.resolveAll_records ss (s.resolve .start).2
  rw [s.resolve_start] at hrest
  exact congrArg (fun r : List ResolvedStmt × Walk => ((s.resolve .start).1 :: r.1, r.2)) hrest

/-- A program is resolved a statement at a time. -/
theorem resolve_cons (s : RawStmt) (ss : List RawStmt) :
    resolve (s :: ss) = ⟨(resolve [s]).program ++ (resolve ss).program,
      (resolve [s]).references ++ (resolve ss).references,
      (resolve [s]).diagnostics ++ (resolve ss).diagnostics⟩ := by
  simp only [resolve, StateT.run, Stmt.resolveAll_start s ss, Walk.behind, List.reverse_append,
    List.map_append]
  rfl

/-- The walk is balanced. An expression leaves the registers as they were, with all that the scopes
hold. So does a statement, but for the names that it declares, which are then defined in the
innermost scope if there is one; where declarations stand in bodies only, as in all that is parsed,
these are the name of a declaration and nothing else. It does not matter which faults are found or
were found before. So a program ends with the registers with which it began, and each of its
statements is resolved as if it stood alone. -/
theorem walk_balanced :
    (∀ (e : RawExpr) (w : Walk), (e.resolve w).2.registers = w.registers) ∧
    (∀ (s : RawStmt) (w : Walk), (s.resolve w).2.registers = (w.defining s.declares).registers) ∧
    (∀ s : RawStmt, (Node.stmt s).Shaped →
      s.declares = (s.declared?.map (·.lexeme)).toList) ∧
    ∀ program : List RawStmt,
      (Stmt.resolveAll program .start).2.registers = .start ∧
        (resolve program).program = program.flatMap (fun s => (resolve [s]).program) ∧
        (resolve program).references = program.flatMap (fun s => (resolve [s]).references) ∧
        (resolve program).diagnostics = program.flatMap (fun s => (resolve [s]).diagnostics) := by
  refine ⟨Expr.resolve_registers, Stmt.resolve_registers, Stmt.declares_own, fun program => ?_⟩
  induction program with
  | nil => exact ⟨rfl, rfl, rfl, rfl⟩
  | cons s ss ih =>
    obtain ⟨hregisters, hprogram, hreferences, hdiagnostics⟩ := ih
    rw [resolve_cons, List.flatMap_cons, List.flatMap_cons, List.flatMap_cons, ← hprogram,
      ← hreferences, ← hdiagnostics]
    refine ⟨?_, rfl, rfl, rfl⟩
    rw [Stmt.resolveAll_start, Walk.registers_behind]
    exact hregisters

/-- A variable that is declared for a second time and read in its own initializer, in a loop of a
method: two faults are found, and the registers are what they were. -/
theorem walk_balanced_faulty :
    let name : Token := ⟨.identifier, "a", .nil, 1, some 4⟩
    let s : RawStmt := .varDecl name (some (.variable name ()))
    let w : Walk := ⟨[[("b", true), ("a", true)], [("this", true)]], .method, true, 1, [], []⟩
    (Node.stmt s).Shaped ∧ s.declares = ["a"] ∧ (s.resolve w).2.registers = w ∧
      (s.resolve w).2.faults.map (·.cause) = [.readInInitializer, .alreadyDeclared] ∧
      (resolve [s, s]).references = (resolve [s]).references ++ (resolve [s]).references := by
  intro name s w
  obtain ⟨-, hstatement, hown, hprogram⟩ := walk_balanced
  have hshaped : (Node.stmt s).Shaped := (by decide : "a" ≠ receiverName)
  refine ⟨hshaped, hown s hshaped, hstatement s w, by decide, ?_⟩
  simpa using (hprogram [s, s]).2.2.1

end LoxScript
