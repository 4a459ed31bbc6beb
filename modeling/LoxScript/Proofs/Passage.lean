import LoxScript.Proofs.Watch

/-!
A walk comes to every place of a program at most once.
-/
namespace LoxScript

open Resolve Scope

/-- A path that leads through some of the children of a node. -/
def Under (p : Path) (chosen : Nat → Prop) (q : Path) : Prop := ∃ i, chosen i ∧ (i :: p) <:+ q

theorem child_unique {p q : Path} {i j : Nat} (hi : (i :: p) <:+ q) (hj : (j :: p) <:+ q) :
    i = j := by
  have h : (i :: p) <:+ (j :: p) := List.suffix_of_suffix_length_le hi hj (by simp)
  have heq : i :: p = j :: p := h.eq_of_length (by simp)
  exact (List.cons.inj heq).1

theorem not_under_self (p : Path) (chosen : Nat → Prop) : ¬ Under p chosen p := by
  rintro ⟨i, -, h⟩
  have hlen := h.length_le
  exact Nat.not_succ_le_self _ hlen

namespace Watch

/-- A step comes only to places of some kind, and to none of them twice. -/
def Passes {α : Type} (places : Path → Prop) (c : Watch α) : Prop :=
  ∀ l, ∃ new, (c l).2.sightings = new ++ l.sightings ∧ (∀ g ∈ new, places g.path) ∧
    (new.map (·.path)).Nodup

/-- A step comes to no place. -/
def Silent {α : Type} (c : Watch α) : Prop := ∀ l, (c l).2.sightings = l.sightings

variable {α β : Type} {c : Watch α} {places : Path → Prop}

theorem Silent.pure (a : α) : Silent (Pure.pure a) := fun _ => rfl

theorem Silent.lift (r : Resolve α) : Silent (Watch.lift r) := fun _ => rfl

theorem Silent.bind {k : α → Watch β} (hc : Silent c) (hk : ∀ a, Silent (k a)) :
    Silent (c >>= k) := fun l => (hk _ _).trans (hc l)

namespace Passes

theorem silent (hc : Silent c) : Passes places c :=
  fun l => ⟨[], hc l, List.forall_mem_nil _, List.nodup_nil⟩

theorem mono {others : Path → Prop} (hc : Passes places c) (h : ∀ q, places q → others q) :
    Passes others c := by
  intro l
  obtain ⟨new, hnew, hplaces, hnodup⟩ := hc l
  exact ⟨new, hnew, fun g hg => h _ (hplaces g hg), hnodup⟩

theorem before {k : α → Watch β} (hc : Passes places c) (hk : ∀ a, Silent (k a)) :
    Passes places (c >>= k) := by
  intro l
  obtain ⟨new, hnew, h⟩ := hc l
  exact ⟨new, (hk _ _).trans hnew, h⟩

theorem after {k : α → Watch β} (hc : Silent c) (hk : ∀ a, Passes places (k a)) :
    Passes places (c >>= k) := by
  intro l
  obtain ⟨new, hnew, h⟩ := hk (c l).1 (c l).2
  exact ⟨new, hnew.trans (congrArg (new ++ ·) (hc l)), h⟩

theorem child {p : Path} {i : Nat} (hc : Passes ((i :: p) <:+ ·) c) :
    Passes (Under p (· = i)) c := hc.mono fun _ h => ⟨i, rfl, h⟩

/-- Steps to different children. -/
theorem bind {p : Path} {k : α → Watch β} {chosen others : Nat → Prop}
    (hc : Passes (Under p chosen) c) (hk : ∀ a, Passes (Under p others) (k a))
    (hd : ∀ i, chosen i → ¬ others i) :
    Passes (Under p fun i => chosen i ∨ others i) (c >>= k) := by
  intro l
  obtain ⟨first, hfirst, hchosen, hnodup⟩ := hc l
  obtain ⟨second, hsecond, hothers, hnodup'⟩ := hk (c l).1 (c l).2
  refine ⟨second ++ first, ?_, ?_, ?_⟩
  · rw [List.append_assoc, ← hfirst]
    exact hsecond
  · intro g hg
    rcases List.mem_append.mp hg with h | h
    · obtain ⟨i, hi, hq⟩ := hothers g h
      exact ⟨i, .inr hi, hq⟩
    · obtain ⟨i, hi, hq⟩ := hchosen g h
      exact ⟨i, .inl hi, hq⟩
  · rw [List.map_append, List.nodup_append]
    refine ⟨hnodup', hnodup, ?_⟩
    intro q hq q' hq' heq
    obtain ⟨g, hg, rfl⟩ := List.mem_map.mp hq
    obtain ⟨g', hg', rfl⟩ := List.mem_map.mp hq'
    obtain ⟨i, hi, hgi⟩ := hothers g hg
    obtain ⟨j, hj, hgj⟩ := hchosen g' hg'
    rw [← heq] at hgj
    exact hd j hj (child_unique hgj hgi ▸ hi)

/-- A node comes before its children. -/
theorem sighting {p : Path} {n : Node Unit} {chosen : Nat → Prop}
    (hc : Passes (Under p chosen) c) : Passes (p <:+ ·) (Watch.sighting p n c) := by
  intro l
  obtain ⟨new, hnew, hchosen, hnodup⟩ :=
    hc { l with sightings := ⟨p, n, l.walk, l.sites⟩ :: l.sightings }
  refine ⟨new ++ [⟨p, n, l.walk, l.sites⟩], ?_, ?_, ?_⟩
  · rw [List.append_assoc]
    exact hnew
  · intro g hg
    rcases List.mem_append.mp hg with h | h
    · obtain ⟨i, -, hq⟩ := hchosen g h
      exact (List.suffix_cons i p).trans hq
    · obtain rfl := List.mem_singleton.mp h
      exact List.suffix_refl p
  · rw [List.map_append, List.nodup_append]
    refine ⟨hnodup, by simp, ?_⟩
    intro q hq q' hq' heq
    obtain ⟨g, hg, rfl⟩ := List.mem_map.mp hq
    have hp : q' = p := by simpa using hq'
    have hunder := hchosen g hg
    rw [heq, hp] at hunder
    exact not_under_self p chosen hunder

theorem leaf {p : Path} {n : Node Unit} (hc : Silent c) :
    Passes (p <:+ ·) (Watch.sighting p n c) := by
  have hnone : Passes (Under p fun _ => False) c := silent hc
  exact sighting hnone

theorem inScope {site : Site} {names : Bindings Bool} (hc : Passes places c) :
    Passes places (Watch.inScope site names c) := by
  intro l
  obtain ⟨new, h⟩ := hc { l with
    walk := { l.walk with scopes := names :: l.walk.scopes }
    sites := site :: l.sites }
  exact ⟨new, h⟩

theorem inLoop (hc : Passes places c) : Passes places (Watch.inLoop c) :=
  after (.lift _) fun _ => before hc fun _ => .bind (.lift _) fun _ => .pure _

theorem inFunction {site : Site} {role : Role} {params : List Token} (hc : Passes places c) :
    Passes places (Watch.inFunction site role params c) :=
  after (fun _ => rfl) fun _ => after (.lift _) fun _ =>
    before (inScope (after (.lift _) fun _ => hc)) fun _ => .bind (.lift _) fun _ => .pure _

theorem inClass {site : Site} {name : Token} (hc : Passes places c) :
    Passes places (Watch.inClass site name c) :=
  after (fun _ => rfl) fun _ => after (.lift _) fun _ => after (.lift _) fun _ =>
    after (.lift _) fun _ => before (inScope hc) fun _ => .bind (.lift _) fun _ => .pure _

end Passes
end Watch

mutual

theorem Expr.watch_passes (p : Path) : (e : RawExpr) → (e.watch p).Passes (p <:+ ·)
  | .literal _ => .leaf (.pure _)
  | .grouping inner => .sighting (.before (.child (inner.watch_passes _)) fun _ => .pure _)
  | .unary _ right => .sighting (.before (.child (right.watch_passes _)) fun _ => .pure _)
  | .binary left _ right =>
    .sighting (.bind (.child (left.watch_passes _))
      (fun _ => .before (.child (right.watch_passes _)) fun _ => .pure _) (by omega))
  | .logical left _ right =>
    .sighting (.bind (.child (left.watch_passes _))
      (fun _ => .before (.child (right.watch_passes _)) fun _ => .pure _) (by omega))
  | .variable _ _ => .leaf (.lift _)
  | .assign _ _ value _ =>
    .sighting (.before (.child (value.watch_passes _)) fun _ => .bind (.lift _) fun _ => .pure _)
  | .call callee _ arguments =>
    .sighting (.bind (.child (callee.watch_passes _))
      (fun _ => .before (Expr.watchAll_passes p 1 arguments) fun _ => .pure _) (by omega))
  | .get object _ => .sighting (.before (.child (object.watch_passes _)) fun _ => .pure _)
  | .set object _ _ value =>
    .sighting (.bind (.child (value.watch_passes _))
      (fun _ => .before (.child (object.watch_passes _)) fun _ => .pure _) (by omega))
  | .this _ _ => .leaf (.lift _)
  | .function none _ body =>
    .sighting (.before (.inFunction (Stmt.watchAll_passes p 0 body)) fun _ => .pure _)
  | .function (some _) _ body =>
    .sighting (.before (.inScope (.after (.lift _) fun _ => .after (.lift _) fun _ =>
      .inFunction (Stmt.watchAll_passes p 0 body))) fun _ => .pure _)

theorem Expr.watchAll_passes (p : Path) (i : Nat) : (es : List RawExpr) →
    (Expr.watchAll p i es).Passes (Under p (i ≤ ·))
  | [] => .silent (.pure _)
  | e :: es => by
    refine .mono (.bind (.child (e.watch_passes _))
      (fun _ => .before (Expr.watchAll_passes p (i + 1) es) fun _ => .pure _) (by omega)) ?_
    rintro q ⟨j, hj, hq⟩
    exact ⟨j, by omega, hq⟩

theorem Stmt.watch_passes (p : Path) : (s : RawStmt) → (s.watch p).Passes (p <:+ ·)
  | .expression value => .sighting (.before (.child (value.watch_passes _)) fun _ => .pure _)
  | .print value => .sighting (.before (.child (value.watch_passes _)) fun _ => .pure _)
  | .varDecl _ none =>
    .leaf (.bind (.lift _) fun _ => .bind (.lift _) fun _ => .pure _)
  | .varDecl _ (some value) =>
    .sighting (.after (.lift _) fun _ => .before (.child (value.watch_passes _)) fun _ =>
      .bind (.lift _) fun _ => .pure _)
  | .block body =>
    .sighting (.before (.inScope (Stmt.watchAll_passes p 0 body)) fun _ => .pure _)
  | .ifElse condition yes none =>
    .sighting (.bind (.child (condition.watch_passes _))
      (fun _ => .before (.child (yes.watch_passes _)) fun _ => .pure _) (by omega))
  | .ifElse condition yes (some no) =>
    .sighting (.bind (.child (condition.watch_passes _)) (fun _ =>
      .bind (.child (yes.watch_passes _))
        (fun _ => .before (.child (no.watch_passes _)) fun _ => .pure _) (by omega)) (by omega))
  | .loop condition body none =>
    .sighting (.bind (.child (condition.watch_passes _))
      (fun _ => .before (.inLoop (.child (body.watch_passes _))) fun _ => .pure _) (by omega))
  | .loop condition body (some increment) =>
    .sighting (.bind (.child (condition.watch_passes _)) (fun _ =>
      .bind (.inLoop (.child (body.watch_passes _)))
        (fun _ => .before (.child (increment.watch_passes _)) fun _ => .pure _) (by omega))
      (by omega))
  | .breakLoop _ => .leaf (.lift _)
  | .continueLoop _ => .leaf (.lift _)
  | .returnFrom _ none => .leaf (.lift _)
  | .returnFrom _ (some value) => by
    have hvalue := (Watch.Passes.child (value.watch_passes (0 :: p)))
    refine .sighting (?_ : Watch.Passes (Under p (· = 0)) _)
    refine .after (fun _ => rfl) fun l => ?_
    dsimp only
    split
    · refine .after (.lift _) fun _ => .after (fun _ => rfl) fun l => ?_
      split
      · exact .after (.lift _) fun _ => .before hvalue fun _ => .pure _
      · exact .before hvalue fun _ => .pure _
    · refine .after (fun _ => rfl) fun l => ?_
      split
      · exact .after (.lift _) fun _ => .before hvalue fun _ => .pure _
      · exact .before hvalue fun _ => .pure _
  | .functionDecl _ _ body =>
    .sighting (.after (.lift _) fun _ => .after (.lift _) fun _ =>
      .before (.inFunction (Stmt.watchAll_passes p 0 body)) fun _ => .pure _)
  | .classDecl _ methods =>
    .sighting (.before (.inClass (Method.watchAll_passes p 0 methods)) fun _ => .pure _)

theorem Stmt.watchAll_passes (p : Path) (i : Nat) : (ss : List RawStmt) →
    (Stmt.watchAll p i ss).Passes (Under p (i ≤ ·))
  | [] => .silent (.pure _)
  | s :: ss => by
    refine .mono (.bind (.child (s.watch_passes _))
      (fun _ => .before (Stmt.watchAll_passes p (i + 1) ss) fun _ => .pure _) (by omega)) ?_
    rintro q ⟨j, hj, hq⟩
    exact ⟨j, by omega, hq⟩

theorem Method.watch_passes (p : Path) : (m : RawMethod) → (m.watch p).Passes (Under p fun _ => True)
  | .mk _ _ body => by
    refine .before (.inFunction (.mono (Stmt.watchAll_passes p 0 body) ?_)) fun _ => .pure _
    rintro q ⟨j, -, hq⟩
    exact ⟨j, trivial, hq⟩

theorem Method.watchAll_passes (p : Path) (i : Nat) : (ms : List RawMethod) →
    (Method.watchAll p i ms).Passes (Under p (i ≤ ·))
  | [] => .silent (.pure _)
  | m :: ms => by
    have hm : (m.watch (i :: p)).Passes ((i :: p) <:+ ·) := by
      refine .mono (m.watch_passes (i :: p)) ?_
      rintro q ⟨j, -, hq⟩
      exact (List.suffix_cons j _).trans hq
    refine .mono (.bind (.child hm)
      (fun _ => .before (Method.watchAll_passes p (i + 1) ms) fun _ => .pure _) (by omega)) ?_
    rintro q ⟨j, hj, hq⟩
    exact ⟨j, by omega, hq⟩

end

/-- The walk over a program comes to no place twice. -/
theorem sightings_nodup (number : Nat) (program : List RawStmt) :
    ((sightings number program).map (·.path)).Nodup ∧
      ∀ g ∈ sightings number program, [number] <:+ g.path := by
  obtain ⟨new, hnew, hplaces, hnodup⟩ :=
    Stmt.watchAll_passes [number] 0 program ⟨.start, [], []⟩
  have heq : sightings number program = new := hnew.trans (List.append_nil new)
  rw [heq]
  refine ⟨hnodup, fun g hg => ?_⟩
  obtain ⟨i, -, hq⟩ := hplaces g hg
  exact (List.suffix_cons i _).trans hq

end LoxScript
