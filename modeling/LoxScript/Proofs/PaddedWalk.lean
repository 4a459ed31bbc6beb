import LoxScript.Proofs.Padding
import LoxScript.Proofs.Rewalk

/-!
Walks over a program and over a padded one.

The walk over the padded program has scopes in addition, which bind no name. So it finds the same
declarations, farther out where it passes such a scope, and it finds no fault where the walk over
the program itself finds none.
-/
namespace LoxScript

open Resolve Scope

/-- The scopes of two walks, where the chains of frames that they stand for have some links. The
last link is that of the globals, which have no scope. -/
inductive Link.Scopes : List Link → List (Bindings Bool) → List (Bindings Bool) → Prop
  | global : Scopes [.both] [] []
  | inner {Γ ss ss'} (b : Bindings Bool) (outer : Scopes Γ ss ss') :
      Scopes (.both :: Γ) (b :: ss) (b :: ss')
  | receiver {Γ ss ss'} (outer : Scopes Γ ss ss') :
      Scopes (.receiver :: Γ) ([(receiverName, true)] :: ss) ([(receiverName, true)] :: ss')
  | room {Γ ss ss'} (outer : Scopes Γ ss ss') : Scopes (.extra :: Γ) ss ([] :: ss')

namespace Link.Scopes
variable {Γ : List Link} {ss ss' : List (Bindings Bool)}

theorem ne_nil (h : Scopes Γ ss ss') : Γ ≠ [] := by cases h <;> exact List.cons_ne_nil _ _

theorem shared_pos (h : Scopes Γ ss ss') : 0 < Link.shared Γ := by
  induction h with
  | global => exact Nat.zero_lt_one
  | inner b outer ih => exact Nat.succ_pos _
  | receiver outer ih => exact Nat.succ_pos _
  | room outer ih => simpa [Link.shared] using ih

theorem distance?_scope {l : Link} (hl : l ≠ .extra) (b : Bindings Bool) (name : String)
    (ih : distance? ss' name = (distance? ss name).map (Link.shift Γ)) :
    distance? (b :: ss') name = (distance? (b :: ss) name).map (Link.shift (l :: Γ)) := by
  rw [distance?_cons, distance?_cons, ih]
  split
  · simp [Link.shift, hl]
  · simp [Link.shift, hl, Function.comp_def]

/-- What one walk finds in a scope, the other finds in the scope in its place. -/
theorem distance? (h : Scopes Γ ss ss') (name : String) :
    Resolve.distance? ss' name = (Resolve.distance? ss name).map (Link.shift Γ) := by
  induction h with
  | global => rfl
  | inner b outer ih => exact distance?_scope (by decide) b name ih
  | receiver outer ih => exact distance?_scope (by decide) _ name ih
  | @room Γ ss ss' outer ih =>
    have hempty : ¬ Bindings.has ([] : Bindings Bool) name := Bool.false_ne_true
    rw [distance?_cons, if_neg hempty, ih]
    simp [Link.shift, Function.comp_def]

/-- What is found in a scope stands inside the globals. -/
theorem inside (h : Scopes Γ ss ss') {name : String} {d : Nat}
    (hd : Resolve.distance? ss name = some d) : d + 1 < Link.shared Γ := by
  have hstep {l : Link} (hl : l ≠ .extra) {Γ ss} {b : Bindings Bool} (hpos : 0 < Link.shared Γ)
      (ih : ∀ {d}, Resolve.distance? ss name = some d → d + 1 < Link.shared Γ) {d : Nat}
      (hd : Resolve.distance? (b :: ss) name = some d) : d + 1 < Link.shared (l :: Γ) := by
    rw [distance?_cons] at hd
    simp only [Link.shared, if_neg hl]
    split at hd
    · cases hd
      omega
    · obtain ⟨e, he, rfl⟩ := Option.map_eq_some_iff.mp hd
      have := ih he
      omega
  induction h generalizing d with
  | global => cases hd
  | inner b outer ih => exact hstep (by decide) outer.shared_pos ih hd
  | receiver outer ih => exact hstep (by decide) outer.shared_pos ih hd
  | room outer ih => simpa [Link.shared] using ih hd

/-- A name that is pending in the second walk is so in the first one. -/
theorem pending (h : Scopes Γ ss ss') {name : String} (hname : isPending ss' name) :
    isPending ss name := by
  cases h with
  | room outer => cases hname
  | _ => exact hname

theorem receiver_found (h : Scopes Γ ss ss') (hΓ : .receiver ∈ Γ) :
    ∃ d, Resolve.distance? ss receiverName = some d := by
  have hstep {ss : List (Bindings Bool)} (b : Bindings Bool)
      (ih : ∃ d, Resolve.distance? ss receiverName = some d) :
      ∃ d, Resolve.distance? (b :: ss) receiverName = some d := by
    obtain ⟨d, hd⟩ := ih
    rw [distance?_cons, hd]
    split
    · exact ⟨0, rfl⟩
    · exact ⟨d + 1, rfl⟩
  induction h with
  | global => simp at hΓ
  | inner b outer ih => exact hstep b (ih (by simpa using hΓ))
  | receiver outer ih => exact ⟨0, rfl⟩
  | room outer ih => exact ih (by simpa using hΓ)

theorem head?_eq (h : Scopes Γ ss ss') (hΓ : Γ.head? = some .both) : ss'.head? = ss.head? := by
  cases h with
  | global => rfl
  | inner b outer => rfl
  | receiver outer => cases hΓ
  | room outer => cases hΓ

theorem modifyHead (h : Scopes Γ ss ss') (hΓ : Γ.head? = some .both)
    (f : Bindings Bool → Bindings Bool) : Scopes Γ (ss.modifyHead f) (ss'.modifyHead f) := by
  cases h with
  | global => exact .global
  | inner b outer => exact .inner (f b) outer
  | receiver outer => cases hΓ
  | room outer => cases hΓ

theorem tail {l : Link} (h : Scopes (l :: Γ) ss ss') (hl : l ≠ .extra) (hΓ : Γ ≠ []) :
    Scopes Γ ss.tail ss'.tail := by
  cases h with
  | global => exact absurd rfl hΓ
  | inner b outer => exact outer
  | receiver outer => exact outer
  | room outer => exact absurd rfl hl

theorem room_tail (h : Scopes (.extra :: Γ) ss ss') : Scopes Γ ss ss'.tail := by
  cases h with
  | room outer => exact outer

end Link.Scopes

/-! ### Walks -/

/-- Walks over a program and a padded one, at the same place. -/
structure Scope.Walk.Padded (Γ : List Link) (w w' : Walk) : Prop where
  scopes : Link.Scopes Γ w.scopes w'.scopes
  role : w'.role = w.role
  inClass : w'.inClass = w.inClass
  loops : w.loops ≤ w'.loops
  faults : w.faults = [] → w'.faults = []
  seated : w.inClass → .receiver ∈ Γ

namespace Scope.Walk
variable {Γ : List Link} {w w' : Walk} {q r : Walk → Prop} [DecidablePred q] [DecidablePred r]
  {t : Token} {cause : Cause}

/-- A check finds nothing only if nothing was found before it. -/
theorem of_checked (h : (w.checked q t cause).faults = []) : w.faults = [] ∧ ¬ q w := by
  unfold checked at h
  dsimp only at h
  split at h
  · cases h
  next hq => exact ⟨h, hq⟩

theorem Padded.checked (hw : Padded Γ w w') (hq : r w' → q w) :
    Padded Γ (w.checked q t cause) (w'.checked r t cause) := by
  refine { hw with faults := fun h => ?_ }
  obtain ⟨hfaults, hnot⟩ := of_checked h
  have hnot' : ¬ r w' := fun hr => hnot (hq hr)
  simp only [Walk.checked, if_neg hnot']
  exact hw.faults hfaults

end Scope.Walk

namespace Resolve

/-- Steps of two walks. If the first finds no fault, it found none before, and the results are
related. -/
structure Pads {α β : Type} (Q : α → β → Prop) (Γ : List Link) (w w' : Walk) (c : Resolve α)
    (d : Resolve β) : Prop where
  walk : Walk.Padded Γ (c w).2 (d w').2
  clean : (c w).2.faults = [] → w.faults = []
  holds : (c w).2.faults = [] → Q (c w).1 (d w').1

/-- A declaration repeats one if its name is in the innermost scope. -/
theorem declare_run (t : Token) (w : Walk) : (declare t w).2 =
    { w.checked (·.scopes.head?.any (·.has t.lexeme)) t .alreadyDeclared with
      scopes := w.scopes.modifyHead (·.set t.lexeme false) } := by
  obtain ⟨scopes, role, inClass, loops, faults, references⟩ := w
  cases scopes with
  | nil => rfl
  | cons b ss =>
    simp only [declare, Bind.bind, StateT.bind, get, getThe, MonadStateOf.get, StateT.get, Pure.pure,
      Walk.checked, List.head?_cons, Option.any_some]
    by_cases hb : b.has t.lexeme
    · simp only [hb, if_true]
      rfl
    · simp only [hb]
      rfl

theorem refer_eq (form : Form) (t : Token) (name : String) (w : Walk) : refer form t name w =
    (distance? w.scopes name, { w with
      references := ((distance? w.scopes name).map (⟨form, t, ·⟩)).toList ++ w.references }) := by
  simp only [refer, Bind.bind, StateT.bind, get, getThe, MonadStateOf.get, StateT.get, Pure.pure]
  cases distance? w.scopes name <;> rfl

/-- A walk comes to the methods of a class behind the declaration of its name. -/
theorem inClassOf_eq (w : Walk) (t : Token) : w.inClassOf t =
    { (define t (declare t w).2).2 with
      inClass := true
      scopes := [(receiverName, true)] :: (define t (declare t w).2).2.scopes } := by
  simp only [Walk.inClassOf, define_run, declare_run, Walk.checked]

namespace Pads
variable {α β γ δ : Type} {Q : α → β → Prop} {Q' : γ → δ → Prop} {Γ : List Link} {w w' : Walk}
  {c : Resolve α} {d : Resolve β} {t : Token} {cause : Cause}

theorem congr {x : Resolve α} {y : Resolve β} (h : Pads Q Γ w w' x y) (hx : c w = x w)
    (hy : d w' = y w') : Pads Q Γ w w' c d := by
  refine ⟨?_, ?_, ?_⟩
  · rw [hx, hy]
    exact h.walk
  · rw [hx]
    exact h.clean
  · rw [hx, hy]
    exact h.holds

theorem weaken {R : α → β → Prop} (h : Pads Q Γ w w' c d) (hr : ∀ {a b}, Q a b → R a b) :
    Pads R Γ w w' c d := { h with holds := fun hfaults => hr (h.holds hfaults) }

theorem pure {a : α} {b : β} (hw : Walk.Padded Γ w w') (hq : Q a b) :
    Pads Q Γ w w' (Pure.pure a) (Pure.pure b) := ⟨hw, id, fun _ => hq⟩

theorem bind {k : α → Resolve γ} {k' : β → Resolve δ} (hc : Pads Q Γ w w' c d)
    (hk : ∀ a b, Walk.Padded Γ (c w).2 (d w').2 →
      Pads (fun x y => Q a b → Q' x y) Γ (c w).2 (d w').2 (k a) (k' b)) :
    Pads Q' Γ w w' (c >>= k) (d >>= k') := by
  have h := hk (c w).1 (d w').1 hc.walk
  exact ⟨h.walk, fun hfaults => hc.clean (h.clean hfaults),
    fun hfaults => h.holds hfaults (hc.holds (h.clean hfaults))⟩

theorem declare (hw : Walk.Padded Γ w w') (hΓ : Γ.head? = some .both) :
    Pads (fun _ _ => True) Γ w w' (Resolve.declare t) (Resolve.declare t) := by
  refine ⟨?_, ?_, fun _ => trivial⟩
  · rw [declare_run, declare_run]
    have hchecked : Walk.Padded Γ
        (w.checked (·.scopes.head?.any (·.has t.lexeme)) t .alreadyDeclared)
        (w'.checked (·.scopes.head?.any (·.has t.lexeme)) t .alreadyDeclared) :=
      hw.checked fun h => by rwa [hw.scopes.head?_eq hΓ] at h
    exact { hchecked with scopes := hw.scopes.modifyHead hΓ _ }
  · rw [declare_run]
    exact fun h => (Walk.of_checked (q := (·.scopes.head?.any (·.has t.lexeme))) h).1

theorem define (hw : Walk.Padded Γ w w') (hΓ : Γ.head? = some .both) :
    Pads (fun _ _ => True) Γ w w' (Resolve.define t) (Resolve.define t) := by
  refine ⟨?_, ?_, fun _ => trivial⟩
  · rw [define_run, define_run]
    exact { hw with scopes := hw.scopes.modifyHead hΓ _ }
  · rw [define_run]
    exact id

theorem declareAll (hw : Walk.Padded Γ w w') (hΓ : Γ.head? = some .both) (ts : List Token) :
    Pads (fun _ _ => True) Γ w w' (Resolve.declareAll ts) (Resolve.declareAll ts) := by
  induction ts generalizing w w' with
  | nil => exact pure hw trivial
  | cons t ts ih =>
    refine bind (declare hw hΓ) fun _ _ hw => bind (define hw hΓ) fun _ _ hw => ?_
    exact { ih hw with holds := fun _ _ _ => trivial }

/-- A check that finds something in the second walk finds it in the first. -/
theorem check {q r : Walk → Prop} [DecidablePred q] [DecidablePred r] {k : Resolve α}
    {k' : Resolve β} (hw : Walk.Padded Γ w w') (hq : r w' → q w)
    (hk : Walk.Padded Γ (w.checked q t cause) (w'.checked r t cause) →
      Pads Q Γ (w.checked q t cause) (w'.checked r t cause) k k') :
    Pads Q Γ w w' (do
        if q (← get) then report t cause
        k) (do
        if r (← get) then report t cause
        k') := by
  have h := hk (hw.checked hq)
  have hchecked : Pads Q Γ w w' (fun _ => k (w.checked q t cause))
      (fun _ => k' (w'.checked r t cause)) :=
    { h with clean := fun hfaults => (Walk.of_checked (h.clean hfaults)).1 }
  exact hchecked.congr (check_eq q t cause k w) (check_eq r t cause k' w')

theorem refer (form : Form) (name : String) (hw : Walk.Padded Γ w w') :
    Pads (fun d d' => d = distance? w.scopes name ∧ d' = d.map (Link.shift Γ)) Γ w w'
      (Resolve.refer form t name) (Resolve.refer form t name) := by
  have hrefer : Pads (fun d d' => d = distance? w.scopes name ∧ d' = d.map (Link.shift Γ)) Γ w w'
      (fun w => (distance? w.scopes name, { w with
        references := ((distance? w.scopes name).map (⟨form, t, ·⟩)).toList ++ w.references }))
      (fun w => (distance? w.scopes name, { w with
        references := ((distance? w.scopes name).map (⟨form, t, ·⟩)).toList ++ w.references })) :=
    ⟨{ hw with }, id, fun _ => ⟨rfl, hw.scopes.distance? name⟩⟩
  exact hrefer.congr (refer_eq form t name w) (refer_eq form t name w')

theorem inScope (names : Bindings Bool) (hw : Walk.Padded Γ w w')
    (hc : Walk.Padded (.both :: Γ) { w with scopes := names :: w.scopes }
        { w' with scopes := names :: w'.scopes } →
      Pads Q (.both :: Γ) { w with scopes := names :: w.scopes }
        { w' with scopes := names :: w'.scopes } c d) :
    Pads Q Γ w w' (Resolve.inScope names c) (Resolve.inScope names d) := by
  have h := hc { hw with
    scopes := .inner names hw.scopes
    seated := fun hclass => List.mem_cons_of_mem _ (hw.seated hclass) }
  refine ⟨{ h.walk with scopes := h.walk.scopes.tail (by decide) hw.scopes.ne_nil, seated := ?_ },
    h.clean, h.holds⟩
  intro hclass
  exact List.mem_of_ne_of_mem (by decide) (h.walk.seated hclass)

/-- A scope that only the second walk has. -/
theorem inRoom (hw : Walk.Padded Γ w w')
    (hc : Walk.Padded (.extra :: Γ) w { w' with scopes := [] :: w'.scopes } →
      Pads Q (.extra :: Γ) w { w' with scopes := [] :: w'.scopes } c d) :
    Pads Q Γ w w' c (Resolve.inScope [] d) := by
  have h := hc { hw with
    scopes := .room hw.scopes
    seated := fun hclass => List.mem_cons_of_mem _ (hw.seated hclass) }
  refine ⟨{ h.walk with scopes := h.walk.scopes.room_tail, seated := ?_ }, h.clean, h.holds⟩
  intro hclass
  exact List.mem_of_ne_of_mem (by decide) (h.walk.seated hclass)

theorem inLoop (hw : Walk.Padded Γ w w')
    (hc : Walk.Padded Γ { w with loops := w.loops + 1 } { w' with loops := w'.loops + 1 } →
      Pads Q Γ { w with loops := w.loops + 1 } { w' with loops := w'.loops + 1 } c d) :
    Pads Q Γ w w' (Resolve.inLoop c) (Resolve.inLoop d) := by
  have h := hc { hw with loops := Nat.succ_le_succ hw.loops }
  exact ⟨{ h.walk with loops := Nat.sub_le_sub_right h.walk.loops 1 }, h.clean, h.holds⟩

/-- A loop with an increment, and one with the increment behind its body in a scope that only the
second walk has. -/
theorem behind {c' : Resolve γ} {d' : Resolve δ} {d : Resolve β} {c : Resolve α}
    {Q : α → γ → Prop} {R : β → δ → Prop} (hw : Walk.Padded Γ w w')
    (hloops : ∀ u, (d u).2.loops = u.loops) (hloops' : ∀ u, (d' u).2.loops = u.loops)
    (hc : ∀ {u u' : Walk}, Walk.Padded (.extra :: Γ) u u' → Pads Q (.extra :: Γ) u u' c c')
    (hd : ∀ {u u' : Walk}, Walk.Padded (.extra :: Γ) u u' → Pads R (.extra :: Γ) u u' d d') :
    Pads (fun x y => Q x.1 y.1 ∧ R x.2 y.2) Γ w w' (do
        let a ← Resolve.inLoop c
        let b ← d
        return (a, b))
      (Resolve.inLoop (Resolve.inScope [] do
        let a ← c'
        let b ← d'
        return (a, b))) := by
  let left := (c { w with loops := w.loops + 1 }).2
  let right := (c' { w' with loops := w'.loops + 1, scopes := [] :: w'.scopes }).2
  have hinner : Walk.Padded (.extra :: Γ) { w with loops := w.loops + 1 }
      { w' with loops := w'.loops + 1, scopes := [] :: w'.scopes } := { hw with
    scopes := .room hw.scopes
    loops := Nat.succ_le_succ hw.loops
    seated := fun hclass => List.mem_cons_of_mem _ (hw.seated hclass) }
  have hbody := hc hinner
  have hbehind : Walk.Padded (.extra :: Γ) { left with loops := left.loops - 1 } right :=
    { hbody.walk with loops := Nat.le_trans (Nat.sub_le _ 1) hbody.walk.loops }
  have hincrement := hd hbehind
  refine ⟨{ hincrement.walk with
      scopes := hincrement.walk.scopes.room_tail, loops := ?_, seated := ?_ },
    fun h => hbody.clean (hincrement.clean h),
    fun h => ⟨hbody.holds (hincrement.clean h), hincrement.holds h⟩⟩
  · -- The walks have left the loops at different times.
    show (d { left with loops := left.loops - 1 }).2.loops ≤ (d' right).2.loops - 1
    rw [hloops, hloops']
    exact Nat.sub_le_sub_right hbody.walk.loops 1
  · intro hclass
    exact List.mem_of_ne_of_mem (by decide) (hincrement.walk.seated hclass)

theorem inFunction {role : Role} {ts : List Token} (hw : Walk.Padded Γ w w')
    (hc : ∀ {u u' : Walk}, Walk.Padded (.both :: Γ) u u' → Pads Q (.both :: Γ) u u' c d) :
    Pads Q Γ w w' (Resolve.inFunction role ts c) (Resolve.inFunction role ts d) := by
  have h : Pads Q Γ { w with role := role, loops := 0 } { w' with role := role, loops := 0 }
      (Resolve.inScope [] do
        Resolve.declareAll ts
        c)
      (Resolve.inScope [] do
        Resolve.declareAll ts
        d) :=
    inScope [] { hw with role := rfl, loops := Nat.le_refl 0 } fun hw =>
      bind (declareAll hw rfl ts) fun _ _ hw => { hc hw with holds := fun h _ => (hc hw).holds h }
  exact ⟨{ h.walk with role := hw.role, loops := hw.loops }, h.clean, h.holds⟩

theorem inClass (hw : Walk.Padded Γ w w') (hΓ : Γ.head? = some .both)
    (hc : ∀ {u u' : Walk}, Walk.Padded (.receiver :: Γ) u u' → Pads Q (.receiver :: Γ) u u' c d) :
    Pads Q Γ w w' (Resolve.inClass t c) (Resolve.inClass t d) := by
  have hdeclare := declare (t := t) hw hΓ
  have hdefine := define (t := t) hdeclare.walk hΓ
  have hwalk : Walk.Padded (.receiver :: Γ) (w.inClassOf t) (w'.inClassOf t) := by
    rw [inClassOf_eq, inClassOf_eq]
    exact { hdefine.walk with
      scopes := .receiver hdefine.walk.scopes
      inClass := rfl
      seated := fun _ => List.mem_cons_self }
  have hclean : (w.inClassOf t).faults = [] → w.faults = [] := by
    rw [inClassOf_eq]
    exact fun h => hdeclare.clean (hdefine.clean h)
  have h := hc hwalk
  have hseated : w.inClass → .receiver ∈ Γ := hw.seated
  exact ⟨{ h.walk with
    scopes := h.walk.scopes.tail (by decide) hw.scopes.ne_nil
    inClass := hw.inClass
    seated := hseated }, fun hfaults => hclean (h.clean hfaults), h.holds⟩

/-- A receiver is found inside a class, and is a fault outside of one. -/
theorem this (P : Padding) (mark mark' : Unit) (hw : Walk.Padded Γ w w') :
    Pads (Expr.Padded P Γ) Γ w w' (Expr.this t mark).resolve (Expr.this t mark').resolve := by
  have hrun (mark : Unit) (w : Walk) : (Expr.this t mark).resolve w =
      (if w.inClass then do return .this t (← Resolve.refer .this t receiverName)
        else do
          report t .thisOutsideClass
          return .this t none : Resolve ResolvedExpr) w := rfl
  by_cases hclass : w.inClass
  · obtain ⟨d, hd⟩ := hw.scopes.receiver_found (hw.seated hclass)
    have hrefer : Pads (Expr.Padded P Γ) Γ w w'
        (do return .this t (← Resolve.refer .this t receiverName))
        (do return .this t (← Resolve.refer .this t receiverName)) := by
      refine bind (refer .this receiverName hw) fun x y hu => pure hu ?_
      rintro ⟨rfl, rfl⟩
      rw [hd]
      exact .this (hw.scopes.inside hd)
    have hclass' : w'.inClass := hw.inClass ▸ hclass
    exact hrefer.congr (by rw [hrun, if_pos hclass]) (by rw [hrun, if_pos hclass'])
  · have hfault : Pads (Expr.Padded P Γ) Γ w w'
        (do
          report t .thisOutsideClass
          return .this t none)
        (do
          report t .thisOutsideClass
          return .this t none) := ⟨{ hw with faults := nofun }, nofun, nofun⟩
    have hclass' : ¬ w'.inClass := hw.inClass ▸ hclass
    exact hfault.congr (by rw [hrun, if_neg hclass]) (by rw [hrun, if_neg hclass'])

/-- A known name is found short of the globals, or is one of them. -/
theorem named {P : Padding} (form : Form) (hknown : P.known t.lexeme) (hw : Walk.Padded Γ w w') :
    Pads (fun d d' => P.Refers Γ d t ∧ d' = d.map (Link.shift Γ)) Γ w w'
      (Resolve.refer form t t.lexeme) (Resolve.refer form t t.lexeme) := by
  have h := refer (t := t) form t.lexeme hw
  refine { h with holds := fun hfaults => ?_ }
  obtain ⟨hd, hd'⟩ := h.holds hfaults
  refine ⟨?_, hd'⟩
  cases hfound : distance? w.scopes t.lexeme with
  | none =>
    rw [hd, hfound]
    exact hknown
  | some d =>
    rw [hd, hfound]
    exact hw.scopes.inside hfound

end Pads
end Resolve
end LoxScript
