import LoxScript.Proofs.Accepted
import LoxScript.Proofs.PaddedWalk
import LoxScript.Proofs.Signals

/-!
Compound assignments written out.

A compound assignment is short for an assignment of what its operator gives for the old value and
the new operand. To write it out changes neither what the names around it refer to nor, in whatever
state it is evaluated, what comes of it: the old value is read before the operand is evaluated
either way, and the object of a field that has a name or is the receiver is the same when it is
looked up again. Only the token at which an operator fails is another one.
-/
namespace LoxScript

open Resolve Scope

/-- A name or the receiver: to look one up changes nothing. -/
def Expr.isPlace {ρ : Type} : Expr ρ → Bool
  | .variable _ _ => true
  | .this _ _ => true
  | _ => false

/-- The sign of a compound assignment that can be written out. -/
def Expr.sign? {ρ : Type} : Expr ρ → Option Token
  | .assign _ operator _ _ => operator
  | .set object _ operator _ => if object.isPlace then operator else none
  | _ => none

def Node.sign? {ρ : Type} : Node ρ → Option Token
  | .expr e => e.sign?
  | .stmt _ => none

section WrittenOut
variable {ρ : Type} (plain : Token → Token)

/-- A compound assignment to a name or to a field of a place, written out with the operator that its
sign stands for. -/
def Expr.writeOut : Expr ρ → Expr ρ
  | .assign t (some sign) e mark => .assign t none (.binary (.variable t mark) (plain sign) e) mark
  | .set o t (some sign) e =>
    if o.isPlace then .set o t none (.binary (.get o t) (plain sign) e) else .set o t (some sign) e
  | e => e

def Expr.writeOutIf (b : Bool) (e : Expr ρ) : Expr ρ := if b then e.writeOut plain else e

variable (chosen : Path → Bool)

mutual

/-- An expression with the compound assignments at some places in it written out. -/
def Expr.writtenOut (p : Path) : Expr ρ → Expr ρ
  | .literal value => .literal value
  | .grouping e => .grouping (e.writtenOut (0 :: p))
  | .unary t e => .unary t (e.writtenOut (0 :: p))
  | .binary a t b => .binary (a.writtenOut (0 :: p)) t (b.writtenOut (1 :: p))
  | .logical a t b => .logical (a.writtenOut (0 :: p)) t (b.writtenOut (1 :: p))
  | .variable t mark => .variable t mark
  | .assign t operator e mark =>
    .writeOutIf plain (chosen p) (.assign t operator (e.writtenOut (0 :: p)) mark)
  | .call f t es => .call (f.writtenOut (0 :: p)) t (Expr.writtenOutAll p 1 es)
  | .get o t => .get (o.writtenOut (0 :: p)) t
  | .set o t operator e =>
    .writeOutIf plain (chosen p) (.set (o.writtenOut (0 :: p)) t operator (e.writtenOut (1 :: p)))
  | .this t mark => .this t mark
  | .function name params body => .function name params (Stmt.writtenOutAll p 0 body)

/-- Expressions side by side, the first of them being child `i`. -/
def Expr.writtenOutAll (p : Path) (i : Nat) : List (Expr ρ) → List (Expr ρ)
  | [] => []
  | e :: es => e.writtenOut (i :: p) :: Expr.writtenOutAll p (i + 1) es

def Stmt.writtenOut (p : Path) : Stmt ρ → Stmt ρ
  | .expression e => .expression (e.writtenOut (0 :: p))
  | .print e => .print (e.writtenOut (0 :: p))
  | .varDecl t none => .varDecl t none
  | .varDecl t (some e) => .varDecl t (some (e.writtenOut (0 :: p)))
  | .block body => .block (Stmt.writtenOutAll p 0 body)
  | .ifElse c yes none => .ifElse (c.writtenOut (0 :: p)) (yes.writtenOut (1 :: p)) none
  | .ifElse c yes (some no) =>
    .ifElse (c.writtenOut (0 :: p)) (yes.writtenOut (1 :: p)) (some (no.writtenOut (2 :: p)))
  | .loop c body none => .loop (c.writtenOut (0 :: p)) (body.writtenOut (1 :: p)) none
  | .loop c body (some n) =>
    .loop (c.writtenOut (0 :: p)) (body.writtenOut (1 :: p)) (some (n.writtenOut (2 :: p)))
  | .breakLoop t => .breakLoop t
  | .continueLoop t => .continueLoop t
  | .returnFrom t none => .returnFrom t none
  | .returnFrom t (some e) => .returnFrom t (some (e.writtenOut (0 :: p)))
  | .functionDecl t params body => .functionDecl t params (Stmt.writtenOutAll p 0 body)
  | .classDecl t methods => .classDecl t (Method.writtenOutAll p 0 methods)

def Stmt.writtenOutAll (p : Path) (i : Nat) : List (Stmt ρ) → List (Stmt ρ)
  | [] => []
  | s :: ss => s.writtenOut (i :: p) :: Stmt.writtenOutAll p (i + 1) ss

def Method.writtenOut (p : Path) : Method ρ → Method ρ
  | .mk t params body => .mk t params (Stmt.writtenOutAll p 0 body)

def Method.writtenOutAll (p : Path) (i : Nat) : List (Method ρ) → List (Method ρ)
  | [] => []
  | m :: ms => m.writtenOut (i :: p) :: Method.writtenOutAll p (i + 1) ms

end
end WrittenOut

/-! ### Walks -/

/-- Two walks that have come to the same scopes, and are both inside a class or both outside. -/
structure Scope.Walk.Abreast (w w' : Walk) : Prop where
  scopes : w'.scopes = w.scopes
  inClass : w'.inClass = w.inClass

theorem Scope.Walk.Abreast.trans {u v w : Walk} (h : u.Abreast v) (k : v.Abreast w) : u.Abreast w :=
  ⟨k.scopes.trans h.scopes, k.inClass.trans h.inClass⟩

namespace Resolve

/-- A step of a second walk keeps abreast of a step of a first one, and gives what a function makes
of the result of that. -/
structure Tracks {α β : Type} (f : α → β) (w w' : Walk) (c : Resolve α) (d : Resolve β) : Prop where
  walk : (c w).2.Abreast (d w').2
  result : (d w').1 = f (c w).1

namespace Tracks
variable {α β γ δ : Type} {f : α → β} {g : γ → δ} {w w' : Walk} {c : Resolve α} {d : Resolve β}
  {t : Token} {cause : Cause}

theorem congr {x : Resolve α} {y : Resolve β} (h : Tracks f w w' x y) (hx : c w = x w)
    (hy : d w' = y w') : Tracks f w w' c d := by
  refine ⟨?_, ?_⟩
  · rw [hx, hy]
    exact h.walk
  · rw [hx, hy]
    exact h.result

theorem pure {a : α} {b : β} (hw : w.Abreast w') (hb : b = f a) :
    Tracks f w w' (Pure.pure a) (Pure.pure b) := ⟨hw, hb⟩

theorem bind {k : α → Resolve γ} {k' : β → Resolve δ} (hc : Tracks f w w' c d)
    (hk : ∀ a, (c w).2.Abreast (d w').2 → Tracks g (c w).2 (d w').2 (k a) (k' (f a))) :
    Tracks g w w' (c >>= k) (d >>= k') := by
  have h := hk (c w).1 hc.walk
  rw [← hc.result] at h
  exact ⟨h.walk, h.result⟩

theorem declare (hw : w.Abreast w') : Tracks id w w' (Resolve.declare t) (Resolve.declare t) := by
  refine ⟨?_, rfl⟩
  rw [declare_run, declare_run]
  exact ⟨congrArg (List.modifyHead _) hw.scopes, hw.inClass⟩

theorem define (hw : w.Abreast w') : Tracks id w w' (Resolve.define t) (Resolve.define t) := by
  refine ⟨?_, rfl⟩
  rw [define_run, define_run]
  exact ⟨congrArg (List.modifyHead _) hw.scopes, hw.inClass⟩

theorem declareAll (hw : w.Abreast w') (ts : List Token) :
    Tracks id w w' (Resolve.declareAll ts) (Resolve.declareAll ts) := by
  induction ts generalizing w w' with
  | nil => exact pure hw rfl
  | cons t ts ih => exact bind (declare hw) fun _ hw => bind (define hw) fun _ hw => ih hw

/-- What a check finds does not matter. -/
theorem check {q r : Walk → Prop} [DecidablePred q] [DecidablePred r] {k : Resolve α}
    {k' : Resolve β} (hw : w.Abreast w')
    (hk : (w.checked q t cause).Abreast (w'.checked r t cause) →
      Tracks f (w.checked q t cause) (w'.checked r t cause) k k') :
    Tracks f w w' (do
        if q (← get) then report t cause
        k) (do
        if r (← get) then report t cause
        k') := by
  obtain ⟨hwalk, hresult⟩ := hk ⟨hw.scopes, hw.inClass⟩
  have hchecked : Tracks f w w' (fun _ => k (w.checked q t cause))
      (fun _ => k' (w'.checked r t cause)) := ⟨hwalk, hresult⟩
  exact hchecked.congr (check_eq q t cause k w) (check_eq r t cause k' w')

theorem refer (form : Form) (name : String) (hw : w.Abreast w') :
    Tracks id w w' (Resolve.refer form t name) (Resolve.refer form t name) := by
  refine ⟨?_, ?_⟩
  · rw [refer_eq, refer_eq]
    exact ⟨hw.scopes, hw.inClass⟩
  · rw [refer_eq, refer_eq]
    exact congrArg (distance? · name) hw.scopes

/-- The name of the receiver refers to something only inside a class. -/
theorem this (keyword : Token) (mark : Unit) (hw : w.Abreast w') :
    Tracks id w w' (Expr.this keyword mark).resolve (Expr.this keyword mark).resolve := by
  obtain ⟨hrun, hleaves⟩ := Expr.resolve_this keyword mark w
  obtain ⟨hrun', hleaves'⟩ := Expr.resolve_this keyword mark w'
  refine ⟨⟨?_, ?_⟩, ?_⟩
  · rw [hleaves'.scopes, hleaves.scopes, hw.scopes]
  · rw [((Expr.this keyword mark).resolve_upright w').returns.inClass,
      ((Expr.this keyword mark).resolve_upright w).returns.inClass, hw.inClass]
  · rw [hrun', hrun, hw.scopes, hw.inClass]
    rfl

theorem inScope (names : Bindings Bool) (hw : w.Abreast w')
    (hc : ∀ {u u' : Walk}, u.Abreast u' → Tracks f u u' c d) :
    Tracks f w w' (Resolve.inScope names c) (Resolve.inScope names d) := by
  have hinside : Walk.Abreast { w with scopes := names :: w.scopes }
      { w' with scopes := names :: w'.scopes } := ⟨congrArg (names :: ·) hw.scopes, hw.inClass⟩
  obtain ⟨hwalk, hresult⟩ := hc hinside
  exact ⟨⟨congrArg List.tail hwalk.scopes, hwalk.inClass⟩, hresult⟩

theorem inLoop (hw : w.Abreast w') (hc : ∀ {u u' : Walk}, u.Abreast u' → Tracks f u u' c d) :
    Tracks f w w' (Resolve.inLoop c) (Resolve.inLoop d) := by
  have hinside : Walk.Abreast { w with loops := w.loops + 1 } { w' with loops := w'.loops + 1 } :=
    ⟨hw.scopes, hw.inClass⟩
  obtain ⟨hwalk, hresult⟩ := hc hinside
  exact ⟨⟨hwalk.scopes, hwalk.inClass⟩, hresult⟩

theorem inFunction {role : Role} {ts : List Token} (hw : w.Abreast w')
    (hc : ∀ {u u' : Walk}, u.Abreast u' → Tracks f u u' c d) :
    Tracks f w w' (Resolve.inFunction role ts c) (Resolve.inFunction role ts d) := by
  have h : Tracks f { w with role := role, loops := 0 } { w' with role := role, loops := 0 }
      (Resolve.inScope [] do
        Resolve.declareAll ts
        c)
      (Resolve.inScope [] do
        Resolve.declareAll ts
        d) :=
    inScope [] ⟨hw.scopes, hw.inClass⟩ fun hw => bind (declareAll hw ts) fun _ hw => hc hw
  exact ⟨⟨h.walk.scopes, h.walk.inClass⟩, h.result⟩

theorem inClass (hw : w.Abreast w') (hc : ∀ {u u' : Walk}, u.Abreast u' → Tracks f u u' c d) :
    Tracks f w w' (Resolve.inClass t c) (Resolve.inClass t d) := by
  have h : Tracks f { w with inClass := true } { w' with inClass := true } (do
      Resolve.declare t
      Resolve.define t
      Resolve.inScope [(receiverName, true)] c) (do
      Resolve.declare t
      Resolve.define t
      Resolve.inScope [(receiverName, true)] d) :=
    bind (declare ⟨hw.scopes, rfl⟩) fun _ hw => bind (define hw) fun _ hw => inScope _ hw hc
  exact ⟨⟨h.walk.scopes, hw.inClass⟩, h.result⟩

end Tracks
end Resolve

/-! ### Trees -/

theorem Expr.isPlace_map {ρ τ : Type} (σ : Token → Token) (g : ρ → τ) (e : Expr ρ) :
    (e.map σ g).isPlace = e.isPlace := by
  cases e with
  | function name params body => cases name <;> rfl
  | _ => rfl

theorem Expr.isPlace_resolve (e : RawExpr) (w : Walk) : (e.resolve w).1.isPlace = e.isPlace := by
  have hraw := Expr.isPlace_map id (fun _ => ()) (e.resolve w).1
  rwa [← Expr.raw, Expr.raw_resolve, eq_comm] at hraw

/-- Inside an expression the scopes are those around it, whatever has been walked. -/
theorem Expr.resolve_abreast (e : RawExpr) (w : Walk) : w.Abreast (e.resolve w).2 :=
  ⟨(e.resolve_leaves w).scopes, (e.resolve_upright w).returns.inClass⟩

section
variable {ρ : Type} {plain : Token → Token} {chosen : Path → Bool}

theorem Expr.writtenOut_of_isPlace {e : Expr ρ} (h : e.isPlace) (p : Path) :
    e.writtenOut plain chosen p = e := by
  cases e with
  | «variable» t mark => rfl
  | this t mark => rfl
  | _ => cases h

theorem Expr.isPlace_writeOutIf (b : Bool) (e : Expr ρ) :
    (e.writeOutIf plain b).isPlace = e.isPlace := by
  cases b with
  | false => rfl
  | true =>
    simp only [writeOutIf, if_true]
    unfold writeOut
    split
    · rfl
    · split <;> rfl
    · rfl

theorem Expr.isPlace_writtenOut (e : Expr ρ) (p : Path) :
    (e.writtenOut plain chosen p).isPlace = e.isPlace := by
  cases e with
  | assign t operator e mark => exact Expr.isPlace_writeOutIf _ _
  | set o t operator e => exact Expr.isPlace_writeOutIf _ _
  | _ => rfl

variable {p : Path} {t sign : Token} {operator : Option Token} {o e : Expr ρ} {mark : ρ}

theorem Expr.writtenOut_assign_stays (h : operator = none ∨ chosen p = false) :
    (Expr.assign t operator e mark).writtenOut plain chosen p =
      .assign t operator (e.writtenOut plain chosen (0 :: p)) mark := by
  rcases h with rfl | h
  · cases hchosen : chosen p <;> simp [writtenOut, writeOutIf, writeOut]
  · simp [writtenOut, writeOutIf, h]

theorem Expr.writtenOut_assign_chosen (h : chosen p) :
    (Expr.assign t (some sign) e mark).writtenOut plain chosen p = .assign t none
      (.binary (.variable t mark) (plain sign) (e.writtenOut plain chosen (0 :: p))) mark := by
  simp [writtenOut, writeOutIf, writeOut, h]

theorem Expr.writtenOut_set_stays (h : operator = none ∨ chosen p = false ∨ o.isPlace = false) :
    (Expr.set o t operator e).writtenOut plain chosen p =
      .set (o.writtenOut plain chosen (0 :: p)) t operator
        (e.writtenOut plain chosen (1 :: p)) := by
  rcases h with rfl | h | h
  · cases hchosen : chosen p <;> simp [writtenOut, writeOutIf, writeOut]
  · simp [writtenOut, writeOutIf, h]
  · cases hchosen : chosen p <;> cases operator <;>
      simp [writtenOut, writeOutIf, writeOut, Expr.isPlace_writtenOut, h]

theorem Expr.writtenOut_set_chosen (h : chosen p) (ho : o.isPlace) :
    (Expr.set o t (some sign) e).writtenOut plain chosen p = .set o t none
      (.binary (.get o t) (plain sign) (e.writtenOut plain chosen (1 :: p))) := by
  simp [writtenOut, writeOutIf, writeOut, h, Expr.writtenOut_of_isPlace ho, ho]

end

/-! ### Assignments -/

/-- A place is the same for two walks that are abreast. -/
theorem Expr.resolve_place {o : RawExpr} {w w' : Walk} (h : o.isPlace) (hw : w.Abreast w') :
    Tracks id w w' o.resolve o.resolve := by
  cases o with
  | «variable» t mark =>
    exact Tracks.check (q := fun w => isPending w.scopes t.lexeme)
      (r := fun w => isPending w.scopes t.lexeme) hw fun hw =>
        Tracks.bind (Tracks.refer .variable t.lexeme hw) fun _ hw => Tracks.pure hw rfl
  | this keyword mark => exact Tracks.this keyword mark hw
  | _ => cases h

section
variable {plain : Token → Token} {chosen : Path → Bool} {p : Path} {w w' : Walk}

open Resolve.Tracks

theorem Expr.place_writtenOut {o : RawExpr} (h : o.isPlace) (hw : w.Abreast w') :
    Tracks (Expr.writtenOut plain chosen p) w w' o.resolve
      (o.writtenOut plain chosen p).resolve := by
  have hplace := Expr.resolve_place h hw
  rw [Expr.writtenOut_of_isPlace h]
  refine ⟨hplace.walk, ?_⟩
  rw [Expr.writtenOut_of_isPlace ((o.isPlace_resolve w).trans h)]
  exact hplace.result

variable {t sign : Token} {operator : Option Token} {o e : RawExpr} {mark : Unit}

section
variable (he : ∀ {w w' : Walk}, w.Abreast w' → Tracks (Expr.writtenOut plain chosen (0 :: p)) w w'
  e.resolve (e.writtenOut plain chosen (0 :: p)).resolve)
include he

/-- The old value is that of the name that is assigned. -/
theorem Expr.assign_chosen (hw : w.Abreast w') (h : chosen p) :
    Tracks (Expr.writtenOut plain chosen p) w w' (Expr.assign t (some sign) e mark).resolve
      ((Expr.assign t (some sign) e mark).writtenOut plain chosen p).resolve := by
  let e' := e.writtenOut plain chosen (0 :: p)
  have hread := he (hw.trans (Expr.resolve_abreast (.variable t mark) w'))
  have hwritten := refer (t := t) .assign t.lexeme hread.walk
  have hmark : (Resolve.refer .assign t t.lexeme (e.resolve w).2).1 =
      distance? w.scopes t.lexeme := by
    rw [refer_eq, (e.resolve_leaves w).scopes]
  rw [Expr.writtenOut_assign_chosen h]
  refine ⟨hwritten.walk, ?_⟩
  calc ((Expr.assign t none (.binary (.variable t mark) (plain sign) e') mark).resolve w').1
      = .assign t none (.binary ((Expr.variable t mark).resolve w').1 (plain sign)
          (e'.resolve ((Expr.variable t mark).resolve w').2).1)
          (Resolve.refer .assign t t.lexeme
            (e'.resolve ((Expr.variable t mark).resolve w').2).2).1 := rfl
    _ = .assign t none (.binary (.variable t (distance? w.scopes t.lexeme)) (plain sign)
          ((e.resolve w).1.writtenOut plain chosen (0 :: p))) (distance? w.scopes t.lexeme) := by
      rw [hread.result, hwritten.result, (Expr.resolve_variable t mark w').1, hw.scopes, hmark]
      rfl
    _ = ((Expr.assign t (some sign) e mark).resolve w).1.writtenOut plain chosen p := by
      rw [← Expr.writtenOut_assign_chosen h, ← hmark]
      rfl

theorem Expr.assign_writtenOut (hw : w.Abreast w') :
    Tracks (Expr.writtenOut plain chosen p) w w' (Expr.assign t operator e mark).resolve
      ((Expr.assign t operator e mark).writtenOut plain chosen p).resolve := by
  have hstays (h : operator = none ∨ chosen p = false) :
      Tracks (Expr.writtenOut plain chosen p) w w' (Expr.assign t operator e mark).resolve
        ((Expr.assign t operator e mark).writtenOut plain chosen p).resolve := by
    rw [Expr.writtenOut_assign_stays h]
    exact bind (he hw) fun _ hw => bind (refer .assign t.lexeme hw) fun _ hw =>
      pure hw (Expr.writtenOut_assign_stays h).symm
  cases operator with
  | none => exact hstays (.inl rfl)
  | some sign =>
    cases hchosen : chosen p with
    | false => exact hstays (.inr hchosen)
    | true => exact Expr.assign_chosen he hw hchosen

end

section
variable (he : ∀ {w w' : Walk}, w.Abreast w' → Tracks (Expr.writtenOut plain chosen (1 :: p)) w w'
  e.resolve (e.writtenOut plain chosen (1 :: p)).resolve)
include he

/-- The object whose field is read is the one whose field is written. -/
theorem Expr.set_chosen (hw : w.Abreast w') (h : chosen p) (hplace : o.isPlace) :
    Tracks (Expr.writtenOut plain chosen p) w w' (Expr.set o t (some sign) e).resolve
      ((Expr.set o t (some sign) e).writtenOut plain chosen p).resolve := by
  let e' := e.writtenOut plain chosen (1 :: p)
  have hfirst := Expr.resolve_place hplace hw
  have hread := he (hw.trans (o.resolve_abreast w'))
  have hagain := Expr.resolve_place hplace hread.walk
  have hobject : ((o.resolve (e.resolve w).2).1) = (o.resolve w).1 :=
    (Expr.resolve_place hplace (e.resolve_abreast w)).result
  rw [Expr.writtenOut_set_chosen h hplace]
  refine ⟨hagain.walk, ?_⟩
  calc ((Expr.set o t none (.binary (.get o t) (plain sign) e')).resolve w').1
      = .set (o.resolve (e'.resolve (o.resolve w').2).2).1 t none
          (.binary (.get (o.resolve w').1 t) (plain sign) (e'.resolve (o.resolve w').2).1) := rfl
    _ = .set (o.resolve w).1 t none (.binary (.get (o.resolve w).1 t) (plain sign)
          ((e.resolve w).1.writtenOut plain chosen (1 :: p))) := by
      rw [hagain.result, hread.result, hfirst.result, id, id, hobject]
    _ = ((Expr.set o t (some sign) e).resolve w).1.writtenOut plain chosen p := by
      rw [← Expr.writtenOut_set_chosen h ((o.isPlace_resolve w).trans hplace), ← hobject]
      rfl

theorem Expr.set_writtenOut
    (ho : ∀ {w w' : Walk}, w.Abreast w' → Tracks (Expr.writtenOut plain chosen (0 :: p)) w w'
      o.resolve (o.writtenOut plain chosen (0 :: p)).resolve) (hw : w.Abreast w') :
    Tracks (Expr.writtenOut plain chosen p) w w' (Expr.set o t operator e).resolve
      ((Expr.set o t operator e).writtenOut plain chosen p).resolve := by
  have hstays (h : operator = none ∨ chosen p = false ∨ o.isPlace = false) :
      Tracks (Expr.writtenOut plain chosen p) w w' (Expr.set o t operator e).resolve
        ((Expr.set o t operator e).writtenOut plain chosen p).resolve := by
    rw [Expr.writtenOut_set_stays h]
    refine bind (he hw) fun x hw => ?_
    have hobject := ho hw
    refine ⟨hobject.walk, ?_⟩
    rw [← o.isPlace_resolve (e.resolve w).2] at h
    have hset := congrArg (Expr.set · t operator (x.writtenOut plain chosen (1 :: p)))
      hobject.result
    exact hset.trans (Expr.writtenOut_set_stays h).symm
  cases operator with
  | none => exact hstays (.inl rfl)
  | some sign =>
    cases hchosen : chosen p with
    | false => exact hstays (.inr (.inl hchosen))
    | true =>
      cases hplace : o.isPlace with
      | false => exact hstays (.inr (.inr hplace))
      | true => exact Expr.set_chosen he hw hchosen hplace

end

/-! ### Programs -/

mutual

/-- To write out compound assignments and to resolve a program can be done in either order. -/
theorem Expr.resolve_writtenOut : (e : RawExpr) → (p : Path) → ∀ {w w' : Walk}, w.Abreast w' →
    Tracks (Expr.writtenOut plain chosen p) w w' e.resolve (e.writtenOut plain chosen p).resolve
  | .literal _, _, _, _, hw => pure hw rfl
  | .grouping e, _, _, _, hw => bind (e.resolve_writtenOut _ hw) fun _ hw => pure hw rfl
  | .unary _ e, _, _, _, hw => bind (e.resolve_writtenOut _ hw) fun _ hw => pure hw rfl
  | .binary a _ b, _, _, _, hw => bind (a.resolve_writtenOut _ hw) fun _ hw =>
      bind (b.resolve_writtenOut _ hw) fun _ hw => pure hw rfl
  | .logical a _ b, _, _, _, hw => bind (a.resolve_writtenOut _ hw) fun _ hw =>
      bind (b.resolve_writtenOut _ hw) fun _ hw => pure hw rfl
  | .variable _ _, _, _, _, hw => Expr.place_writtenOut rfl hw
  | .assign _ _ e _, _, _, _, hw => Expr.assign_writtenOut (e.resolve_writtenOut _) hw
  | .call f _ es, _, _, _, hw => bind (f.resolve_writtenOut _ hw) fun _ hw =>
      bind (Expr.resolveAll_writtenOut es _ _ hw) fun _ hw => pure hw rfl
  | .get o _, _, _, _, hw => bind (o.resolve_writtenOut _ hw) fun _ hw => pure hw rfl
  | .set o _ _ e, _, _, _, hw =>
    Expr.set_writtenOut (e.resolve_writtenOut _) (o.resolve_writtenOut _) hw
  | .this _ _, _, _, _, hw => Expr.place_writtenOut rfl hw
  | .function none _ body, _, _, _, hw =>
    bind (inFunction hw (Stmt.resolveAll_writtenOut body _ _)) fun _ hw => pure hw rfl
  | .function (some _) _ body, _, _, _, hw =>
    bind (inScope [] hw fun hw => bind (declare hw) fun _ hw => bind (define hw) fun _ hw =>
      inFunction hw (Stmt.resolveAll_writtenOut body _ _)) fun _ hw => pure hw rfl

theorem Expr.resolveAll_writtenOut : (es : List RawExpr) → (p : Path) → (i : Nat) →
    ∀ {w w' : Walk}, w.Abreast w' → Tracks (Expr.writtenOutAll plain chosen p i) w w'
      (Expr.resolveAll es) (Expr.resolveAll (Expr.writtenOutAll plain chosen p i es))
  | [], _, _, _, _, hw => pure hw rfl
  | e :: es, _, _, _, _, hw => bind (e.resolve_writtenOut _ hw) fun _ hw =>
      bind (Expr.resolveAll_writtenOut es _ _ hw) fun _ hw => pure hw rfl

theorem Stmt.resolve_writtenOut : (s : RawStmt) → (p : Path) → ∀ {w w' : Walk}, w.Abreast w' →
    Tracks (Stmt.writtenOut plain chosen p) w w' s.resolve (s.writtenOut plain chosen p).resolve
  | .expression e, _, _, _, hw => bind (e.resolve_writtenOut _ hw) fun _ hw => pure hw rfl
  | .print e, _, _, _, hw => bind (e.resolve_writtenOut _ hw) fun _ hw => pure hw rfl
  | .varDecl _ none, _, _, _, hw => bind (declare hw) fun _ hw => bind (define hw) fun _ hw =>
      pure hw rfl
  | .varDecl _ (some e), _, _, _, hw => bind (declare hw) fun _ hw =>
      bind (e.resolve_writtenOut _ hw) fun _ hw => bind (define hw) fun _ hw => pure hw rfl
  | .block body, _, _, _, hw =>
    bind (inScope [] hw (Stmt.resolveAll_writtenOut body _ _)) fun _ hw => pure hw rfl
  | .ifElse c yes none, _, _, _, hw => bind (c.resolve_writtenOut _ hw) fun _ hw =>
      bind (yes.resolve_writtenOut _ hw) fun _ hw => pure hw rfl
  | .ifElse c yes (some no), _, _, _, hw => bind (c.resolve_writtenOut _ hw) fun _ hw =>
      bind (yes.resolve_writtenOut _ hw) fun _ hw => bind (no.resolve_writtenOut _ hw) fun _ hw =>
        pure hw rfl
  | .loop c body none, _, _, _, hw => bind (c.resolve_writtenOut _ hw) fun _ hw =>
      bind (inLoop hw (body.resolve_writtenOut _)) fun _ hw => pure hw rfl
  | .loop c body (some n), _, _, _, hw => bind (c.resolve_writtenOut _ hw) fun _ hw =>
      bind (inLoop hw (body.resolve_writtenOut _)) fun _ hw =>
        bind (n.resolve_writtenOut _ hw) fun _ hw => pure hw rfl
  | .breakLoop _, _, _, _, hw =>
    check (q := (·.loops = 0)) (r := (·.loops = 0)) hw fun hw => pure hw rfl
  | .continueLoop _, _, _, _, hw =>
    check (q := (·.loops = 0)) (r := (·.loops = 0)) hw fun hw => pure hw rfl
  | .returnFrom _ none, _, _, _, hw =>
    check (q := (·.role = .topLevel)) (r := (·.role = .topLevel)) hw fun hw => pure hw rfl
  | .returnFrom _ (some e), _, _, _, hw =>
    check (q := (·.role = .topLevel)) (r := (·.role = .topLevel)) hw fun hw =>
      check (q := (·.role = .initializer)) (r := (·.role = .initializer)) hw fun hw =>
        bind (e.resolve_writtenOut _ hw) fun _ hw => pure hw rfl
  | .functionDecl _ _ body, _, _, _, hw => bind (declare hw) fun _ hw =>
      bind (define hw) fun _ hw => bind (inFunction hw (Stmt.resolveAll_writtenOut body _ _))
        fun _ hw => pure hw rfl
  | .classDecl _ methods, _, _, _, hw =>
    bind (inClass hw (Method.resolveAll_writtenOut methods _ _)) fun _ hw => pure hw rfl

theorem Stmt.resolveAll_writtenOut : (ss : List RawStmt) → (p : Path) → (i : Nat) →
    ∀ {w w' : Walk}, w.Abreast w' → Tracks (Stmt.writtenOutAll plain chosen p i) w w'
      (Stmt.resolveAll ss) (Stmt.resolveAll (Stmt.writtenOutAll plain chosen p i ss))
  | [], _, _, _, _, hw => pure hw rfl
  | s :: ss, _, _, _, _, hw => bind (s.resolve_writtenOut _ hw) fun _ hw =>
      bind (Stmt.resolveAll_writtenOut ss _ _ hw) fun _ hw => pure hw rfl

theorem Method.resolve_writtenOut : (m : RawMethod) → (p : Path) → ∀ {w w' : Walk},
    w.Abreast w' → Tracks (Method.writtenOut plain chosen p) w w' m.resolve
      (m.writtenOut plain chosen p).resolve
  | .mk _ _ body, _, _, _, hw =>
    bind (inFunction hw (Stmt.resolveAll_writtenOut body _ _)) fun _ hw => pure hw rfl

theorem Method.resolveAll_writtenOut : (ms : List RawMethod) → (p : Path) → (i : Nat) →
    ∀ {w w' : Walk}, w.Abreast w' → Tracks (Method.writtenOutAll plain chosen p i) w w'
      (Method.resolveAll ms) (Method.resolveAll (Method.writtenOutAll plain chosen p i ms))
  | [], _, _, _, _, hw => pure hw rfl
  | m :: ms, _, _, _, _, hw => bind (m.resolve_writtenOut _ hw) fun _ hw =>
      bind (Method.resolveAll_writtenOut ms _ _ hw) fun _ hw => pure hw rfl

end

/-- What a program with compound assignments written out refers to is what the program refers to. -/
theorem resolve_writtenOutAll (program : List RawStmt) :
    (resolve (Stmt.writtenOutAll plain chosen [] 0 program)).program =
      Stmt.writtenOutAll plain chosen [] 0 (resolve program).program :=
  (Stmt.resolveAll_writtenOut program [] 0 ⟨rfl, rfl⟩).result

end
/-! ### Evaluation -/

/-- The same failure, or the same fault at another token. -/
inductive Failure.Moved (t u : Token) : Failure → Failure → Prop
  | same (failure : Failure) : Moved t u failure failure
  | fault (cause : Fault) : Moved t u (.fault t cause) (.fault u cause)

/-- Runs that end in the same state with the same value or the same failure, but that a fault which
is at one token in the first may be at another one in the second. -/
inductive EndsAlike {α : Type} (t u : Token) :
    EStateM.Result Failure Machine α → EStateM.Result Failure Machine α → Prop
  | value (a : α) (m : Machine) : EndsAlike t u (.ok a m) (.ok a m)
  | failure {f g : Failure} (m : Machine) : f.Moved t u g → EndsAlike t u (.error f m) (.error g m)

namespace EndsAlike
variable {α β : Type} {t u : Token} {m : Machine} {c c' : Run α}

theorem refl (r : EStateM.Result Failure Machine α) : EndsAlike t u r r := by
  cases r with
  | ok a m => exact .value a m
  | error failure m => exact .failure m (.same failure)

theorem bind {k k' : α → Run β} (hk : ∀ a m', c m = .ok a m' → EndsAlike t u (k a m') (k' a m')) :
    EndsAlike t u ((c >>= k) m) ((c >>= k') m) := by
  simp only [Bind.bind, EStateM.bind]
  cases hc : c m with
  | ok a m' => exact hk a m' hc
  | error failure m' => exact .failure m' (.same failure)

theorem before (h : EndsAlike t u (c m) (c' m)) (k : α → Run β) :
    EndsAlike t u ((c >>= k) m) ((c' >>= k) m) := by
  simp only [Bind.bind, EStateM.bind]
  revert h
  generalize c m = r
  generalize c' m = r'
  intro h
  cases h with
  | value a m' => exact refl _
  | failure m' hmoved => exact .failure m' hmoved

end EndsAlike

theorem Run.bind_congr_at {α β : Type} {c c' : Run α} {m : Machine} (h : c m = c' m)
    (k : α → Run β) : (c >>= k) m = (c' >>= k) m := by
  simp only [Bind.bind, EStateM.bind, h]

/-- What the operator of a compound assignment gives for two values is said without the token at
which it stands, which is only where a fault is placed. -/
theorem Value.apply_compound {k kind : Kind} (h : k.compound? = some kind) (a b : Value) :
    ∃ r : Except Fault Value, ∀ t, Value.apply t kind a b = r.mapError (.fault t) := by
  have hnumbers (hkind : kind = .minus ∨ kind = .star ∨ kind = .slash) :
      ∃ r : Except Fault Value, ∀ t, Value.apply t kind a b = r.mapError (.fault t) := by
    have hpair (x y : Float) :
        ∃ r : Except Fault Value, ∀ t, arithmetic t kind x y = r.mapError (.fault t) := by
      rcases hkind with rfl | rfl | rfl
      · exact ⟨.ok (.number (x - y)), fun _ => rfl⟩
      · exact ⟨.ok (.number (x * y)), fun _ => rfl⟩
      · by_cases hy : y == 0
        · exact ⟨.error .divisionByZero, fun _ => if_pos hy⟩
        · exact ⟨.ok (.number (x / y)), fun _ => if_neg hy⟩
    rcases hkind with rfl | rfl | rfl <;> cases a <;> cases b <;>
      first | exact hpair _ _ | exact ⟨.error .numberOperands, fun _ => rfl⟩
  cases k with
  | plusEqual =>
    cases h
    simp only [Value.apply, Value.plus]
    split
    · exact ⟨.ok _, fun _ => rfl⟩
    · split
      · exact ⟨.ok _, fun _ => rfl⟩
      · exact ⟨.error .numberOrTextOperands, fun _ => rfl⟩
  | minusEqual =>
    cases h
    exact hnumbers (.inl rfl)
  | starEqual =>
    cases h
    exact hnumbers (.inr (.inl rfl))
  | slashEqual =>
    cases h
    exact hnumbers (.inr (.inr rfl))
  | _ => cases h

section
variable {plain : Token → Token} {sign : Token} {kind : Kind} {m : Machine}

/-- What a compound assignment stores is what the operator gives that it stands for. -/
theorem assigned_endsAlike (hsign : sign.kind.compound? = some kind)
    (hplain : (plain sign).kind = kind) (current value : Run Value) :
    EndsAlike sign (plain sign) (assigned (some sign) current value m)
      ((do
        let a ← current
        let b ← value
        if (plain sign).kind = Kind.comma then return b
        else Run.ofExcept (Value.apply (plain sign) (plain sign).kind a b)) m) := by
  have hcomma : kind ≠ .comma := by
    rintro rfl
    revert hsign
    cases sign.kind <;> simp [Kind.compound?]
  have hkind (k : Kind → Run Value) : Run.ofExcept (underlying sign) >>= k = k kind := by
    rw [underlying, hsign]
    rfl
  simp only [assigned, hkind, hplain, if_neg hcomma]
  refine EndsAlike.bind fun a u _ => EndsAlike.bind fun b v _ => ?_
  obtain ⟨r, hr⟩ := Value.apply_compound hsign a b
  rw [hr, hr]
  cases r with
  | ok x => exact .refl _
  | error cause => exact .failure v (.fault cause)

variable (turns : Nat) (invoke : Invoke)

/-- To look up a name or the receiver changes nothing. -/
theorem Expr.eval_place {o : ResolvedExpr} (h : o.isPlace) {v : Value} {m' : Machine}
    (hrun : o.eval turns invoke m = .ok v m') : m' = m := by
  have hlook {t : Token} {d : Option Nat} (hrun : Run.lookUp t d m = .ok v m') : m' = m := by
    have hread {r : Except Failure Value} (hr : Run.ofExcept r m = .ok v m') : m' = m := by
      cases r <;> cases hr
      rfl
    cases d with
    | none => exact hread hrun
    | some d => exact hread hrun
  cases o with
  | «variable» t d => exact hlook hrun
  | this t d => exact hlook hrun
  | _ => cases h

theorem Expr.compound_sign {ρ : Type} {e : Expr ρ} (hshaped : (Node.expr e).Shaped)
    (he : e.sign? = some sign) : sign.kind.compound?.isSome := by
  cases e with
  | assign t operator e mark =>
    cases he
    exact hshaped
  | set o t operator e =>
    simp only [sign?] at he
    split at he
    · cases he
      exact hshaped
    · cases he
  | _ => cases he

/-- A compound assignment that is written out does in every state what it did. -/
theorem Expr.eval_writeOut {e : ResolvedExpr} (he : e.sign? = some sign)
    (hsign : sign.kind.compound? = some kind) (hplain : (plain sign).kind = kind) :
    EndsAlike sign (plain sign) (e.eval turns invoke m)
      ((e.writeOut plain).eval turns invoke m) := by
  cases e with
  | assign t operator e d =>
    cases he
    exact EndsAlike.before (assigned_endsAlike hsign hplain _ _) _
  | set o t operator e =>
    simp only [sign?] at he
    split at he
    next hplace =>
      cases he
      simp only [writeOut, hplace, if_true, Expr.eval]
      refine EndsAlike.bind fun v m' hrun => ?_
      cases Expr.eval_place turns invoke hplace hrun
      cases v with
      | object ob =>
        have hget : (Expr.get o t).eval turns invoke m = Run.getProperty ob t m := by
          simp only [Expr.eval, Bind.bind, EStateM.bind, hrun]
        have hcurrent : (Expr.binary (.get o t) (plain sign) e).eval turns invoke m =
            (do
              let a ← Run.getProperty ob t
              let b ← e.eval turns invoke
              if (plain sign).kind = Kind.comma then return b
              else Run.ofExcept (Value.apply (plain sign) (plain sign).kind a b)) m :=
          Run.bind_congr_at hget _
        refine EndsAlike.before ?_ _
        have hstored := assigned_endsAlike hsign hplain (Run.getProperty ob t) (e.eval turns invoke)
          (m := m)
        rw [← hcurrent] at hstored
        exact hstored
      | _ => exact .refl _
    next => cases he
  | _ => cases he

end

/-- Let any compound assignments of an accepted program be written out. The names and receivers in
the program refer to what they referred to, the old value to what is assigned. In every state, a
compound assignment that is written out prints, leaves behind and gives or fails with what it did,
whatever its operand does. -/
theorem Accepted.compound_written_out {source : String} (h : Accepted source)
    {plain : Token → Token}
    (hplain : ∀ sign kind, sign.kind.compound? = some kind → (plain sign).kind = kind) :
    (∀ chosen, (resolve (Stmt.writtenOutAll plain chosen [] 0 (programOf source))).program =
      Stmt.writtenOutAll plain chosen [] 0 (resolve (programOf source)).program) ∧
    ∀ (number : Nat) (x : Spot), x.In number source → ∀ (e : ResolvedExpr) (sign : Token),
      x.node = .expr e → e.sign? = some sign → ∀ (turns : Nat) (invoke : Invoke) (m : Machine),
        EndsAlike sign (plain sign) (e.eval turns invoke m)
          ((e.writeOut plain).eval turns invoke m) := by
  refine ⟨fun chosen => resolve_writtenOutAll _, ?_⟩
  intro number x hx e sign hnode he turns invoke m
  have hshaped : (Node.expr e).Shaped := hnode ▸ h.shaped hx
  obtain ⟨kind, hsign⟩ := Option.isSome_iff_exists.mp (Expr.compound_sign hshaped he)
  exact Expr.eval_writeOut turns invoke he hsign (hplain sign kind hsign)

/-- Operands that write what is assigned: a variable, and a field of an object and of a receiver. -/
theorem Accepted.compound_written_out_targets :
    let source := "class A \x7b m() \x7b this.f += this.f = \"1\"; \x7d \x7d var a = A(); " ++
      "a.f = \"2\"; a.f += a.f = \"3\"; a.m(); var b = a.f; b += b = \"4\"; print b;"
    let plain (sign : Token) : Token := { sign with kind := sign.kind.compound?.getD sign.kind }
    Accepted source ∧
      (∃ y ∈ Spot.stmts [0] 0 [] (resolve (programOf source)).program, ∃ x ∈ y.children,
        ∃ (e : ResolvedExpr) (sign : Token), x.node = .expr e ∧ e.sign? = some sign ∧
          ∀ (turns : Nat) (invoke : Invoke) (m : Machine),
            EndsAlike sign (plain sign) (e.eval turns invoke m)
              ((e.writeOut plain).eval turns invoke m)) ∧
      (resolve (Stmt.writtenOutAll plain (fun _ => true) [] 0 (programOf source))).program =
        Stmt.writtenOutAll plain (fun _ => true) [] 0 (resolve (programOf source)).program := by
  intro source plain
  have hsource : Accepted source := by decide +kernel
  have hplain (sign : Token) (kind : Kind) (hkind : sign.kind.compound? = some kind) :
      (plain sign).kind = kind := congrArg (·.getD sign.kind) hkind
  obtain ⟨hprogram, hnodes⟩ := Accepted.compound_written_out hsource hplain
  have hfound : ∃ y ∈ Spot.stmts [0] 0 [] (resolve (programOf source)).program,
      ∃ x ∈ y.children, x.node.sign?.isSome := by
    decide +kernel
  obtain ⟨y, hy, x, hx, hsign⟩ := hfound
  refine ⟨hsource, ⟨y, hy, x, hx, ?_⟩, hprogram _⟩
  cases hnode : x.node with
  | expr e =>
    rw [hnode] at hsign
    obtain ⟨sign, he⟩ := Option.isSome_iff_exists.mp hsign
    exact ⟨e, sign, rfl, he, hnodes 0 x ⟨y, hy, .single hx⟩ e sign hnode he⟩
  | stmt s =>
    rw [hnode] at hsign
    cases hsign

end LoxScript
