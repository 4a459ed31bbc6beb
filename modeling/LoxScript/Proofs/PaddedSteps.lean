import LoxScript.Proofs.Padding

/-!
Machines in step.

Each operation of a machine has a law here: run on both machines of an overlay it gives values that
correspond and leaves the machines in step, or fails with one failure. Where only the second machine
enters a scope, it stays in step with the first for as long as it is there.
-/
namespace LoxScript

variable {P : Padding} {w : Overlay P} {Γ : List Link}

namespace Overlay

/-- The machines in other environments. -/
def moved (w : Overlay P) (e e' : Environment) : Overlay P :=
  { w with left.environment := e, right.environment := e' }

/-- The machines after a definition in one frame of the first and in its place. -/
def define (w : Overlay P) (a : Address) (name : String) (v v' : Value) : Overlay P :=
  { w with
    left.store := w.left.store.define a name v
    right.store := w.right.store.define (w.place a) name v' }

/-- The machines with one more frame each. -/
def addFrame (w : Overlay P) (b b' : Bindings Value) : Overlay P where
  left := { w.left with store := (w.left.store.addFrame b).2 }
  right := { w.right with store := (w.right.store.addFrame b').2 }
  place := fun a => if a = w.size then w.right.store.frames.size else w.place a

/-- The machines where the second has a frame more. -/
def addRoom (w : Overlay P) : Overlay P :=
  { w with right.store := (w.right.store.addFrame []).2 }

theorem Sound.moved (h : w.Sound) (e e' : Environment) : (w.moved e e').Sound := by
  have hl : w.Later (w.moved e e') := ⟨Nat.le_refl _, fun _ _ => rfl⟩
  exact { h with
    globals := P.mono h.globals fun _ _ hv => hv.mono hl
    frames := fun a ha hinner => (h.frames a ha hinner).mono fun _ _ hv => hv.mono hl
    fields := fun o p ho => (h.fields o p ho).mono fun _ _ hv => hv.mono hl }

/-- A change of the machines that leaves their frames alone. -/
theorem Leads.of_stores {u : Overlay P} (h : w.Sound) (hplace : u.place = w.place)
    (hleft : u.left.environment = w.left.environment)
    (hright : u.right.environment = w.right.environment)
    (hframes : u.left.store.frames = w.left.store.frames)
    (hframes' : u.right.store.frames = w.right.store.frames)
    (hinstances : u.right.store.objects.size = u.left.store.objects.size)
    (hfields : ∀ o p : Object, p.identity = o.identity →
      Bindings.Alike Eq (Value.Padded w) (u.left.store.fields o) (u.right.store.fields p))
    (hidentities : u.right.store.identities = u.left.store.identities)
    (houtput : u.right.output = u.left.output) (hasked : u.right.asked = u.left.asked) :
    w.Leads u := by
  have hsize : u.size = w.size := congrArg Array.size hframes
  have hl : w.Later u := ⟨Nat.le_of_eq hsize.symm, fun _ _ => by rw [hplace]⟩
  have hframe (a : Address) : u.left.store.frame a = w.left.store.frame a := by
    simp only [Store.frame, hframes]
  have hframe' (a : Address) : u.right.store.frame a = w.right.store.frame a := by
    simp only [Store.frame, hframes']
  refine ⟨hl, ⟨?_, ?_, ?_, ?_, ?_, ?_, hinstances, ?_, hidentities, houtput, hasked, ?_⟩, hleft,
    hright⟩
  · rw [hsize]
    exact h.inside
  · rw [hplace]
    exact h.root
  · rw [hsize, hplace, hframes']
    exact h.placed
  · rw [hsize, hplace]
    exact h.apart
  · rw [hframe, hframe']
    exact P.mono h.globals fun _ _ hv => hv.mono hl
  · intro a ha hinner
    rw [hframe, hframe', hplace]
    exact (h.frames a (hsize ▸ ha) hinner).mono fun _ _ hv => hv.mono hl
  · intro o p ho
    exact (hfields o p ho).mono fun _ _ hv => hv.mono hl
  · rw [hsize, hplace, hframes']
    exact h.snug

theorem Later.define (w : Overlay P) (a : Address) (name : String) (v v' : Value) :
    w.Later (w.define a name v v') :=
  ⟨Nat.le_of_eq (Store.size_define _ _ _ _).symm, fun _ _ => rfl⟩

/-- A name of the globals is only defined if it is known. -/
theorem Leads.define {a : Address} {name : String} {v v' : Value} (h : w.Sound) (ha : a < w.size)
    (hname : a = 0 → P.known name) (hv : v.Padded w v') : w.Leads (w.define a name v v') := by
  have hl := Later.define w a name v v'
  have hsize : (w.define a name v v').size = w.size := Store.size_define _ _ _ _
  have hsize' : (w.define a name v v').right.store.frames.size = w.right.store.frames.size :=
    Store.size_define _ _ _ _
  have hself : (w.define a name v v').left.store.frame a = (w.left.store.frame a).set name v :=
    Store.frame_define_self _ ha _ _
  have hself' : (w.define a name v v').right.store.frame (w.place a) =
      (w.right.store.frame (w.place a)).set name v' :=
    Store.frame_define_self _ (h.placed a ha) _ _
  have hother {b : Address} (hb : b ≠ a) :
      (w.define a name v v').left.store.frame b = w.left.store.frame b :=
    Store.frame_define_of_ne _ hb _ _
  have hother' {b : Address} (hb : b < w.size) (hne : b ≠ a) :
      (w.define a name v v').right.store.frame (w.place b) = w.right.store.frame (w.place b) :=
    Store.frame_define_of_ne _ (fun hplace => hne (h.apart b hb a ha hplace)) _ _
  refine ⟨hl, { h with
    inside := hsize ▸ h.inside
    placed := fun b hb => hsize' ▸ h.placed b (hsize ▸ hb)
    apart := fun b hb c hc => h.apart b (hsize ▸ hb) c (hsize ▸ hc)
    globals := ?_
    frames := fun b hb hinner => ?_
    fields := fun o p ho => (h.fields o p ho).mono fun _ _ hw => hw.mono hl
    snug := fun hroomy => ?_ }, rfl, rfl⟩
  · have hglobals := P.mono h.globals fun _ _ hw => hw.mono hl
    by_cases hroot : a = 0
    · subst hroot
      rw [h.root] at hself'
      rw [hself, hself']
      exact P.set hglobals (hname rfl) (hv.mono hl)
    · have hright := hother' h.inside (Ne.symm hroot)
      rw [h.root] at hright
      rw [hother (Ne.symm hroot), hright]
      exact hglobals
  · have hb' : b < w.size := hsize ▸ hb
    have hframe := (h.frames b hb' hinner).mono fun _ _ hw => hw.mono hl
    by_cases hba : b = a
    · subst hba
      show Bindings.Alike _ _ _ ((w.define b name v v').right.store.frame (w.place b))
      rw [hself, hself']
      exact hframe.set (by grind) rfl (hv.mono hl)
    · show Bindings.Alike _ _ _ ((w.define a name v v').right.store.frame (w.place b))
      rw [hother hba, hother' hb' hba]
      exact hframe
  · rw [hsize, hsize']
    exact h.snug hroomy

theorem size_addFrame (w : Overlay P) (b b' : Bindings Value) :
    (w.addFrame b b').size = w.size + 1 := by
  simp [addFrame, size, Store.addFrame]

theorem place_addFrame {a : Address} (ha : a < w.size) (b b' : Bindings Value) :
    (w.addFrame b b').place a = w.place a := if_neg (Nat.ne_of_lt ha)

theorem place_addFrame_self (w : Overlay P) (b b' : Bindings Value) :
    (w.addFrame b b').place w.size = w.right.store.frames.size := if_pos rfl

theorem Later.addFrame (w : Overlay P) (b b' : Bindings Value) : w.Later (w.addFrame b b') :=
  ⟨by rw [size_addFrame]; exact Nat.le_succ _, fun _ ha => place_addFrame ha b b'⟩

theorem Leads.addFrame {b b' : Bindings Value} (h : w.Sound)
    (hb : Bindings.Alike Eq (Value.Padded w) b b') : w.Leads (w.addFrame b b') := by
  have hl := Later.addFrame w b b'
  have hsize := size_addFrame w b b'
  have hsize' : (w.addFrame b b').right.store.frames.size = w.right.store.frames.size + 1 := by
    simp [Overlay.addFrame, Store.addFrame]
  have hold {a : Address} (ha : a < w.size) :
      (w.addFrame b b').left.store.frame a = w.left.store.frame a :=
    Store.frame_addFrame_of_ne _ (Nat.ne_of_lt ha) b
  have hold' {a : Address} (ha : a < w.size) :
      (w.addFrame b b').right.store.frame (w.place a) = w.right.store.frame (w.place a) :=
    Store.frame_addFrame_of_ne _ (Nat.ne_of_lt (h.placed a ha)) b'
  have hcases {a : Address} (ha : a < (w.addFrame b b').size) : a < w.size ∨ a = w.size := by
    rw [hsize] at ha
    exact Nat.lt_succ_iff_lt_or_eq.mp ha
  refine ⟨hl, { h with
    inside := Nat.lt_of_lt_of_le h.inside hl.size
    root := (place_addFrame h.inside b b').trans h.root
    placed := fun a ha => ?_
    apart := fun a ha c hc hplace => ?_
    globals := ?_
    frames := fun a ha hinner => ?_
    fields := fun o p ho => (h.fields o p ho).mono fun _ _ hw => hw.mono hl
    snug := fun hroomy => ?_ }, rfl, rfl⟩
  · rw [hsize']
    rcases hcases ha with ha | rfl
    · rw [place_addFrame ha]
      exact Nat.lt_succ_of_lt (h.placed a ha)
    · rw [place_addFrame_self]
      exact Nat.lt_succ_self _
  · rcases hcases ha with ha | rfl
    · rcases hcases hc with hc | rfl
      · rw [place_addFrame ha, place_addFrame hc] at hplace
        exact h.apart a ha c hc hplace
      · rw [place_addFrame ha, place_addFrame_self] at hplace
        exact absurd hplace (Nat.ne_of_lt (h.placed a ha))
    · rcases hcases hc with hc | rfl
      · rw [place_addFrame_self, place_addFrame hc] at hplace
        exact absurd hplace.symm (Nat.ne_of_lt (h.placed c hc))
      · rfl
  · have hright := hold' h.inside
    rw [h.root] at hright
    rw [hold h.inside, hright]
    exact P.mono h.globals fun _ _ hw => hw.mono hl
  · rcases hcases ha with ha | rfl
    · rw [place_addFrame ha, hold ha, hold' ha]
      exact (h.frames a ha hinner).mono fun _ _ hw => hw.mono hl
    · have hnew : (w.addFrame b b').left.store.frame w.size = b := Store.frame_addFrame_self _ b
      have hnew' : (w.addFrame b b').right.store.frame w.right.store.frames.size = b' :=
        Store.frame_addFrame_self _ b'
      rw [place_addFrame_self, hnew, hnew']
      exact hb.mono fun _ _ hw => hw.mono hl
  · obtain ⟨hplace, hframes⟩ := h.snug hroomy
    refine ⟨fun a ha => ?_, by rw [hsize, hsize', hframes]⟩
    rcases hcases ha with ha | rfl
    · rw [place_addFrame ha]
      exact hplace a ha
    · rw [place_addFrame_self]
      exact hframes

theorem Threads.inner {as bs : List Address} {l : Link} (h : w.Threads Γ as bs) (hl : l ≠ .extra)
    (hinside : 0 < w.size) (b b' : Bindings Value) :
    (w.addFrame b b').Threads (l :: Γ) (w.size :: as) (w.right.store.frames.size :: bs) := by
  have hnew : w.size < (w.addFrame b b').size := by
    rw [size_addFrame]
    exact Nat.lt_succ_self _
  rw [← place_addFrame_self w b b']
  exact .frame hl hnew hinside (h.mono (.addFrame w b b'))

/-- A frame that only the second machine has is in no place. -/
theorem Leads.addRoom (hroomy : P.roomy) (h : w.Sound) : w.Leads w.addRoom := by
  have hl : w.Later w.addRoom := ⟨Nat.le_refl _, fun _ _ => rfl⟩
  have hsize' : w.addRoom.right.store.frames.size = w.right.store.frames.size + 1 := by
    simp [Overlay.addRoom, Store.addFrame]
  have hold' {a : Address} (ha : a < w.size) :
      w.addRoom.right.store.frame (w.place a) = w.right.store.frame (w.place a) :=
    Store.frame_addFrame_of_ne _ (Nat.ne_of_lt (h.placed a ha)) []
  refine ⟨hl, { h with
    placed := fun a ha => ?_
    globals := ?_
    frames := fun a ha hinner => ?_
    fields := fun o p ho => (h.fields o p ho).mono fun _ _ hw => hw.mono hl
    snug := fun hsnug => absurd hroomy hsnug }, rfl, rfl⟩
  · rw [hsize']
    exact Nat.lt_succ_of_lt (h.placed a ha)
  · have hright := hold' h.inside
    rw [h.root] at hright
    rw [hright]
    exact P.mono h.globals fun _ _ hw => hw.mono hl
  · show Bindings.Alike _ _ _ (w.addRoom.right.store.frame (w.place a))
    rw [hold' ha]
    exact (h.frames a ha hinner).mono fun _ _ hw => hw.mono hl

/-- The ways in which both machines end a step: with results of which `Q` holds, or in one
failure. -/
inductive Ends {α β : Type} (w : Overlay P) (Q : α → β → Overlay P → Prop) :
    EStateM.Result Failure Machine α → EStateM.Result Failure Machine β → Prop
  | ok {a : α} {b : β} {u : Overlay P} (leads : w.Leads u) (holds : Q a b u) :
      Ends w Q (.ok a u.left) (.ok b u.right)
  | error {f : Failure} {u : Overlay P} (leads : w.Leads u) :
      Ends w Q (.error f u.left) (.error f u.right)

theorem Ends.after {α β : Type} {u : Overlay P} {Q : α → β → Overlay P → Prop}
    {x : EStateM.Result Failure Machine α} {y : EStateM.Result Failure Machine β}
    (h : u.Ends Q x y) (hl : w.Leads u) : w.Ends Q x y := by
  cases h with
  | ok leads holds => exact .ok (hl.trans leads) holds
  | error leads => exact .error (hl.trans leads)

end Overlay

namespace Run

/-- A step of the second machine that keeps it in step with the first one. -/
def Shadows {α β : Type} (w : Overlay P) (Q : α → β → Overlay P → Prop) (c : Run α) (d : Run β) :
    Prop := w.Ends Q (c w.left) (d w.right)

/-- Steps that give values in step. -/
abbrev Echoes (w : Overlay P) (c d : Run Value) : Prop :=
  Shadows w (fun v v' u => v.Padded u v') c d

namespace Shadows
variable {α β γ δ : Type} {Q : α → β → Overlay P → Prop} {Q' : γ → δ → Overlay P → Prop}
  {c : Run α} {d : Run β}

theorem pure {a : α} {b : β} (h : w.Sound) (hq : Q a b w) :
    Shadows w Q (Pure.pure a) (Pure.pure b) := .ok (.refl h) hq

theorem throw {f : Failure} (h : w.Sound) :
    Shadows w Q (MonadExcept.throw f) (MonadExcept.throw f) := .error (.refl h)

theorem bind {k : α → Run γ} {k' : β → Run δ} (hc : Shadows w Q c d)
    (hk : ∀ a b u, w.Leads u → Q a b u → Shadows u Q' (k a) (k' b)) :
    Shadows w Q' (c >>= k) (d >>= k') := by
  simp only [Shadows, Bind.bind, EStateM.bind] at hc ⊢
  generalize c w.left = x at hc ⊢
  generalize d w.right = y at hc ⊢
  cases hc with
  | ok leads holds => exact (hk _ _ _ leads holds).after leads
  | error leads => exact .error leads

theorem map {f : α → γ} {g : β → δ} (hc : Shadows w Q c d)
    (hq : ∀ a b u, Q a b u → Q' (f a) (g b) u) : Shadows w Q' (f <$> c) (g <$> d) := by
  simp only [Shadows, Functor.map, EStateM.map] at hc ⊢
  generalize c w.left = x at hc ⊢
  generalize d w.right = y at hc ⊢
  cases hc with
  | ok leads holds => exact .ok leads (hq _ _ _ holds)
  | error leads => exact .error leads

theorem discard (hc : Shadows w Q c d) :
    Shadows w (fun _ _ _ => True) (Functor.discard c) (Functor.discard d) :=
  hc.map fun _ _ _ _ => trivial

theorem reading {k : Machine → Run γ} {k' : Machine → Run δ}
    (hk : Shadows w Q' (k w.left) (k' w.right)) : Shadows w Q' (get >>= k) (get >>= k') := hk

theorem current {k k' : Environment → Run γ} {Q : γ → γ → Overlay P → Prop}
    (hk : Shadows w Q (k w.left.environment) (k' w.right.environment)) :
    Shadows w Q (Run.current >>= k) (Run.current >>= k') := hk

theorem modifying {f g : Machine → Machine} {place : Address → Address}
    (h : w.Leads ⟨f w.left, g w.right, place⟩) :
    Shadows w (fun _ _ u => u = ⟨f w.left, g w.right, place⟩) (modify f) (modify g) :=
  .ok (u := ⟨f w.left, g w.right, place⟩) h rfl

/-- A step inside other environments, from which both machines come back. -/
theorem inEnvironment {e e' : Environment} (hc : Shadows (w.moved e e') Q c d)
    (hq : ∀ a b u u', u.Later u' → Q a b u → Q a b u') :
    Shadows w Q (Run.inEnvironment e c) (Run.inEnvironment e' d) := by
  have hleads {u : Overlay P} (hu : (w.moved e e').Leads u) :
      w.Leads (u.moved w.left.environment w.right.environment) :=
    ⟨⟨hu.size, hu.place⟩, hu.sound.moved _ _, rfl, rfl⟩
  have hback (u : Overlay P) : u.Later (u.moved w.left.environment w.right.environment) :=
    ⟨Nat.le_refl _, fun _ _ => rfl⟩
  simp only [Shadows, Run.inEnvironment] at hc ⊢
  generalize hx : c (w.moved e e').left = x at hc
  generalize hy : d (w.moved e e').right = y at hc
  simp only [Overlay.moved] at hx hy
  rw [hx, hy]
  cases hc with
  | ok leads holds => exact .ok (hleads leads) (hq _ _ _ _ (hback _) holds)
  | error leads => exact .error (hleads leads)

/-! Names. -/

theorem ofGet {name : String} {b b' : Bindings Value} {f : Failure} (h : w.Sound)
    (hget : Option.Rel (Value.Padded w) (b.get? name) (b'.get? name)) :
    Echoes w
      (Run.ofExcept (match b.get? name with | some v => .ok v | none => .error f))
      (Run.ofExcept (match b'.get? name with | some v => .ok v | none => .error f)) := by
  generalize b.get? name = found at hget
  generalize b'.get? name = other at hget
  cases hget with
  | some hv => exact pure h hv
  | none => exact throw h

theorem lookUp {t : Token} {mark : Option Nat} (hS : w.Stands Γ) (hr : P.Refers Γ mark t) :
    Echoes w (Run.lookUp t mark) (Run.lookUp t (mark.map (Link.shift Γ))) := by
  apply reading
  cases mark with
  | none => exact ofGet hS.sound (P.get? hS.sound.globals hr)
  | some d =>
    obtain ⟨a, ha, hinner, hinside, hplace⟩ := hS.threads.at_mark hr
    simp only [Option.map_some, Store.getAt, Environment.frameAt, Environment.ancestor?, ha, hplace]
    have hframe := hS.sound.frames a hinside hinner
    exact ofGet hS.sound (hframe.get? (by grind) rfl)

theorem defineIn {a : Address} {name : String} {v v' : Value} (h : w.Sound) (ha : a < w.size)
    (hname : a = 0 → P.known name) (hv : v.Padded w v') :
    Shadows w (fun _ _ u => v.Padded u v') (Run.defineIn a name v)
      (Run.defineIn (w.place a) name v') := by
  have hl := Overlay.Leads.define h ha hname hv
  exact .ok (u := w.define a name v v') hl (hv.mono hl.toLater)

theorem assign {t : Token} {mark : Option Nat} {v v' : Value} (hS : w.Stands Γ)
    (hr : P.Refers Γ mark t) (hv : v.Padded w v') :
    Shadows w (fun _ _ u => v.Padded u v') (Run.assign t mark v)
      (Run.assign t (mark.map (Link.shift Γ)) v') := by
  apply reading
  cases mark with
  | none =>
    have hdefine := defineIn hS.sound hS.sound.inside (fun _ => hr) hv
    have hhas : (w.right.store.frame 0).has t.lexeme = (w.left.store.frame 0).has t.lexeme := by
      have hget := P.get? hS.sound.globals hr
      simp only [Bindings.has]
      generalize (w.left.store.frame 0).get? t.lexeme = found at hget
      generalize (w.right.store.frame 0).get? t.lexeme = other at hget
      cases hget <;> rfl
    rw [hS.sound.root] at hdefine
    dsimp only [Option.map_none]
    by_cases hbound : (w.left.store.frame 0).has t.lexeme
    · have htarget : w.left.store.target .global t = .ok 0 := if_pos hbound
      have htarget' : w.right.store.target .global t = .ok 0 := if_pos (hhas.trans hbound)
      rw [htarget, htarget']
      exact hdefine
    · have htarget : w.left.store.target .global t =
          .error (.fault t (.undefinedVariable t.lexeme)) := if_neg hbound
      have htarget' : w.right.store.target .global t =
          .error (.fault t (.undefinedVariable t.lexeme)) := if_neg (hhas ▸ hbound)
      rw [htarget, htarget']
      exact throw hS.sound
  | some d =>
    obtain ⟨a, ha, hinner, hinside, hplace⟩ := hS.threads.at_mark hr
    simp only [Option.map_some, Environment.frameAt, Environment.ancestor?, ha, hplace]
    exact defineIn hS.sound hinside (fun hroot => absurd hroot (Nat.ne_of_gt hinner)) hv

theorem define {t : Token} {v v' : Value} (hS : w.Stands Γ) (hd : P.Declares Γ t)
    (hv : v.Padded w v') :
    Shadows w (fun _ _ u => v.Padded u v') (Run.define t.lexeme v) (Run.define t.lexeme v') := by
  obtain ⟨Γ, rfl⟩ := List.head?_eq_some_iff.mp hd.1
  obtain ⟨hinside, hplace⟩ := hS.threads.frame_eq (by decide)
  apply current
  rw [hplace]
  exact defineIn hS.sound hinside (fun _ => hd.2) hv

/-! Environments, functions and instances. -/

theorem newEnvironment {e e' : Environment} {b b' : Bindings Value} {l : Link} (hl : l ≠ .extra)
    (h : w.Sound) (hthreads : w.Threads Γ e.chain e'.chain)
    (hb : Bindings.Alike Eq (Value.Padded w) b b') :
    Shadows w (fun i i' u => u.Threads (l :: Γ) i.chain i'.chain ∧ 0 < i.frame)
      (Run.newEnvironment e b) (Run.newEnvironment e' b') :=
  .ok (u := w.addFrame b b') (.addFrame h hb) ⟨hthreads.inner hl h.inside b b', h.inside⟩

/-- A step of both machines inside a new environment. -/
theorem inNewEnvironment {Q : Signal → Signal → Overlay P → Prop} {e e' : Environment}
    {b b' : Bindings Value} {c d : Run Signal} (h : w.Sound)
    (hthreads : w.Threads Γ e.chain e'.chain) (hb : Bindings.Alike Eq (Value.Padded w) b b')
    (hc : ∀ u, u.Stands (.both :: Γ) → Shadows u Q c d)
    (hq : ∀ a b u u', u.Later u' → Q a b u → Q a b u') :
    Shadows w Q (Run.newEnvironment e b >>= fun i => Run.inEnvironment i c)
      (Run.newEnvironment e' b' >>= fun i => Run.inEnvironment i d) := by
  apply bind (newEnvironment (l := .both) nofun h hthreads hb)
  intro i i' u hu hi
  refine inEnvironment (hc _ ⟨hu.sound.moved i i', ?_⟩) hq
  exact hi.1.mono ⟨Nat.le_refl _, fun _ _ => rfl⟩

/-- A step of both machines while only the second is inside a new scope. -/
theorem inRoom {Q : Signal → Signal → Overlay P → Prop} {c d : Run Signal} (hroomy : P.roomy)
    (hS : w.Stands Γ) (hc : ∀ u, u.Stands (.extra :: Γ) → Shadows u Q c d)
    (hq : ∀ a b u u', u.Later u' → Q a b u → Q a b u') :
    Shadows w Q c (do
      let i ← Run.newEnvironment (← Run.current) []
      Run.inEnvironment i d) := by
  let i := w.right.environment.inner w.right.store.frames.size
  let v := w.addRoom.moved w.left.environment i
  have hroom := Overlay.Leads.addRoom hroomy hS.sound
  have hlater : w.Later v := ⟨hroom.size, hroom.place⟩
  have hinner : v.Stands (.extra :: Γ) :=
    ⟨hroom.sound.moved _ _, .room hroomy (hS.threads.mono hlater)⟩
  have hleads {u : Overlay P} (hu : v.Leads u) :
      w.Leads (u.moved w.left.environment w.right.environment) :=
    ⟨hlater.trans ⟨hu.size, hu.place⟩, hu.sound.moved _ _, rfl, rfl⟩
  have hback (u : Overlay P) : u.Later (u.moved w.left.environment w.right.environment) :=
    ⟨Nat.le_refl _, fun _ _ => rfl⟩
  have hleft {u : Overlay P} (hu : v.Leads u) :
      (u.moved w.left.environment w.right.environment).left = u.left := by
    rw [show w.left.environment = u.left.environment from hu.left.symm]
    rfl
  have hin := hc v hinner
  have hright : (do
      let i ← Run.newEnvironment (← Run.current) []
      Run.inEnvironment i d : Run Signal) w.right = Run.inEnvironment i d w.addRoom.right := rfl
  have hmoved : { w.addRoom.right with environment := i } = v.right := rfl
  simp only [Shadows, hright, Run.inEnvironment, hmoved] at hin ⊢
  generalize hx : c v.left = x at hin
  have hx' : c w.left = x := hx
  generalize d v.right = y at hin
  rw [hx']
  cases hin with
  | @ok a b u leads holds =>
    rw [← hleft leads]
    exact .ok (hleads leads) (hq _ _ _ _ (hback u) holds)
  | @error f u leads =>
    rw [← hleft leads]
    exact .error (hleads leads)

theorem fresh (h : w.Sound) :
    Shadows w (fun i j _ => j = i) (Run.withStore Store.fresh) (Run.withStore Store.fresh) := by
  refine .ok (u := ⟨{ w.left with store := w.left.store.fresh.2 },
    { w.right with store := w.right.store.fresh.2 }, w.place⟩) ?_ h.identities
  exact .of_stores h rfl rfl rfl rfl rfl h.instances h.fields (congrArg (· + 1) h.identities)
    h.output h.asked

theorem newClosure {name : Option String} {ts : List Token} {b b' : List ResolvedStmt}
    {e e' : Environment} {isInitializer : Bool} (between : List Link) (h : w.Sound)
    (hthreads : w.Threads Γ e.chain e'.chain)
    (hbody : Stmt.AllPadded P (.both :: between ++ Γ) b b') :
    Shadows w (fun f g u => f.Padded u between Γ g ∧ f.isInitializer = isInitializer)
      (Run.newClosure name ts b e isInitializer) (Run.newClosure name ts b' e' isInitializer) := by
  apply bind (fresh h)
  rintro i _ u hl rfl
  exact pure hl.sound ⟨⟨rfl, rfl, rfl, rfl, hthreads.mono hl.toLater, hbody⟩, rfl⟩

/-- A method that is bound to a receiver is a function, inside the frame of the receiver. -/
theorem bindMethod {f g : Closure} {v v' : Value} (h : w.Sound) (hm : f.Padded w [.receiver] Γ g)
    (hv : v.Padded w v') :
    Shadows w (fun f g u => f.Padded u [] (.receiver :: Γ) g) (Run.bind f v) (Run.bind g v') := by
  have hreceiver : Bindings.Alike Eq (Value.Padded w) [(receiverName, v)] [(receiverName, v')] :=
    .cons ⟨rfl, hv⟩ .nil
  apply bind (newEnvironment (l := .receiver) nofun h hm.environment hreceiver)
  rintro e e' u hl ⟨hthreads, -⟩
  apply bind (fresh hl.sound)
  rintro i _ x hx rfl
  exact pure hx.sound
    ⟨rfl, hm.name, hm.params, hm.isInitializer, hthreads.mono hx.toLater, hm.body⟩

theorem getProperty {o p : Object} {t : Token} (h : w.Sound) (ho : p.identity = o.identity)
    (howner : o.owner.Padded w p.owner) : Echoes w (Run.getProperty o t) (Run.getProperty p t) := by
  apply reading
  have hfield := (h.fields o p ho).get? (by grind) (rfl : t.lexeme = t.lexeme)
  have hmethod := Bindings.Alike.get? (by grind) (rfl : t.lexeme = t.lexeme) howner.methods
  generalize (w.left.store.fields o).get? t.lexeme = found at hfield
  generalize (w.right.store.fields p).get? t.lexeme = other at hfield
  generalize o.owner.methods.get? t.lexeme = method at hmethod
  generalize p.owner.methods.get? t.lexeme = method' at hmethod
  cases hfield with
  | some hv => exact pure h hv
  | none =>
    cases hmethod with
    | none => exact throw h
    | some hm =>
      obtain ⟨Γ, hm⟩ := hm
      apply bind (bindMethod h hm (.object ho howner))
      intro f g u hl hf
      exact pure hl.sound (.function hf fun _ => rfl)

theorem setField {o p : Object} {name : String} {v v' : Value} (h : w.Sound)
    (ho : p.identity = o.identity) (hv : v.Padded w v') :
    Shadows w (fun _ _ u => v.Padded u v') (Run.setField o name v) (Run.setField p name v') := by
  have hl : w.Leads ⟨{ w.left with store := w.left.store.setField o name v },
      { w.right with store := w.right.store.setField p name v' }, w.place⟩ := by
    refine .of_stores h rfl rfl rfl rfl rfl ?_ (fun q r hq => ?_) h.identities h.output
      h.asked
    · simpa [Store.setField] using h.instances
    · have hold := h.fields q r hq
      simp only [Store.setField, Store.fields, Array.getElem?_modify, ho, hq] at hold ⊢
      split
      next heq =>
        have hsize : w.right.store.objects.size = w.left.store.objects.size := h.instances
        by_cases hs : q.identity < w.left.store.objects.size
        · have hs' : q.identity < w.right.store.objects.size := hsize ▸ hs
          simp only [Array.getElem?_eq_getElem hs, Array.getElem?_eq_getElem hs', Option.map_some,
            Option.getD_some] at hold ⊢
          exact hold.set (by grind) rfl hv
        · have hs' : ¬ q.identity < w.right.store.objects.size := hsize ▸ hs
          simp only [Array.getElem?_eq_none (Nat.not_lt.mp hs),
            Array.getElem?_eq_none (Nat.not_lt.mp hs')]
          exact .nil
      next => exact hold
  exact .ok hl (hv.mono hl.toLater)

theorem newMethods {e e' : Environment} {ms ms' : List ResolvedMethod}
    {found found' : Bindings Closure} (h : w.Sound) (hthreads : w.Threads Γ e.chain e'.chain)
    (hms : Method.AllPadded P Γ ms ms')
    (hfound : Bindings.Alike Eq (Closure.PaddedMethod w) found found') :
    Shadows w (fun x y u => Bindings.Alike Eq (Closure.PaddedMethod u) x y)
      (Run.newMethods e ms found) (Run.newMethods e' ms' found') := by
  induction ms generalizing w ms' found found' with
  | nil =>
    cases hms
    exact pure h hfound
  | cons m ms ih =>
    cases hms with
    | @cons _ t ts b b' _ ms' body tail =>
      apply bind (newClosure [.receiver] h hthreads body)
      rintro f g x hx ⟨hf, -⟩
      refine ih hx.sound (hthreads.mono hx.toLater) tail ?_
      exact (hfound.mono fun _ _ hm => hm.mono hx.toLater).set (by grind) rfl ⟨Γ, hf⟩

theorem addObject {c d : Class} (h : w.Sound) (hc : c.Padded w d) :
    Shadows w (fun o p u => p.identity = o.identity ∧ o.owner.Padded u p.owner)
      (Run.withStore (·.addObject c)) (Run.withStore (·.addObject d)) := by
  have hl : w.Leads ⟨{ w.left with store := (w.left.store.addObject c).2 },
      { w.right with store := (w.right.store.addObject d).2 }, w.place⟩ := by
    refine .of_stores h rfl rfl rfl rfl rfl ?_ (fun o p ho => ?_) h.identities h.output
      h.asked
    · simpa [Store.addObject] using h.instances
    · simp only [Store.fields_addObject]
      exact h.fields o p ho
  exact .ok hl ⟨h.instances, hc.mono hl.toLater⟩

/-! Operators. -/

/-- Both machines compute one constant, or fail. -/
theorem ofConstant {r r' : Except Failure Value} (h : w.Sound) (hr : r' = r)
    (hconstant : ∀ v, r = .ok v → v.isConstant) : Echoes w (Run.ofExcept r) (Run.ofExcept r') := by
  subst hr
  cases r' with
  | ok v => exact pure h (.constant (hconstant v rfl))
  | error f => exact throw h

theorem apply {a a' b b' : Value} (t : Token) (k : Kind) (h : w.Sound) (ha : a.Padded w a')
    (hb : b.Padded w b') :
    Echoes w (Run.ofExcept (Value.apply t k a b)) (Run.ofExcept (Value.apply t k a' b')) :=
  ofConstant h (ha.apply t k hb) fun _ => Value.isConstant_apply

theorem negate {v v' : Value} (t : Token) (h : w.Sound) (hv : v.Padded w v') :
    Echoes w (Run.ofExcept (v.negate t)) (Run.ofExcept (v'.negate t)) :=
  ofConstant h (hv.negate t) fun _ => Value.isConstant_negate

/-- An assignment that reads its target, if it does, finds its operator, and then has a value. -/
theorem assigned {operator : Option Token} {current current' value value' : Run Value}
    (h : w.Sound) (hc : Echoes w current current') (hv : ∀ u, w.Leads u → Echoes u value value') :
    Echoes w (LoxScript.assigned operator current value)
      (LoxScript.assigned operator current' value') := by
  cases operator with
  | none => exact hv w (.refl h)
  | some sign =>
    apply bind hc
    intro left left' u hl hleft
    have hkind : Shadows u (fun k k' _ => k' = k) (Run.ofExcept (underlying sign))
        (Run.ofExcept (underlying sign)) := by
      cases underlying sign with
      | ok k => exact pure hl.sound rfl
      | error f => exact throw hl.sound
    apply bind hkind
    rintro _ k x hx rfl
    apply bind (hv x (hl.trans hx))
    intro right right' y hy hright
    exact apply sign k hy.sound (hleft.mono (hx.toLater.trans hy.toLater)) hright

/-- A test of a value that decides how to go on. -/
theorem test {α β : Type} {Q : α → β → Overlay P → Prop} {v v' : Value} (hv : v.Padded w v')
    {yes no : Run α} {yes' no' : Run β} (hyes : Shadows w Q yes yes') (hno : Shadows w Q no no') :
    Shadows w Q (if v.truthy then yes else no) (if v'.truthy then yes' else no') := by
  rw [hv.truthy]
  split
  · exact hyes
  · exact hno

theorem loop {condition condition' : Run Bool} {body body' : Run Signal}
    {increment increment' : Run Unit} (hS : w.Stands Γ)
    (hc : ∀ u : Overlay P, u.Stands Γ → Shadows u (fun a b _ => b = a) condition condition')
    (hb : ∀ u : Overlay P, u.Stands Γ → Shadows u (fun s s' x => s.Padded x s') body body')
    (hn : ∀ u : Overlay P, u.Stands Γ → Shadows u (fun _ _ _ => True) increment increment')
    (turns : Nat) :
    Shadows w (fun s s' u => s.Padded u s') (Run.loop condition body increment turns)
      (Run.loop condition' body' increment' turns) := by
  induction turns generalizing w with
  | zero => exact throw hS.sound
  | succ turns ih =>
    apply bind (hc w hS)
    rintro _ go u hu rfl
    cases go with
    | false => exact pure hu.sound .proceed
    | true =>
      apply bind (hb u (hu.stands hS))
      intro signal signal' x hx hsignal
      have hX := hx.stands (hu.stands hS)
      cases hsignal with
      | breakLoop => exact pure hx.sound .proceed
      | returnValue padded => exact pure hx.sound (.returnValue padded)
      | proceed => exact bind (hn x hX) fun _ _ y hy _ => ih (hy.stands hX)
      | continueLoop => exact bind (hn x hX) fun _ _ y hy _ => ih (hy.stands hX)

end Shadows
end Run
end LoxScript
