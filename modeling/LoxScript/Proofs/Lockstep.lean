import LoxScript.Proofs.Likeness

/-!
Programs that are alike run in lockstep.

Run on machines that are alike, they give values that are alike and leave the machines alike, or
fail alike. Each operation of a machine has a law here, and those of expressions, statements and
calls are put together from them.
-/
namespace LoxScript

variable {L : Likeness} {w : Pairing L} {Γ : List L.Label}

namespace Pairing

def moved (w : Pairing L) (e : Environment) : Pairing L :=
  { w with left.environment := e, right.environment := e }

/-- The machines after a definition in one frame of both. -/
def define (w : Pairing L) (a : Address) (x y : String) (v v' : Value) : Pairing L :=
  { w with left.store := w.left.store.define a x v, right.store := w.right.store.define a y v' }

/-- The machines with one more frame, which gets a label. -/
def addFrame (w : Pairing L) (l : L.Label) (b b' : Bindings Value) : Pairing L where
  left := { w.left with store := (w.left.store.addFrame b).2 }
  right := { w.right with store := (w.right.store.addFrame b').2 }
  label := fun a => if a = w.size then l else w.label a

theorem Sound.moved (h : w.Sound) (e : Environment) : (w.moved e).Sound := by
  have hl : w.Later (w.moved e) := ⟨Nat.le_refl _, fun _ _ => rfl⟩
  exact { h with
    root := h.root.mono hl
    frames := fun a => (h.frames a).mono fun _ _ hv => hv.mono hl
    fields := fun o p ho => (h.fields o p ho).mono fun _ _ hv => hv.mono hl
    environment := rfl }

theorem Leads.define {a : Address} {x y : String} {v v' : Value} (h : w.Sound)
    (hn : L.names (w.label a) x y) (hv : v.Alike w v') : w.Leads (w.define a x y v v') := by
  have hl : w.Later (w.define a x y v v') :=
    ⟨Nat.le_of_eq (Store.size_define _ _ _ _).symm, fun _ _ => rfl⟩
  refine ⟨hl, { h with
    root := h.root.mono hl
    size := ?_
    frames := fun b => ?_
    fields := fun o p ho => (h.fields o p ho).mono fun _ _ hw => hw.mono hl }, rfl⟩
  · exact (Store.size_define _ _ _ _).trans (h.size.trans (Store.size_define _ _ _ _).symm)
  · have hb := (h.frames b).mono fun _ _ hw => hw.mono hl
    by_cases hba : b = a
    · subst hba
      by_cases hs : b < w.size
      · have hs' : b < w.right.store.frames.size := h.size.symm ▸ hs
        simp only [Pairing.define, Store.frame_define_self _ hs, Store.frame_define_self _ hs']
        exact hb.set L.names_unique hn (hv.mono hl)
      · have hnone : (w.left.store.define b x v).frame b = [] :=
          Store.frame_of_size_le _ (by simpa [Pairing.size] using hs)
        have hnone' : (w.right.store.define b y v').frame b = [] :=
          Store.frame_of_size_le _ (by simpa [h.size] using hs)
        simp only [Pairing.define, hnone, hnone']
        exact .nil
    · simp only [Pairing.define, Store.frame_define_of_ne _ hba]
      exact hb

theorem Later.addFrame (w : Pairing L) (l : L.Label) (b b' : Bindings Value) :
    w.Later (w.addFrame l b b') := by
  refine ⟨?_, fun a ha => if_neg (Nat.ne_of_lt ha)⟩
  simp [Pairing.addFrame, Pairing.size, Store.addFrame]

theorem Leads.addFrame {l : L.Label} {b b' : Bindings Value} (h : w.Sound)
    (hb : Bindings.Alike (L.names l) (Value.Alike w) b b') : w.Leads (w.addFrame l b b') := by
  have hl := Later.addFrame w l b b'
  refine ⟨hl, { h with
    root := h.root.mono hl
    size := ?_
    frames := fun a => ?_
    fields := fun o p ho => (h.fields o p ho).mono fun _ _ hw => hw.mono hl }, rfl⟩
  · have hsize : w.right.store.frames.size = w.left.store.frames.size := h.size
    simp [Pairing.addFrame, Pairing.size, Store.addFrame, hsize]
  · by_cases ha : a = w.size
    · have hframe : (w.left.store.addFrame b).2.frame a = b :=
        ha ▸ Store.frame_addFrame_self _ b
      have hframe' : (w.right.store.addFrame b').2.frame a = b' :=
        (ha.trans h.size.symm) ▸ Store.frame_addFrame_self _ b'
      have hlabel : (w.addFrame l b b').label a = l := if_pos ha
      rw [hlabel]
      change Bindings.Alike _ _ ((w.left.store.addFrame b).2.frame a) ((w.right.store.addFrame b').2.frame a)
      rw [hframe, hframe']
      exact hb.mono fun _ _ hw => hw.mono hl
    · have ha' : a ≠ w.right.store.frames.size := fun he => ha (he.trans h.size)
      have hframe := Store.frame_addFrame_of_ne w.left.store ha b
      have hframe' := Store.frame_addFrame_of_ne w.right.store ha' b'
      have hlabel : (w.addFrame l b b').label a = w.label a := if_neg ha
      rw [hlabel]
      change Bindings.Alike _ _ ((w.left.store.addFrame b).2.frame a) ((w.right.store.addFrame b').2.frame a)
      rw [hframe, hframe']
      exact (h.frames a).mono fun _ _ hw => hw.mono hl

/-- The chain of a new environment has the label of its frame before those of the chain in which
it was made. -/
theorem Labels.inner {e : Environment} (h : w.Labels e.chain Γ) (l : L.Label)
    (b b' : Bindings Value) : (w.addFrame l b b').Labels (e.inner w.size).chain (l :: Γ) := by
  intro label hlabel
  have hsize : w.size < (w.addFrame l b b').size := by
    simp [Pairing.addFrame, Pairing.size, Store.addFrame]
  have hhead : label w.size = l := (hlabel _ hsize).trans (if_pos rfl)
  have htail := h.mono (Later.addFrame w l b b') label hlabel
  rw [Environment.inner, Environment.chain, List.map_cons, hhead, htail]

/-- A change of the machines that the labels do not see. -/
theorem Leads.of_stores {u : Pairing L} (h : w.Sound) (hlabel : u.label = w.label)
    (henvironment : u.left.environment = w.left.environment)
    (henvironment' : u.right.environment = w.right.environment)
    (hframes : u.left.store.frames = w.left.store.frames)
    (hframes' : u.right.store.frames = w.right.store.frames)
    (hinstances : u.right.store.objects.size = u.left.store.objects.size)
    (hfields : ∀ o p : Object, p.identity = o.identity →
      Bindings.Alike Eq (Value.Alike w) (u.left.store.fields o) (u.right.store.fields p))
    (hidentities : u.right.store.identities = u.left.store.identities)
    (houtput : u.right.output = u.left.output) (hasked : u.right.asked = u.left.asked) :
    w.Leads u := by
  have hl : w.Later u := by
    refine ⟨?_, fun _ _ => by rw [hlabel]⟩
    simp only [Pairing.size, hframes]
    exact Nat.le_refl _
  have hframe (a : Address) : u.left.store.frame a = w.left.store.frame a := by
    simp only [Store.frame, hframes]
  have hframe' (a : Address) : u.right.store.frame a = w.right.store.frame a := by
    simp only [Store.frame, hframes']
  refine ⟨hl, ⟨h.root.mono hl, ?_, fun a => ?_, hinstances,
    fun o p ho => (hfields o p ho).mono fun _ _ hv => hv.mono hl, hidentities, ?_, houtput,
      hasked⟩, henvironment⟩
  · simp only [Pairing.size, hframes, hframes']
    exact h.size
  · rw [hframe, hframe', hlabel]
    exact (h.frames a).mono fun _ _ hv => hv.mono hl
  · rw [henvironment, henvironment', h.environment]

/-- The ways in which both machines end a step: with results of which `Q` holds, or in failures
alike. -/
inductive Ends {α β : Type} (w : Pairing L) (Q : α → β → Pairing L → Prop) :
    EStateM.Result Failure Machine α → EStateM.Result Failure Machine β → Prop
  | ok {a : α} {b : β} {u : Pairing L} (leads : w.Leads u) (holds : Q a b u) :
      Ends w Q (.ok a u.left) (.ok b u.right)
  | error {f g : Failure} {u : Pairing L} (leads : w.Leads u) (alike : f.Alike L g) :
      Ends w Q (.error f u.left) (.error g u.right)

theorem Ends.after {α β : Type} {u : Pairing L} {Q : α → β → Pairing L → Prop}
    {x : EStateM.Result Failure Machine α} {y : EStateM.Result Failure Machine β}
    (h : u.Ends Q x y) (hl : w.Leads u) : w.Ends Q x y := by
  cases h with
  | ok leads holds => exact .ok (hl.trans leads) holds
  | error leads alike => exact .error (hl.trans leads) alike

end Pairing

namespace Run

def Matches {α β : Type} (w : Pairing L) (Q : α → β → Pairing L → Prop) (c : Run α) (d : Run β) :
    Prop := w.Ends Q (c w.left) (d w.right)

/-- Steps that give values alike. -/
abbrev Agree (w : Pairing L) (c d : Run Value) : Prop := Matches w (fun v v' u => v.Alike u v') c d

namespace Matches
variable {α β γ δ : Type} {Q : α → β → Pairing L → Prop} {Q' : γ → δ → Pairing L → Prop}
  {c : Run α} {d : Run β}

theorem pure {a : α} {b : β} (h : w.Sound) (hq : Q a b w) :
    Matches w Q (Pure.pure a) (Pure.pure b) := .ok (.refl h) hq

theorem throw {f g : Failure} (h : w.Sound) (hf : f.Alike L g) :
    Matches w Q (MonadExcept.throw f) (MonadExcept.throw g) := .error (.refl h) hf

theorem bind {k : α → Run γ} {k' : β → Run δ} (hc : Matches w Q c d)
    (hk : ∀ a b u, w.Leads u → Q a b u → Matches u Q' (k a) (k' b)) :
    Matches w Q' (c >>= k) (d >>= k') := by
  simp only [Matches, Bind.bind, EStateM.bind] at hc ⊢
  generalize c w.left = x at hc ⊢
  generalize d w.right = y at hc ⊢
  cases hc with
  | ok leads holds => exact (hk _ _ _ leads holds).after leads
  | error leads alike => exact .error leads alike

theorem map {f : α → γ} {g : β → δ} (hc : Matches w Q c d)
    (hq : ∀ a b u, Q a b u → Q' (f a) (g b) u) : Matches w Q' (f <$> c) (g <$> d) := by
  simp only [Matches, Functor.map, EStateM.map] at hc ⊢
  generalize c w.left = x at hc ⊢
  generalize d w.right = y at hc ⊢
  cases hc with
  | ok leads holds => exact .ok leads (hq _ _ _ holds)
  | error leads alike => exact .error leads alike

theorem discard (hc : Matches w Q c d) :
    Matches w (fun _ _ _ => True) (Functor.discard c) (Functor.discard d) :=
  hc.map fun _ _ _ _ => trivial

theorem reading {k : Machine → Run γ} {k' : Machine → Run δ}
    (hk : Matches w Q' (k w.left) (k' w.right)) : Matches w Q' (get >>= k) (get >>= k') := hk

/-- What is read of the environments is one environment. -/
theorem current {k k' : Environment → Run γ} {Q : γ → γ → Pairing L → Prop} (h : w.Sound)
    (hk : Matches w Q (k w.left.environment) (k' w.left.environment)) :
    Matches w Q (Run.current >>= k) (Run.current >>= k') := by
  have heq : (Run.current >>= k') w.right = k' w.right.environment w.right := rfl
  rw [Matches, heq, h.environment]
  exact hk

theorem modifying {f g : Machine → Machine} {label : Address → L.Label}
    (h : w.Leads ⟨f w.left, g w.right, label⟩) :
    Matches w (fun _ _ u => u = ⟨f w.left, g w.right, label⟩) (modify f) (modify g) :=
  .ok (u := ⟨f w.left, g w.right, label⟩) h rfl

theorem inEnvironment {e : Environment} (h : w.Sound) (hc : Matches (w.moved e) Q c d)
    (hq : ∀ a b u u', u.Later u' → Q a b u → Q a b u') :
    Matches w Q (Run.inEnvironment e c) (Run.inEnvironment e d) := by
  have hleads {u : Pairing L} (hu : (w.moved e).Leads u) :
      w.Leads (u.moved w.left.environment) :=
    ⟨⟨hu.size, hu.label⟩, hu.sound.moved _, rfl⟩
  have hback (u : Pairing L) : u.Later (u.moved w.left.environment) :=
    ⟨Nat.le_refl _, fun _ _ => rfl⟩
  simp only [Matches, Run.inEnvironment, h.environment] at hc ⊢
  generalize hx : c (w.moved e).left = x at hc
  generalize hy : d (w.moved e).right = y at hc
  simp only [Pairing.moved] at hx hy
  rw [hx, hy]
  cases hc with
  | ok leads holds => exact .ok (hleads leads) (hq _ _ _ _ (hback _) holds)
  | error leads alike => exact .error (hleads leads) alike

end Matches
end Run

/-! Names. -/

namespace Pairing.Stands
variable {t u : Token} {d : Nat}

/-- The frame to which a distance leads, and the names that correspond there. -/
theorem frameAt (hS : w.Stands Γ) (hr : L.Refers Γ (some d) t u) :
    w.left.environment.frameAt d = .error .noFrame ∨
      ∃ a, w.left.environment.frameAt d = .ok a ∧ L.names (w.label a) t.lexeme u.lexeme := by
  simp only [Environment.frameAt, Environment.ancestor?]
  cases ha : w.left.environment.chain[d]? with
  | none => exact .inl rfl
  | some a => exact .inr ⟨a, rfl, hr _ (hS.labels.at ha)⟩

end Pairing.Stands

theorem Pairing.Sound.names_global (h : w.Sound) {t u : Token} (ht : L.tokens t u) :
    L.names (w.label Environment.global.frame) t.lexeme u.lexeme := by
  have hroot : w.label Environment.global.frame = L.plain := by simpa using h.root.here
  rw [hroot, L.names_plain, L.lexeme_eq ht]

theorem Pairing.Stands.names_here (hS : w.Stands Γ) {t u : Token} (hd : L.Declares Γ t u) :
    L.names (w.label w.left.environment.frame) t.lexeme u.lexeme := by
  apply hd
  rw [← hS.labels.here]
  rfl

namespace Run.Matches

theorem lookUp {t u : Token} {distance : Option Nat} (hS : w.Stands Γ)
    (hr : L.Refers Γ distance t u) : Agree w (Run.lookUp t distance) (Run.lookUp u distance) := by
  apply reading
  cases distance with
  | none =>
    have hget := (hS.sound.frames Environment.global.frame).get? L.names_unique
      (hS.sound.names_global hr)
    simp only [Store.get, L.lexeme_eq hr] at hget ⊢
    generalize (w.left.store.frame Environment.global.frame).get? t.lexeme = found at hget
    generalize (w.right.store.frame Environment.global.frame).get? t.lexeme = other at hget
    cases hget with
    | some hv => exact pure hS.sound hv
    | none => exact throw hS.sound (.fault hr)
  | some d =>
    dsimp only
    rw [Store.getAt, Store.getAt, hS.sound.environment]
    rcases hS.frameAt hr with hnone | ⟨a, ha, hn⟩
    · rw [hnone]
      exact throw hS.sound .noFrame
    · rw [ha]
      have hget := (hS.sound.frames a).get? L.names_unique hn
      dsimp only
      generalize (w.left.store.frame a).get? t.lexeme = found at hget
      generalize (w.right.store.frame a).get? u.lexeme = other at hget
      cases hget with
      | some hv => exact pure hS.sound hv
      | none => exact throw hS.sound (.unbound hn)

theorem defineIn {a : Address} {x y : String} {v v' : Value} (h : w.Sound)
    (hn : L.names (w.label a) x y) (hv : v.Alike w v') :
    Matches w (fun _ _ u => v.Alike u v') (Run.defineIn a x v) (Run.defineIn a y v') := by
  have hl := Pairing.Leads.define h hn hv
  exact .ok (u := w.define a x y v v') hl (hv.mono hl.toLater)

theorem assign {t u : Token} {distance : Option Nat} {v v' : Value} (hS : w.Stands Γ)
    (hr : L.Refers Γ distance t u) (hv : v.Alike w v') :
    Matches w (fun _ _ u => v.Alike u v') (Run.assign t distance v) (Run.assign u distance v') := by
  apply reading
  cases distance with
  | none =>
    have hn := hS.sound.names_global hr
    have hhas := (hS.sound.frames Environment.global.frame).has L.names_unique hn
    dsimp only
    rw [Store.target, Store.target, hhas]
    split
    · exact defineIn hS.sound hn hv
    · rw [L.lexeme_eq hr]
      exact throw hS.sound (.fault hr)
  | some d =>
    dsimp only
    rw [hS.sound.environment]
    rcases hS.frameAt hr with hnone | ⟨a, ha, hn⟩
    · rw [hnone]
      exact throw hS.sound .noFrame
    · rw [ha]
      exact defineIn hS.sound hn hv

theorem define {t u : Token} {v v' : Value} (hS : w.Stands Γ) (hd : L.Declares Γ t u)
    (hv : v.Alike w v') :
    Matches w (fun _ _ u => v.Alike u v') (Run.define t.lexeme v) (Run.define u.lexeme v') :=
  current hS.sound (defineIn hS.sound (hS.names_here hd) hv)

/-! Environments, functions and instances. -/

/-- A new environment, with a label for its frame. -/
theorem newEnvironment {e : Environment} {b b' : Bindings Value} (l : L.Label) (h : w.Sound)
    (hlabels : w.Labels e.chain Γ) (hb : Bindings.Alike (L.names l) (Value.Alike w) b b') :
    Matches w (fun i i' u => i' = i ∧ u.Labels i.chain (l :: Γ))
      (Run.newEnvironment e b) (Run.newEnvironment e b') := by
  refine .ok (u := w.addFrame l b b') (.addFrame h hb) ⟨?_, hlabels.inner l b b'⟩
  exact congrArg e.inner h.size

/-- A step inside a new environment. -/
theorem inNewEnvironment {Q : Signal → Signal → Pairing L → Prop} {e : Environment}
    {b b' : Bindings Value} {c d : Run Signal} (l : L.Label) (h : w.Sound)
    (hlabels : w.Labels e.chain Γ) (hb : Bindings.Alike (L.names l) (Value.Alike w) b b')
    (hc : ∀ u, w.Later u → u.Stands (l :: Γ) → Matches u Q c d)
    (hq : ∀ a b u u', u.Later u' → Q a b u → Q a b u') :
    Matches w Q (Run.newEnvironment e b >>= fun i => Run.inEnvironment i c)
      (Run.newEnvironment e b' >>= fun i => Run.inEnvironment i d) := by
  refine bind (newEnvironment l h hlabels hb) ?_
  rintro _ i u hl ⟨rfl, hlabels⟩
  refine inEnvironment hl.sound (hc _ ⟨hl.size, hl.label⟩ ⟨hl.sound.moved i, ?_⟩) hq
  exact hlabels.mono ⟨Nat.le_refl _, fun _ _ => rfl⟩

theorem fresh (h : w.Sound) :
    Matches w (fun i j _ => j = i) (Run.withStore Store.fresh) (Run.withStore Store.fresh) := by
  refine .ok (u := ⟨{ w.left with store := w.left.store.fresh.2 },
    { w.right with store := w.right.store.fresh.2 }, w.label⟩) ?_ h.identities
  exact .of_stores h rfl rfl rfl rfl rfl h.instances h.fields (congrArg (· + 1) h.identities)
    h.output h.asked

theorem newClosure {name : Option String} {ts us : List Token} {b b' : List ResolvedStmt}
    {e : Environment} {isInitializer : Bool} {l : L.Label} (between : List L.Label) (h : w.Sound)
    (hlabels : w.Labels e.chain Γ) (hparams : L.Params l ts us) (hfits : L.fits isInitializer b b')
    (hbody : Stmt.AllAlike L (l :: between ++ Γ) b b') :
    Matches w (fun f g u => f.Alike u between Γ g ∧ f.environment = e ∧
        f.isInitializer = isInitializer)
      (Run.newClosure name ts b e isInitializer) (Run.newClosure name us b' e isInitializer) := by
  refine bind (fresh h) ?_
  rintro i _ u hl rfl
  refine pure hl.sound ⟨⟨rfl, rfl, rfl, rfl, hlabels.mono hl.toLater, hfits, l, ?_, hbody⟩, rfl, rfl⟩
  exact List.forall₂_map_left_iff.mpr (List.forall₂_map_right_iff.mpr hparams)

/-- A method that is bound to a receiver is a function, inside the frame of the receiver. -/
theorem bindMethod {f g : Closure} {v v' : Value} (h : w.Sound) (hm : f.Alike w [L.plain] Γ g)
    (hv : v.Alike w v') :
    Matches w (fun f g u => f.Alike u [] (L.plain :: Γ) g) (Run.bind f v) (Run.bind g v') := by
  unfold Run.bind
  rw [hm.environment]
  have hreceiver : Bindings.Alike (L.names L.plain) (Value.Alike w) [(receiverName, v)]
      [(receiverName, v')] := .cons ⟨(L.names_plain _ _).mpr rfl, hv⟩ .nil
  refine bind (newEnvironment L.plain h hm.labels hreceiver) ?_
  rintro e _ u hl ⟨rfl, hlabels⟩
  refine bind (fresh hl.sound) ?_
  rintro i _ x hx rfl
  exact pure hx.sound
    ⟨rfl, hm.name, rfl, hm.isInitializer, hlabels.mono hx.toLater, hm.fits, hm.body⟩

theorem getProperty {o p : Object} {t u : Token} (h : w.Sound) (ho : p.identity = o.identity)
    (howner : o.owner.Alike w p.owner) (ht : L.tokens t u) :
    Agree w (Run.getProperty o t) (Run.getProperty p u) := by
  apply reading
  rw [L.lexeme_eq ht]
  have hfield := (h.fields o p ho).get? (by grind) (rfl : t.lexeme = t.lexeme)
  have hmethod := Bindings.Alike.get? (by grind) (rfl : t.lexeme = t.lexeme) howner.methods
  generalize (w.left.store.fields o).get? t.lexeme = found at hfield
  generalize (w.right.store.fields p).get? t.lexeme = other at hfield
  generalize o.owner.methods.get? t.lexeme = method at hmethod
  generalize p.owner.methods.get? t.lexeme = method' at hmethod
  cases hfield with
  | some hv => exact pure h hv
  | none =>
    cases hmethod with
    | none => exact throw h (.fault ht)
    | some hm =>
      obtain ⟨Γ, hm⟩ := hm
      refine bind (bindMethod h hm (.object ho howner)) fun f g u hl hf => ?_
      exact pure hl.sound (.function hf fun _ => rfl)

theorem setField {o p : Object} {name : String} {v v' : Value} (h : w.Sound)
    (ho : p.identity = o.identity) (hv : v.Alike w v') :
    Matches w (fun _ _ u => v.Alike u v') (Run.setField o name v) (Run.setField p name v') := by
  have hl : w.Leads ⟨{ w.left with store := w.left.store.setField o name v },
      { w.right with store := w.right.store.setField p name v' }, w.label⟩ := by
    refine .of_stores h rfl rfl rfl rfl rfl ?_ (fun q r hq => ?_) h.identities h.output
      h.asked
    · simpa [Store.setField] using h.instances
    · have hold := h.fields q r hq
      simp only [Store.setField, Store.fields, Array.getElem?_modify, ho, hq] at hold ⊢
      split
      next heq =>
        have hsize : w.right.store.objects.size = w.left.store.objects.size := h.instances
        by_cases hs : q.identity < w.left.store.objects.size
        · have hs' : q.identity < w.right.store.objects.size := hsize ▸ hs
          simp only [Array.getElem?_eq_getElem hs, Array.getElem?_eq_getElem hs', Option.map_some,
            Option.getD_some] at hold ⊢
          exact hold.set (by grind) rfl hv
        · have hs' : ¬ q.identity < w.right.store.objects.size := hsize ▸ hs
          simp only [Array.getElem?_eq_none (Nat.not_lt.mp hs),
            Array.getElem?_eq_none (Nat.not_lt.mp hs')]
          exact .nil
      next => exact hold
  exact .ok hl (hv.mono hl.toLater)

theorem newMethods {e : Environment} {ms ms' : List ResolvedMethod} {found found' : Bindings Closure}
    (h : w.Sound) (hlabels : w.Labels e.chain Γ) (hms : Method.AllAlike L Γ ms ms')
    (hfound : Bindings.Alike Eq (Closure.AlikeMethod w) found found') :
    Matches w (fun x y u => Bindings.Alike Eq (Closure.AlikeMethod u) x y)
      (Run.newMethods e ms found) (Run.newMethods e ms' found') := by
  induction ms generalizing w ms' found found' with
  | nil =>
    cases hms
    exact pure h hfound
  | cons m ms ih =>
    cases hms with
    | @cons _ l t u ts us b b' _ ms' name params fits body tail =>
      simp only [Run.newMethods, Method.name, Method.params, Method.body, name]
      refine bind (newClosure [L.plain] h hlabels params fits body) ?_
      rintro f g x hl ⟨hf, -, -⟩
      refine ih hl.sound (hlabels.mono hl.toLater) tail ?_
      exact (hfound.mono fun _ _ hm => hm.mono hl.toLater).set (by grind) rfl ⟨Γ, hf⟩

end Run.Matches

/-! Operators. -/

/-- Results of an operator alike. -/
inductive Except.Alike (w : Pairing L) : Except Failure Value → Except Failure Value → Prop
  | ok {v v' : Value} (alike : v.Alike w v') : Alike w (.ok v) (.ok v')
  | error {f g : Failure} (alike : f.Alike L g) : Alike w (.error f) (.error g)

theorem Run.Matches.ofExcept {r r' : Except Failure Value} (h : w.Sound) (hr : Except.Alike w r r') :
    Agree w (Run.ofExcept r) (Run.ofExcept r') := by
  cases hr with
  | ok alike => exact pure h alike
  | error alike => exact throw h alike

namespace Value.Alike
variable {t u : Token} {k : Kind} {a a' b b' v v' : Value}

/-- Numbers are alike only to themselves. -/
theorem onNumbers {f f' : Float → Float → Except Failure Value} {failure failure' : Failure}
    (hf : ∀ x y, Except.Alike w (f x y) (f' x y)) (he : failure.Alike L failure') :
    a.Alike w a' → b.Alike w b' →
      Except.Alike w (match a, b with | .number x, .number y => f x y | _, _ => .error failure)
        (match a', b' with | .number x, .number y => f' x y | _, _ => .error failure') := by
  intro ha hb
  cases ha with
  | data _ =>
    cases hb with
    | data _ =>
      split
      · exact hf _ _
      · exact .error he
    | _ => cases a <;> exact .error he
  | _ => exact .error he

theorem plus (ht : L.tokens t u) (ha : a.Alike w a') (hb : b.Alike w b') :
    Except.Alike w (Value.plus t a b) (Value.plus u a' b') := by
  unfold Value.plus
  rw [ha.isText, hb.isText, ha.display, hb.display]
  split
  · exact .ok (.data rfl)
  · exact onNumbers (fun _ _ => .ok (.data rfl)) (.fault ht) ha hb

theorem arithmetic (ht : L.tokens t u) (k : Kind) (x y : Float) :
    Except.Alike w (Value.arithmetic t k x y) (Value.arithmetic u k x y) := by
  unfold Value.arithmetic
  rw [L.lexeme_eq ht]
  repeat' split
  all_goals first | exact .ok (.data rfl) | exact .error (.fault ht) | exact .error .infiniteRemainder

theorem apply (ht : L.tokens t u) (k : Kind) (ha : a.Alike w a') (hb : b.Alike w b') :
    Except.Alike w (Value.apply t k a b) (Value.apply u k a' b') := by
  unfold Value.apply
  rw [ha.equal hb]
  split
  · exact .ok (.data rfl)
  · exact .ok (.data rfl)
  · exact ha.plus ht hb
  · exact onNumbers (fun _ _ => arithmetic ht _ _ _) (.fault ht) ha hb

theorem negate (ht : L.tokens t u) (h : v.Alike w v') :
    Except.Alike w (v.negate t) (v'.negate u) := by
  unfold Value.negate
  cases h with
  | data plain =>
    cases v with
    | number x => exact .ok (.data rfl)
    | _ => exact .error (.fault ht)
  | _ => exact .error (.fault ht)

theorem arity? (h : v.Alike w v') : v'.arity? = v.arity? := by
  cases h with
  | data plain => rfl
  | function alike receiver =>
    obtain ⟨l, hparams, -⟩ := alike.body
    simp only [Value.arity?, hparams.length_eq]
  | @klass c d alike =>
    have hmethod := Bindings.Alike.get? (by grind) (rfl : initializerName = initializerName)
      alike.methods
    simp only [Value.arity?]
    generalize c.methods.get? initializerName = found at hmethod
    generalize d.methods.get? initializerName = other at hmethod
    cases hmethod with
    | none => rfl
    | some hm =>
      obtain ⟨Γ, hm⟩ := hm
      obtain ⟨l, hparams, -⟩ := hm.body
      simp only [Option.map_some, Option.getD_some, hparams.length_eq]
  | object identity owner => rfl

end Value.Alike

end LoxScript
