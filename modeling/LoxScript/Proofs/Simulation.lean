import LoxScript.Proofs.Lockstep
import LoxScript.Proofs.Restoration

/-!
Runs of programs that are alike: by induction over the trees while calls are taken as given, and by
induction on the depth of calls after that.
-/
namespace LoxScript

open Run

variable {L : Likeness} {w : Pairing L} {Γ : List L.Label} {inv inv' : Invoke}

theorem Signal.Alike.mono {u : Pairing L} (hl : w.Later u) {s s' : Signal} (h : s.Alike w s') :
    s.Alike u s' := by
  cases h with
  | returnValue alike => exact .returnValue (alike.mono hl)
  | proceed => exact .proceed
  | breakLoop => exact .breakLoop
  | continueLoop => exact .continueLoop

/-- Calls of values alike with arguments alike end alike. -/
def CallsMatch (L : Likeness) (inv inv' : Invoke) : Prop :=
  ∀ (w : Pairing L) (f g : Value) (vs vs' : List Value), w.Sound → f.Alike w g →
    List.Forall₂ (Value.Alike w) vs vs' → Agree w (inv f vs) (inv' g vs')

namespace Run.Matches

theorem callAt {paren paren' : Token} {f g : Value} {vs vs' : List Value}
    (hi : CallsMatch L inv inv') (h : w.Sound) (hparen : L.tokens paren paren') (hf : f.Alike w g)
    (hvs : List.Forall₂ (Value.Alike w) vs vs') :
    Agree w (LoxScript.callAt inv paren f vs) (LoxScript.callAt inv' paren' g vs') := by
  unfold LoxScript.callAt
  rw [hf.arity?, hvs.length_eq]
  cases f.arity? with
  | none => exact throw h (.fault hparen)
  | some arity =>
    dsimp only
    split
    · exact hi w f g vs vs' h hf hvs
    · exact throw h (.fault hparen)

/-- A compound assignment reads its target, finds its operator, and then has a value. -/
theorem compound {sign sign' : Token} {current current' value value' : Run Value}
    (hsign : L.tokens sign sign') (hc : Agree w current current')
    (hv : ∀ u, w.Leads u → Agree u value value') :
    Agree w (assigned (some sign) current value) (assigned (some sign') current' value') := by
  refine bind hc fun left left' u hl hleft => ?_
  have hkind : Matches u (fun k k' _ => k' = k) (Run.ofExcept (underlying sign))
      (Run.ofExcept (underlying sign')) := by
    simp only [underlying, L.kind_eq hsign]
    split
    · exact pure hl.sound rfl
    · exact throw hl.sound (.unbound ((L.names_plain _ _).mpr rfl))
  refine bind hkind ?_
  rintro _ k x hx rfl
  refine bind (hv x (hl.trans hx)) fun right right' y hy hright => ?_
  exact ofExcept hy.sound
    ((hleft.mono (hx.toLater.trans hy.toLater)).apply hsign k hright)

theorem loop {condition condition' : Run Bool} {body body' : Run Signal}
    {increment increment' : Run Unit} (hS : w.Stands Γ)
    (hc : ∀ u : Pairing L, u.Stands Γ → Matches u (fun a b _ => b = a) condition condition')
    (hb : ∀ u : Pairing L, u.Stands Γ → Matches u (fun s s' x => s.Alike x s') body body')
    (hn : ∀ u : Pairing L, u.Stands Γ → Matches u (fun _ _ _ => True) increment increment')
    (turns : Nat) :
    Matches w (fun s s' u => s.Alike u s') (Run.loop condition body increment turns)
      (Run.loop condition' body' increment' turns) := by
  induction turns generalizing w with
  | zero => exact throw hS.sound .endless
  | succ turns ih =>
    refine bind (hc w hS) ?_
    rintro _ go u hu rfl
    cases go with
    | false => exact pure hu.sound .proceed
    | true =>
      refine bind (hb u (hu.stands hS)) fun signal signal' x hx hsignal => ?_
      have hX := hx.stands (hu.stands hS)
      cases hsignal with
      | breakLoop => exact pure hx.sound .proceed
      | returnValue alike => exact pure hx.sound (.returnValue alike)
      | proceed => exact bind (hn x hX) fun _ _ y hy _ => ih (hy.stands hX)
      | continueLoop => exact bind (hn x hX) fun _ _ y hy _ => ih (hy.stands hX)

/-- A test of a value that decides how to go on. -/
theorem test {α β : Type} {Q : α → β → Pairing L → Prop} {v v' : Value} (hv : v.Alike w v')
    {yes no : Run α} {yes' no' : Run β} (hyes : Matches w Q yes yes') (hno : Matches w Q no no') :
    Matches w Q (if v.truthy then yes else no) (if v'.truthy then yes' else no') := by
  rw [hv.truthy]
  split
  · exact hyes
  · exact hno

end Run.Matches

/-- Steps that match leave machines that are alike, however they end. -/
theorem Run.Matches.after {α β : Type} {Q : α → β → Pairing L → Prop} {c : Run α} {d : Run β}
    (h : Matches w Q c d) : ∃ label, w.Leads ⟨w.left.after c, w.right.after d, label⟩ := by
  simp only [Matches, Machine.after] at h ⊢
  generalize c w.left = x at h ⊢
  generalize d w.right = y at h ⊢
  cases h with
  | @ok a b u leads _ => exact ⟨u.label, leads⟩
  | @error f g u leads _ => exact ⟨u.label, leads⟩

section Meaning

variable {turns : Nat}

open Matches

mutual

theorem Expr.eval_matches (hi : CallsMatch L inv inv') {Γ : List L.Label} {w : Pairing L} :
    (e : ResolvedExpr) → {e' : ResolvedExpr} → Expr.Alike L Γ e e' → w.Stands Γ →
      Agree w (e.eval turns inv) (e'.eval turns inv')
  | .literal value, _, .literal, hS => by
    refine pure hS.sound (.data ?_)
    cases value <;> rfl
  | .grouping e, _, .grouping inner, hS => (e.eval_matches hi inner hS :)
  | .unary t e, _, .unary operator right, hS => by
    refine bind (e.eval_matches hi right hS) fun v v' u hl hv => ?_
    rw [L.kind_eq operator]
    split
    · exact ofExcept hl.sound (hv.negate operator)
    · rw [hv.truthy]
      exact pure hl.sound (.data rfl)
  | .binary a t b, _, .binary left operator right, hS => by
    refine bind (a.eval_matches hi left hS) fun x x' u hl hx => ?_
    refine bind (b.eval_matches hi right (hl.stands hS)) fun y y' s hs hy => ?_
    rw [L.kind_eq operator]
    split
    · exact pure hs.sound hy
    · exact ofExcept hs.sound ((hx.mono hs.toLater).apply operator _ hy)
  | .logical a t b, _, .logical left operator right, hS => by
    refine bind (a.eval_matches hi left hS) fun x x' u hl hx => ?_
    rw [hx.truthy, L.kind_eq operator]
    split
    · exact pure hl.sound hx
    · exact b.eval_matches hi right (hl.stands hS)
  | .variable t d, _, .variable name, hS => lookUp hS name
  | .assign t none e d, _, .assign name value, hS => by
    refine bind (e.eval_matches hi value hS) fun v v' u hl hv => ?_
    exact bind (assign (hl.stands hS) name hv) fun _ _ x hx hv => pure hx.sound hv
  | .assign t (some s) e d, _, .compound name sign value, hS => by
    have hv := compound sign (lookUp hS name) fun u hu => e.eval_matches hi value (hu.stands hS)
    refine bind hv fun v v' u hl hv => ?_
    exact bind (assign (hl.stands hS) name hv) fun _ _ x hx hv => pure hx.sound hv
  | .call f t es, _, .call callee paren arguments, hS => by
    refine bind (f.eval_matches hi callee hS) fun g g' u hl hg => ?_
    refine bind (Expr.evalAll_matches hi es arguments (hl.stands hS)) fun vs vs' x hx hvs => ?_
    exact Matches.callAt hi hx.sound paren (hg.mono hx.toLater) hvs
  | .get o t, _, .get object name, hS => by
    refine bind (o.eval_matches hi object hS) fun v v' u hl hv => ?_
    cases hv with
    | data plain =>
      cases v with
      | object _ => cases plain
      | _ => exact throw hl.sound (.fault name)
    | object identity owner => exact getProperty hl.sound identity owner name
    | _ => exact throw hl.sound (.fault name)
  | .set o t none e, _, .set object name value, hS => by
    refine bind (o.eval_matches hi object hS) fun v v' u hl hv => ?_
    cases hv with
    | data plain =>
      cases v with
      | object _ => cases plain
      | _ => exact throw hl.sound (.fault name)
    | object identity owner =>
      rw [L.lexeme_eq name]
      refine bind (e.eval_matches hi value (hl.stands hS)) fun v v' x hx hv => ?_
      exact bind (setField hx.sound identity hv) fun _ _ y hy hv => pure hy.sound hv
    | _ => exact throw hl.sound (.fault name)
  | .set o t (some s) e, _, .compoundSet object name sign value, hS => by
    refine bind (o.eval_matches hi object hS) fun v v' u hl hv => ?_
    cases hv with
    | data plain =>
      cases v with
      | object _ => cases plain
      | _ => exact throw hl.sound (.fault name)
    | object identity owner =>
      rw [L.lexeme_eq name]
      have hv := compound sign (getProperty hl.sound identity owner name) fun x hx =>
        e.eval_matches hi value ((hl.trans hx).stands hS)
      refine bind hv fun v v' x hx hv => ?_
      exact bind (setField hx.sound identity hv) fun _ _ y hy hv => pure hy.sound hv
    | _ => exact throw hl.sound (.fault name)
  | .this t d, _, .this keyword, hS => lookUp hS keyword
  | .function none ts b, _, .function params fits body, hS => by
    refine current hS.sound ?_
    refine bind (newClosure [] hS.sound hS.labels params fits body) ?_
    rintro f g u hl ⟨hf, -, hinitializer⟩
    exact pure hl.sound (.function hf fun h => by rw [hinitializer] at h; cases h)
  | .function (some t) ts b, _, .namedFunction name params fits body, hS => by
    refine current hS.sound ?_
    rw [name]
    refine bind (newEnvironment L.plain hS.sound hS.labels .nil) ?_
    rintro _ e u hl ⟨rfl, hlabels⟩
    refine bind (newClosure [] hl.sound hlabels params fits body) ?_
    rintro f g x hx ⟨hf, -, hinitializer⟩
    have hplain : x.label e.frame = L.plain := by
      have hhead := (hlabels.mono hx.toLater).here
      exact (List.cons.inj hhead).1
    have hn : L.names (x.label e.frame) t.lexeme t.lexeme := by
      rw [hplain, L.names_plain]
    have hv : Value.Alike x (.function f) (.function g) :=
      .function hf fun h => by rw [hinitializer] at h; cases h
    exact bind (defineIn hx.sound hn hv) fun _ _ y hy hv => pure hy.sound hv

theorem Expr.evalAll_matches (hi : CallsMatch L inv inv') {Γ : List L.Label} {w : Pairing L} :
    (es : List ResolvedExpr) → {es' : List ResolvedExpr} → Expr.AllAlike L Γ es es' → w.Stands Γ →
      Matches w (fun vs vs' u => List.Forall₂ (Value.Alike u) vs vs') (Expr.evalAll turns inv es)
        (Expr.evalAll turns inv' es')
  | [], _, .nil, hS => pure hS.sound .nil
  | e :: es, _, .cons head tail, hS => by
    refine bind (e.eval_matches hi head hS) fun v v' u hl hv => ?_
    refine bind (Expr.evalAll_matches hi es tail (hl.stands hS)) fun vs vs' x hx hvs => ?_
    exact pure hx.sound (.cons (hv.mono hx.toLater) hvs)

theorem Stmt.exec_matches (hi : CallsMatch L inv inv') {Γ : List L.Label} {w : Pairing L} :
    (s : ResolvedStmt) → {s' : ResolvedStmt} → Stmt.Alike L Γ s s' → w.Stands Γ →
      Matches w (fun x x' u => x.Alike u x') (s.exec turns inv) (s'.exec turns inv')
  | .expression e, _, .expression value, hS =>
    bind (e.eval_matches hi value hS) fun _ _ _ hl _ => pure hl.sound .proceed
  | .print e, _, .print value, hS => by
    refine bind (e.eval_matches hi value hS) fun v v' u hl hv => ?_
    rw [hv.display]
    have hprint : u.Leads ⟨{ u.left with output := (v.display ++ "\n") :: u.left.output },
        { u.right with output := (v.display ++ "\n") :: u.right.output }, u.label⟩ :=
      .of_stores hl.sound rfl rfl rfl rfl rfl hl.sound.instances hl.sound.fields hl.sound.identities
        (congrArg ((v.display ++ "\n") :: ·) hl.sound.output) hl.sound.asked
    exact bind (modifying hprint) fun _ _ x hx _ => pure hx.sound .proceed
  | .varDecl t none, _, .varDecl name, hS =>
    bind (define hS name (.data rfl)) fun _ _ _ hl _ => pure hl.sound .proceed
  | .varDecl t (some e), _, .varDeclWith name value, hS => by
    refine bind (e.eval_matches hi value hS) fun v v' u hl hv => ?_
    exact bind (define (hl.stands hS) name hv) fun _ _ x hx _ => pure hx.sound .proceed
  | .block b, _, @Stmt.Alike.block _ _ l _ _ body, hS => by
    refine current hS.sound ?_
    exact inNewEnvironment l hS.sound hS.labels .nil
      (fun _ _ hU => Stmt.execAll_matches hi b body hU) fun _ _ _ _ hl h => h.mono hl
  | .ifElse c y none, _, .ifElse condition yes, hS => by
    refine bind (c.eval_matches hi condition hS) fun v v' u hl hv => ?_
    exact test hv (y.exec_matches hi yes (hl.stands hS)) (pure hl.sound .proceed)
  | .ifElse c y (some n), _, .ifElseBoth condition yes no, hS => by
    refine bind (c.eval_matches hi condition hS) fun v v' u hl hv => ?_
    exact test hv (y.exec_matches hi yes (hl.stands hS)) (n.exec_matches hi no (hl.stands hS))
  | .loop c b none, _, .loop condition body, hS =>
    loop hS (fun u hU => (c.eval_matches hi condition hU).map fun _ _ _ hv => hv.truthy)
      (fun u hU => b.exec_matches hi body hU) (fun u hU => pure hU.sound trivial) turns
  | .loop c b (some n), _, .loopWith condition body increment, hS =>
    loop hS (fun u hU => (c.eval_matches hi condition hU).map fun _ _ _ hv => hv.truthy)
      (fun u hU => b.exec_matches hi body hU) (fun u hU => (n.eval_matches hi increment hU).discard)
      turns
  | .breakLoop _, _, .breakLoop, hS => pure hS.sound .breakLoop
  | .continueLoop _, _, .continueLoop, hS => pure hS.sound .continueLoop
  | .returnFrom _ none, _, .returnNothing, hS => pure hS.sound (.returnValue (.data rfl))
  | .returnFrom _ (some e), _, .returnValue value, hS =>
    bind (e.eval_matches hi value hS) fun _ _ _ hl hv => pure hl.sound (.returnValue hv)
  | .functionDecl t ts b, _, .functionDecl name shown params fits body, hS => by
    refine current hS.sound ?_
    have hclosure : some t.lexeme = some _ := congrArg some shown.symm
    rw [hclosure]
    refine bind (newClosure [] hS.sound hS.labels params fits body) ?_
    rintro f g u hl ⟨hf, -, hinitializer⟩
    have hv : Value.Alike u (.function f) (.function g) :=
      .function hf fun h => by rw [hinitializer] at h; cases h
    exact bind (define (hl.stands hS) name hv) fun _ _ x hx _ => pure hx.sound .proceed
  | .classDecl t ms, _, .classDecl name shown methods, hS => by
    refine bind (define hS name (.data rfl)) fun _ _ u hl _ => ?_
    have hU := hl.stands hS
    refine current hl.sound ?_
    refine bind (newMethods hl.sound hU.labels methods .nil) fun m m' x hx hm => ?_
    refine bind (fresh hx.sound) ?_
    rintro _ i y hy rfl
    have hv : Value.Alike y (.klass ⟨i, t.lexeme, m⟩) (.klass ⟨i, _, m'⟩) :=
      .klass ⟨rfl, shown, hm.mono fun _ _ h => h.mono hy.toLater⟩
    exact bind (define (hy.stands (hx.stands hU)) name hv) fun _ _ z hz _ => pure hz.sound .proceed

theorem Stmt.execAll_matches (hi : CallsMatch L inv inv') {Γ : List L.Label} {w : Pairing L} :
    (ss : List ResolvedStmt) → {ss' : List ResolvedStmt} → Stmt.AllAlike L Γ ss ss' → w.Stands Γ →
      Matches w (fun x x' u => x.Alike u x') (Stmt.execAll turns inv ss)
        (Stmt.execAll turns inv' ss')
  | [], _, .nil, hS => pure hS.sound .proceed
  | s :: ss, _, .cons head tail, hS => by
    refine bind (s.exec_matches hi head hS) fun x x' u hl hx => ?_
    cases hx with
    | proceed => exact Stmt.execAll_matches hi ss tail (hl.stands hS)
    | breakLoop => exact pure hl.sound .breakLoop
    | continueLoop => exact pure hl.sound .continueLoop
    | returnValue alike => exact pure hl.sound (.returnValue alike)

end

theorem bindParams_alike {names : String → String → Prop} {related : Value → Value → Prop}
    {xs ys : List String} {vs vs' : List Value}
    (hunique : ∀ {a b c d}, names a b → names c d → (a = c ↔ b = d))
    (hparams : List.Forall₂ names xs ys) (hvs : List.Forall₂ related vs vs') :
    Bindings.Alike names related (bindParams xs vs) (bindParams ys vs') := by
  have hfold {b b' : Bindings Value} (hb : Bindings.Alike names related b b') :
      Bindings.Alike names related ((xs.zip vs).foldl (fun b x => b.set x.1 x.2) b)
        ((ys.zip vs').foldl (fun b x => b.set x.1 x.2) b') := by
    induction hparams generalizing vs vs' b b' with
    | nil => exact hb
    | cons hn _ ih =>
      cases hvs with
      | nil => exact hb
      | cons hv hvs => exact ih hvs (hb.set hunique hn hv)
  exact hfold .nil

/-- A call until its body has ended. -/
def Closure.runBody (turns : Nat) (inv : Invoke) (f : Closure) (vs : List Value) : Run Signal :=
  Run.newEnvironment f.environment (bindParams f.params vs) >>= fun e =>
    Run.inEnvironment e (Stmt.execAll turns inv f.body)

/-- What a call gives when its body has ended: an initializer gives its receiver. -/
def Closure.conclude (f : Closure) (signal : Signal) : Run Value :=
  if f.isInitializer then do Run.ofExcept ((← get).store.getAt f.environment 0 receiverName)
  else
    match signal with
    | .returnValue v => return v
    | _ => return .nil

theorem Closure.call_eq (turns : Nat) (inv : Invoke) (f : Closure) (vs : List Value) :
    f.call turns inv vs = f.runBody turns inv vs >>= f.conclude := by
  rw [Closure.runBody, bind_assoc]
  rfl

theorem Closure.runBody_matches {f g : Closure} {vs vs' : List Value}
    (hi : CallsMatch L inv inv') (h : w.Sound) (hf : f.Alike w [] Γ g)
    (hvs : List.Forall₂ (Value.Alike w) vs vs') :
    Matches w (fun x x' u => x.Alike u x') (f.runBody turns inv vs) (g.runBody turns inv' vs') := by
  obtain ⟨l, hparams, hbody⟩ := hf.body
  rw [Closure.runBody, Closure.runBody, hf.environment]
  exact inNewEnvironment l h hf.labels (bindParams_alike L.names_unique hparams hvs)
    (fun _ _ hU => Stmt.execAll_matches hi f.body hbody hU) fun _ _ _ _ hl hx => hx.mono hl

theorem Closure.conclude_matches {f g : Closure} (h : w.Sound) (hf : f.Alike w [] Γ g)
    (hreceiver : f.isInitializer → Γ.head? = some L.plain) {x x' : Signal} (hx : x.Alike w x') :
    Agree w (f.conclude x) (g.conclude x') := by
  unfold Closure.conclude
  rw [hf.isInitializer, hf.environment]
  split
  next hinitializer =>
    refine reading (ofExcept h ?_)
    have hlabel : w.label f.environment.frame = L.plain := by
      have hhead := hreceiver hinitializer
      rw [← hf.labels.here] at hhead
      exact Option.some.inj hhead
    have hn : L.names (w.label f.environment.frame) receiverName receiverName := by
      rw [hlabel, L.names_plain]
    have hget := (h.frames f.environment.frame).get? L.names_unique hn
    simp only [Store.getAt, Environment.frameAt, Environment.ancestor?, Environment.chain,
      List.getElem?_cons_zero]
    generalize (w.left.store.frame f.environment.frame).get? receiverName = found at hget
    generalize (w.right.store.frame f.environment.frame).get? receiverName = other at hget
    cases hget with
    | some hv => exact .ok hv
    | none => exact .error (.unbound hn)
  next =>
    cases hx with
    | returnValue alike => exact pure h alike
    | _ => exact pure h (.data rfl)

/-- Calls of functions alike end alike. -/
def BodiesMatch (L : Likeness) (call call' : Closure → List Value → Run Value) : Prop :=
  ∀ {w : Pairing L} {Γ : List L.Label} {f g : Closure} {vs vs' : List Value}, w.Sound →
    f.Alike w [] Γ g → (f.isInitializer → Γ.head? = some L.plain) →
    List.Forall₂ (Value.Alike w) vs vs' → Agree w (call f vs) (call' g vs')

theorem Closure.call_matches (hi : CallsMatch L inv inv') :
    BodiesMatch L (Closure.call turns inv) (Closure.call turns inv') := by
  intro w Γ f g vs vs' h hf hreceiver hvs
  rw [Closure.call_eq, Closure.call_eq]
  refine Matches.bind (Closure.runBody_matches hi h hf hvs) fun x x' u hl hx => ?_
  exact Closure.conclude_matches hl.sound (hf.mono hl.toLater) hreceiver hx

/-- A new instance. -/
theorem Run.Matches.addObject {c d : Class} (h : w.Sound) (hc : c.Alike w d) :
    Matches w (fun o p u => p.identity = o.identity ∧ o.owner.Alike u p.owner)
      (Run.withStore (·.addObject c)) (Run.withStore (·.addObject d)) := by
  have hl : w.Leads ⟨{ w.left with store := (w.left.store.addObject c).2 },
      { w.right with store := (w.right.store.addObject d).2 }, w.label⟩ := by
    refine .of_stores h rfl rfl rfl rfl rfl ?_ (fun o p ho => ?_) h.identities h.output h.asked
    · simpa [Store.addObject] using h.instances
    · simp only [Store.fields_addObject]
      exact h.fields o p ho
  exact .ok hl ⟨h.instances, hc.mono hl.toLater⟩

/-- A new instance, where functions are called in some way. -/
def Class.constructBy (call : Closure → List Value → Run Value) (c : Class) (vs : List Value) :
    Run Value := do
  let o ← Run.withStore (·.addObject c)
  match c.methods.get? initializerName with
  | none => return .object o
  | some method => do
    let f ← Run.bind method (.object o)
    let _ ← call f vs
    return .object o

theorem Class.constructBy_matches {call call' : Closure → List Value → Run Value}
    (hcall : BodiesMatch L call call') {c d : Class} {vs vs' : List Value} (h : w.Sound)
    (hc : c.Alike w d) (hvs : List.Forall₂ (Value.Alike w) vs vs') :
    Agree w (c.constructBy call vs) (d.constructBy call' vs') := by
  refine bind (addObject h hc) ?_
  rintro o p u hl ⟨ho, howner⟩
  have hmethod := Bindings.Alike.get? (by grind) (rfl : initializerName = initializerName)
    (hc.mono hl.toLater).methods
  have hobject {x : Pairing L} (hx : u.Leads x) : Value.Alike x (.object o) (.object p) :=
    .object ho (howner.mono hx.toLater)
  generalize c.methods.get? initializerName = found at hmethod
  generalize d.methods.get? initializerName = other at hmethod
  cases hmethod with
  | none => exact pure hl.sound (hobject (.refl hl.sound))
  | some hm =>
    obtain ⟨Γ, hm⟩ := hm
    refine bind (bindMethod hl.sound hm (hobject (.refl hl.sound))) fun f g x hx hf => ?_
    have hvs := Value.Alike.monoAll (hl.toLater.trans hx.toLater) hvs
    refine bind (hcall hx.sound hf (fun _ => rfl) hvs) fun _ _ y hy _ => ?_
    exact pure hy.sound (hobject (hx.trans hy))

end Meaning

/-- What the functions of a library give is data, and does not depend on their arguments. -/
def Library.Steady (library : Library) : Prop :=
  ∀ name b calls vs vs', library.get? name = some b →
    (b.run calls vs).isData ∧ b.run calls vs' = b.run calls vs

theorem Library.standard_steady (readings : Nat → Float) : (Library.standard readings).Steady := by
  intro name b calls vs vs' hb
  simp only [Library.standard, Bindings.get?] at hb
  split at hb
  · cases hb
    exact ⟨rfl, rfl⟩
  · split at hb
    · cases hb
      exact ⟨rfl, rfl⟩
    · cases hb

theorem Run.Matches.answer {library : Library} (hlib : library.Steady) (h : w.Sound) (n : Native)
    (vs vs' : List Value) : Agree w (library.answer n vs) (library.answer n vs') := by
  have hl : w.Leads ⟨{ w.left with asked := w.left.asked + 1 },
      { w.right with asked := w.right.asked + 1 }, w.label⟩ :=
    .of_stores h rfl rfl rfl rfl rfl h.instances h.fields h.identities h.output
      (congrArg (· + 1) h.asked)
  refine .ok hl ?_
  rw [h.asked]
  cases hn : library.get? n.name with
  | none => exact .data rfl
  | some b =>
    obtain ⟨hdata, heq⟩ := hlib n.name b w.left.asked vs vs' hn
    simp only [Option.map_some, Option.getD_some, heq]
    exact .data hdata

/-- The meaning of a call, where functions are called in some way. -/
def invokeBy (library : Library) (call : Closure → List Value → Run Value) (callee : Value)
    (vs : List Value) : Run Value :=
  match callee with
  | .function f => call f vs
  | .klass c => c.constructBy call vs
  | .native n => library.answer n vs
  | _ => return .nil

theorem invokeBy_matches {library : Library} (hlib : library.Steady)
    {call call' : Closure → List Value → Run Value} (hcall : BodiesMatch L call call') :
    CallsMatch L (invokeBy library call) (invokeBy library call') := by
  intro w f g vs vs' h hf hvs
  cases hf with
  | data plain =>
    cases f with
    | native n => exact .answer hlib h n vs vs'
    | function _ | klass _ | object _ => cases plain
    | _ => exact .pure h (.data rfl)
  | function alike receiver => exact hcall h alike receiver hvs
  | klass alike => exact Class.constructBy_matches hcall h alike hvs
  | object identity owner => exact .pure h (.data rfl)

theorem invoke_matches {library : Library} (hlib : library.Steady) (turns depth : Nat) :
    CallsMatch L (invoke library turns depth) (invoke library turns depth) := by
  induction depth with
  | zero => exact fun w f g vs vs' h _ _ => .throw h .tooDeep
  | succ depth ih => exact invokeBy_matches hlib (Closure.call_matches ih)

theorem Host.execProgram_matches {h : Host} (hlib : h.library.Steady)
    {program program' : List ResolvedStmt} (hp : Stmt.AllAlike L Γ program program')
    (hS : w.Stands Γ) :
    Matches w (fun _ _ _ => True) (h.execProgram program) (h.execProgram program') := by
  induction program generalizing w program' with
  | nil =>
    cases hp
    exact .pure hS.sound trivial
  | cons s ss ih =>
    cases hp with
    | cons head tail =>
      refine .bind (s.exec_matches (invoke_matches hlib h.turns h.depth) head hS) ?_
      exact fun _ _ u hl _ => ih tail (hl.stands hS)

/-! Machines between two programs that are like themselves. -/

/-- A machine that is like itself at its globals, under some labels of its frames. -/
def Machine.Selfsame (L : Likeness) (m : Machine) : Prop :=
  ∃ label, (⟨m, m, label⟩ : Pairing L).Stands [L.plain]

/-- The values that a library defines hold no frames. -/
theorem Library.data_globals {library : Library} :
    ∀ entry ∈ library.globals, entry.2.isData := by
  intro entry hentry
  obtain ⟨native, -, heq⟩ := List.mem_map.mp hentry
  cases heq
  rfl

namespace Machine.Selfsame
variable {m : Machine}

theorem start (L : Likeness) {globals : Bindings Value}
    (hdata : ∀ entry ∈ globals, entry.2.isData) : (Machine.start globals).Selfsame L := by
  let w : Pairing L := ⟨.start globals, .start globals, fun _ => L.plain⟩
  have hroot : w.Labels [Environment.global.frame] [L.plain] := by
    intro label hlabel
    exact congrArg (· :: []) (hlabel 0 Nat.zero_lt_one)
  have hglobals : Bindings.Alike (L.names L.plain) (Value.Alike w) globals globals :=
    List.forall₂_same.mpr fun x hx => ⟨(L.names_plain _ _).mpr rfl, .data (hdata x hx)⟩
  have hframe (a : Address) : (Machine.start globals).store.frame a = if a = 0 then globals else [] := by
    by_cases ha : a = 0
    · rw [ha]
      rfl
    · rw [if_neg ha]
      exact Store.frame_of_size_le _ (Nat.pos_of_ne_zero ha)
  refine ⟨fun _ => L.plain, ⟨hroot, rfl, fun a => ?_, rfl, fun o p _ => .nil, rfl, rfl, rfl, rfl⟩,
    hroot⟩
  simp only [hframe]
  split
  · exact hglobals
  · exact .nil

theorem exec {h : Host} (hlib : h.library.Steady) {program : List ResolvedStmt}
    (hp : Stmt.AllAlike L [L.plain] program program) (hm : m.Selfsame L) :
    (m.after (h.execProgram program)).Selfsame L := by
  obtain ⟨label, hS⟩ := hm
  obtain ⟨label', hleads⟩ := (h.execProgram_matches hlib hp hS).after
  exact ⟨label', hleads.stands hS⟩

theorem back (hm : m.Selfsame L) : Machine.Selfsame L { m with environment := .global } := by
  obtain ⟨label, hS⟩ := hm
  exact ⟨label, hS.sound.moved .global, (hS.sound.moved .global).root⟩

end Machine.Selfsame

/-- A program that is like itself leaves a machine that is. -/
theorem Session.interpret_selfsame {program : List ResolvedStmt}
    (hp : Stmt.AllAlike L [L.plain] program program) :
    Keeps (fun h m => h.library.Steady ∧ m.Selfsame L) (interpret program) :=
  .interpret (fun _ _ hm => ⟨hm.1, hm.2.exec hm.1 hp⟩) fun _ _ hm => ⟨hm.1, hm.2.back⟩

end LoxScript
