import LoxScript.Proofs.Bookkeeping
import LoxScript.Proofs.PaddedSteps
import LoxScript.Proofs.Signals

/-!
Runs of padded programs: by induction over the trees while calls are taken as given, and by
induction on the depth of calls after that.
-/
namespace LoxScript

variable {P : Padding} {w : Overlay P} {Γ : List Link} {inv inv' : Invoke}

/-- Calls of values that correspond with arguments that correspond end in step. -/
def CallsEcho (P : Padding) (inv inv' : Invoke) : Prop :=
  ∀ (w : Overlay P) (f g : Value) (vs vs' : List Value), w.Sound → f.Padded w g →
    List.Forall₂ (Value.Padded w) vs vs' → Run.Echoes w (inv f vs) (inv' g vs')

theorem Run.Shadows.callAt {paren : Token} {f g : Value} {vs vs' : List Value}
    (hi : CallsEcho P inv inv') (h : w.Sound) (hf : f.Padded w g)
    (hvs : List.Forall₂ (Value.Padded w) vs vs') :
    Run.Echoes w (LoxScript.callAt inv paren f vs) (LoxScript.callAt inv' paren g vs') := by
  unfold LoxScript.callAt
  rw [hf.arity?, hvs.length_eq]
  cases f.arity? with
  | none => exact throw h
  | some arity =>
    dsimp only
    split
    · exact hi w f g vs vs' h hf hvs
    · exact throw h

/-- A statement in a block of its own ends as it does without one. -/
theorem Stmt.execAll_singleton (turns : Nat) (inv : Invoke) (s : ResolvedStmt) :
    Stmt.execAll turns inv [s] = s.exec turns inv := by
  funext m
  simp only [Stmt.execAll, Bind.bind, EStateM.bind]
  cases s.exec turns inv m with
  | ok signal m' => cases signal <;> rfl
  | error f m' => rfl

/-! ### Increments at the ends of bodies -/

section Continues
variable {turns : Nat}

open Run.Gives

mutual

/-- A statement that has no `continue` of the loop around it does not end with one. -/
theorem Stmt.exec_whole : (s : ResolvedStmt) → ¬ s.continues →
    (s.exec turns inv).Gives (· ≠ .continueLoop)
  | .expression _, _ => after fun _ => pure nofun
  | .print _, _ => after fun _ => after fun _ => pure nofun
  | .varDecl _ none, _ => after fun _ => pure nofun
  | .varDecl _ (some _), _ => after fun _ => after fun _ => pure nofun
  | .block body, h => after fun _ => after fun _ => inEnvironment (Stmt.execAll_whole body h)
  | .ifElse _ yes none, h => after fun _ => ite (yes.exec_whole h) (pure nofun)
  | .ifElse _ yes (some no), h => by
    obtain ⟨hyes, hno⟩ := not_or.mp fun hor => h (Bool.or_eq_true_iff.mpr hor)
    exact after fun _ => ite (yes.exec_whole hyes) (no.exec_whole hno)
  | .loop c body n, _ => (Stmt.exec_loop_gives c body n).imp fun signal hsignal => by
    rcases hsignal with rfl | ⟨v, rfl⟩ <;> exact nofun
  | .breakLoop _, _ => pure nofun
  | .continueLoop _, h => absurd rfl h
  | .returnFrom _ none, _ => pure nofun
  | .returnFrom _ (some _), _ => after fun _ => pure nofun
  | .functionDecl _ _ _, _ => after fun _ => after fun _ => after fun _ => pure nofun
  | .classDecl _ _, _ =>
    after fun _ => after fun _ => after fun _ => after fun _ => after fun _ => pure nofun

theorem Stmt.execAll_whole : (ss : List ResolvedStmt) → ¬ Stmt.anyContinues ss →
    (Stmt.execAll turns inv ss).Gives (· ≠ .continueLoop)
  | [], _ => pure nofun
  | s :: ss, h => by
    obtain ⟨hhead, htail⟩ := not_or.mp fun hor => h (Bool.or_eq_true_iff.mpr hor)
    refine bind (s.exec_whole hhead) fun signal hsignal => ?_
    cases signal with
    | proceed => exact Stmt.execAll_whole ss htail
    | _ => exact pure hsignal

end

theorem Stmt.execAll_expression (s : ResolvedStmt) (e : ResolvedExpr) :
    Stmt.execAll turns inv [s, .expression e] = (do
      match ← s.exec turns inv with
      | .proceed => do
        discard (e.eval turns inv)
        return .proceed
      | signal => return signal) := by
  simp only [Stmt.execAll, Stmt.exec]
  congr 1
  funext signal
  cases signal with
  | proceed =>
    funext m
    simp only [discard, Functor.discard, Functor.mapConst, Bind.bind, EStateM.bind, Function.comp_apply,
      EStateM.map]
    cases e.eval turns inv m <;> rfl
  | _ => rfl

/-- The increment of a loop may stand at the end of the body, if the body does not end with
`continue`. -/
theorem Stmt.loop_whole (condition : Run Bool) {body : ResolvedStmt} (increment : ResolvedExpr)
    (hbody : ¬ body.continues) (count : Nat) :
    Run.loop condition (body.exec turns inv) (discard (increment.eval turns inv)) count =
      Run.loop condition (Stmt.execAll turns inv [body, .expression increment]) (Pure.pure ())
        count := by
  induction count with
  | zero => rfl
  | succ count ih =>
    rw [Run.loop, Run.loop, ih, Stmt.execAll_expression]
    congr 1
    funext go
    cases go with
    | false => rfl
    | true =>
      rw [if_pos rfl, if_pos rfl, bind_assoc]
      refine (body.exec_whole hbody).bind_congr fun signal hsignal => ?_
      cases signal with
      | continueLoop => exact absurd rfl hsignal
      | proceed => simp only [bind_assoc, pure_bind]
      | breakLoop => rfl
      | returnValue v => rfl

end Continues

section Meaning

variable {turns : Nat}

open Run.Shadows

mutual

theorem Expr.eval_echoes (hi : CallsEcho P inv inv') {Γ : List Link} {w : Overlay P} :
    (e' : ResolvedExpr) → {e : ResolvedExpr} → Expr.Padded P Γ e e' → w.Stands Γ →
      Run.Echoes w (e.eval turns inv) (e'.eval turns inv')
  | .literal value, _, .literal, hS => by
    refine pure hS.sound (.constant ?_)
    cases value <;> rfl
  | .grouping e', _, .grouping inner, hS => (e'.eval_echoes hi inner hS :)
  | .unary t e', _, .unary right, hS => by
    apply bind (e'.eval_echoes hi right hS)
    intro v v' u hl hv
    split
    · exact negate t hl.sound hv
    · rw [hv.truthy]
      exact pure hl.sound (.constant rfl)
  | .binary a' t b', _, .binary left right, hS => by
    apply bind (a'.eval_echoes hi left hS)
    intro x x' u hl hx
    apply bind (b'.eval_echoes hi right (hl.stands hS))
    intro y y' s hs hy
    split
    · exact pure hs.sound hy
    · exact apply t _ hs.sound (hx.mono hs.toLater) hy
  | .logical a' t b', _, .logical left right, hS => by
    apply bind (a'.eval_echoes hi left hS)
    intro x x' u hl hx
    rw [hx.truthy]
    split
    · exact pure hl.sound hx
    · exact b'.eval_echoes hi right (hl.stands hS)
  | .variable _ _, _, .variable name, hS => lookUp hS name
  | .assign _ _ e' _, _, .assign name value, hS => by
    refine bind (Run.Shadows.assigned hS.sound (lookUp hS name) ?_) fun v v' u hl hv => ?_
    · exact fun u hu => e'.eval_echoes hi value (hu.stands hS)
    · exact bind (assign (hl.stands hS) name hv) fun _ _ x hx hv => pure hx.sound hv
  | .call f' _ es', _, .call callee arguments, hS => by
    apply bind (f'.eval_echoes hi callee hS)
    intro g g' u hl hg
    apply bind (Expr.evalAll_echoes hi es' arguments (hl.stands hS))
    intro vs vs' x hx hvs
    exact Run.Shadows.callAt hi hx.sound (hg.mono hx.toLater) hvs
  | .get o' _, _, .get object, hS => by
    apply bind (o'.eval_echoes hi object hS)
    intro v v' u hl hv
    cases hv with
    | object identity owner => exact getProperty hl.sound identity owner
    | constant constant => cases v <;> first | exact throw hl.sound | cases constant
    | _ => exact throw hl.sound
  | .set o' _ _ e', _, .set object value, hS => by
    apply bind (o'.eval_echoes hi object hS)
    intro v v' u hl hv
    cases hv with
    | object identity owner =>
      refine bind (Run.Shadows.assigned hl.sound ?_ ?_) fun v v' x hx hv => ?_
      · exact getProperty hl.sound identity owner
      · exact fun x hx => e'.eval_echoes hi value ((hl.trans hx).stands hS)
      · exact bind (setField hx.sound identity hv) fun _ _ y hy hv => pure hy.sound hv
    | constant constant => cases v <;> first | exact throw hl.sound | cases constant
    | _ => exact throw hl.sound
  | .this _ _, _, @Expr.Padded.this _ _ t d inside, hS =>
    lookUp hS (show P.Refers Γ (some d) t from inside)
  | .function none _ _, _, .function body, hS => by
    apply current
    apply bind (newClosure [] hS.sound hS.threads body)
    rintro f g u hl ⟨hf, hinitializer⟩
    exact pure hl.sound (.function hf fun h => by rw [hinitializer] at h; cases h)
  | .function (some t) _ _, _, .namedFunction body, hS => by
    apply current
    apply bind (newEnvironment (l := .both) nofun hS.sound hS.threads .nil)
    rintro e e' u hl ⟨hthreads, hinner⟩
    apply bind (newClosure [] hl.sound hthreads body)
    rintro f g x hx ⟨hf, hinitializer⟩
    have hv : Value.Padded x (.function f) (.function g) :=
      .function hf fun h => by rw [hinitializer] at h; cases h
    obtain ⟨hinside, hplace⟩ := (hthreads.mono hx.toLater).frame_eq nofun
    rw [hplace]
    apply bind (defineIn hx.sound hinside (fun hroot => absurd hroot (Nat.ne_of_gt hinner)) hv)
    exact fun _ _ y hy hv => pure hy.sound hv

theorem Expr.evalAll_echoes (hi : CallsEcho P inv inv') {Γ : List Link} {w : Overlay P} :
    (es' : List ResolvedExpr) → {es : List ResolvedExpr} → Expr.AllPadded P Γ es es' →
      w.Stands Γ →
      Run.Shadows w (fun vs vs' u => List.Forall₂ (Value.Padded u) vs vs') (Expr.evalAll turns inv es)
        (Expr.evalAll turns inv' es')
  | [], _, .nil, hS => pure hS.sound .nil
  | e' :: es', _, .cons head tail, hS => by
    apply bind (e'.eval_echoes hi head hS)
    intro v v' u hl hv
    apply bind (Expr.evalAll_echoes hi es' tail (hl.stands hS))
    intro vs vs' x hx hvs
    exact pure hx.sound (.cons (hv.mono hx.toLater) hvs)

theorem Stmt.exec_shadows (hi : CallsEcho P inv inv') {Γ : List Link} {w : Overlay P} :
    (s' : ResolvedStmt) → {s : ResolvedStmt} → Stmt.Padded P Γ s s' → w.Stands Γ →
      Run.Shadows w (fun x x' u => x.Padded u x') (s.exec turns inv) (s'.exec turns inv')
  | .expression e', _, .expression value, hS =>
    bind (e'.eval_echoes hi value hS) fun _ _ _ hl _ => pure hl.sound .proceed
  | .print e', _, .print value, hS => by
    apply bind (e'.eval_echoes hi value hS)
    intro v v' u hl hv
    rw [hv.display]
    have hprint : u.Leads ⟨{ u.left with output := (v.display ++ "\n") :: u.left.output },
        { u.right with output := (v.display ++ "\n") :: u.right.output }, u.place⟩ :=
      .of_stores hl.sound rfl rfl rfl rfl rfl hl.sound.instances hl.sound.fields hl.sound.identities
        (congrArg ((v.display ++ "\n") :: ·) hl.sound.output) hl.sound.asked
    exact bind (modifying hprint) fun _ _ x hx _ => pure hx.sound .proceed
  | .varDecl _ none, _, .varDecl name, hS =>
    bind (define hS name (.constant rfl)) fun _ _ _ hl _ => pure hl.sound .proceed
  | .varDecl _ (some e'), _, .varDeclWith name value, hS => by
    apply bind (e'.eval_echoes hi value hS)
    intro v v' u hl hv
    exact bind (define (hl.stands hS) name hv) fun _ _ x hx _ => pure hx.sound .proceed
  | .block b', _, .block body, hS => by
    apply current
    exact inNewEnvironment hS.sound hS.threads .nil (fun _ hU => Stmt.execAll_shadows hi b' body hU)
      fun _ _ _ _ hl h => h.mono hl
  | .block [s'], s, .boxed roomy inner, hS => by
    simp only [Stmt.exec, Stmt.execAll_singleton]
    exact inRoom roomy hS (fun _ hU => s'.exec_shadows hi inner hU) fun _ _ _ _ hl h => h.mono hl
  | .ifElse c' y' none, _, .ifElse condition yes, hS => by
    apply bind (c'.eval_echoes hi condition hS)
    intro v v' u hl hv
    exact test hv (y'.exec_shadows hi yes (hl.stands hS)) (pure hl.sound .proceed)
  | .ifElse c' y' (some n'), _, .ifElseBoth condition yes no, hS => by
    apply bind (c'.eval_echoes hi condition hS)
    intro v v' u hl hv
    exact test hv (y'.exec_shadows hi yes (hl.stands hS)) (n'.exec_shadows hi no (hl.stands hS))
  | .loop c' b' none, _, .loop condition body, hS =>
    loop hS (fun u hU => (c'.eval_echoes hi condition hU).map fun _ _ _ hv => hv.truthy)
      (fun u hU => b'.exec_shadows hi body hU) (fun u hU => pure hU.sound trivial) turns
  | .loop c' b' (some n'), _, .loopWith condition body increment, hS =>
    loop hS (fun u hU => (c'.eval_echoes hi condition hU).map fun _ _ _ hv => hv.truthy)
      (fun u hU => b'.exec_shadows hi body hU) (fun u hU => (n'.eval_echoes hi increment hU).discard)
      turns
  | .loop c' (.block ss) none, _, .expanded roomy condition body whole, hS => by
    simp only [Stmt.exec, Stmt.loop_whole _ _ whole]
    exact loop hS (fun u hU => (c'.eval_echoes hi condition hU).map fun _ _ _ hv => hv.truthy)
      (fun u hU => inRoom roomy hU (fun _ hX => Stmt.execAll_shadows hi ss body hX)
        fun _ _ _ _ hl h => h.mono hl)
      (fun u hU => pure hU.sound trivial) turns
  | .breakLoop _, _, .breakLoop, hS => pure hS.sound .breakLoop
  | .continueLoop _, _, .continueLoop, hS => pure hS.sound .continueLoop
  | .returnFrom _ none, _, .returnNothing, hS => pure hS.sound (.returnValue (.constant rfl))
  | .returnFrom _ (some e'), _, .returnValue value, hS =>
    bind (e'.eval_echoes hi value hS) fun _ _ _ hl hv => pure hl.sound (.returnValue hv)
  | .functionDecl _ _ _, _, .functionDecl name body, hS => by
    apply current
    apply bind (newClosure [] hS.sound hS.threads body)
    rintro f g u hl ⟨hf, hinitializer⟩
    have hv : Value.Padded u (.function f) (.function g) :=
      .function hf fun h => by rw [hinitializer] at h; cases h
    exact bind (define (hl.stands hS) name hv) fun _ _ x hx _ => pure hx.sound .proceed
  | .classDecl t ms', _, .classDecl name methods, hS => by
    apply Run.Shadows.bind (define hS name (.constant rfl))
    intro _ _ u hl _
    have hU := hl.stands hS
    apply current
    apply bind (newMethods hl.sound hU.threads methods .nil)
    intro m m' x hx hm
    apply bind (fresh hx.sound)
    rintro _ i y hy rfl
    have hv : Value.Padded y (.klass ⟨i, t.lexeme, m⟩) (.klass ⟨i, t.lexeme, m'⟩) :=
      .klass ⟨rfl, rfl, hm.mono fun _ _ h => h.mono hy.toLater⟩
    exact bind (define (hy.stands (hx.stands hU)) name hv) fun _ _ z hz _ => pure hz.sound .proceed

theorem Stmt.execAll_shadows (hi : CallsEcho P inv inv') {Γ : List Link} {w : Overlay P} :
    (ss' : List ResolvedStmt) → {ss : List ResolvedStmt} → Stmt.AllPadded P Γ ss ss' →
      w.Stands Γ →
      Run.Shadows w (fun x x' u => x.Padded u x') (Stmt.execAll turns inv ss)
        (Stmt.execAll turns inv' ss')
  | [], _, .nil, hS => pure hS.sound .proceed
  | s' :: ss', _, .cons head tail, hS => by
    apply bind (s'.exec_shadows hi head hS)
    intro x x' u hl hx
    cases hx with
    | proceed => exact Stmt.execAll_shadows hi ss' tail (hl.stands hS)
    | breakLoop => exact pure hl.sound .breakLoop
    | continueLoop => exact pure hl.sound .continueLoop
    | returnValue padded => exact pure hl.sound (.returnValue padded)

end

/-- A call of functions that correspond, up to the end of their bodies. -/
theorem Closure.runBody_shadows {f g : Closure} {vs vs' : List Value} (hi : CallsEcho P inv inv')
    (h : w.Sound) (hf : f.Padded w [] Γ g) (hvs : List.Forall₂ (Value.Padded w) vs vs') :
    Run.Shadows w (fun x x' u => x.Padded u x') (f.runBody turns inv vs)
      (g.runBody turns inv' vs') := by
  have hb : Bindings.Alike Eq (Value.Padded w) (bindParams f.params vs) (bindParams g.params vs') := by
    rw [hf.params]
    exact bindParams_alike (by grind) (List.forall₂_same.mpr fun _ _ => rfl) hvs
  exact inNewEnvironment h hf.environment hb (fun _ hU => Stmt.execAll_shadows hi g.body hf.body hU)
    fun _ _ _ _ hl hx => hx.mono hl

theorem Closure.conclude_echoes {f g : Closure} (h : w.Sound) (hf : f.Padded w [] Γ g)
    (hreceiver : f.isInitializer → Γ.head? = some .receiver) {x x' : Signal} (hx : x.Padded w x') :
    Run.Echoes w (f.conclude x) (g.conclude x') := by
  unfold Closure.conclude
  rw [hf.isInitializer]
  split
  next hinitializer =>
    obtain ⟨Γ, rfl⟩ := List.head?_eq_some_iff.mp (hreceiver hinitializer)
    obtain ⟨hinside, hplace⟩ := hf.environment.frame_eq nofun
    apply reading
    simp only [Store.getAt, Environment.frameAt, Environment.ancestor?, Environment.chain,
      List.getElem?_cons_zero, hplace]
    have hframe := h.frames f.environment.frame hinside hf.environment.head_inner
    exact ofGet h (hframe.get? (by grind) rfl)
  next =>
    cases hx with
    | returnValue padded => exact pure h padded
    | _ => exact pure h (.constant rfl)

theorem Closure.call_echoes {f g : Closure} {vs vs' : List Value} (hi : CallsEcho P inv inv')
    (h : w.Sound) (hf : f.Padded w [] Γ g)
    (hreceiver : f.isInitializer → Γ.head? = some .receiver)
    (hvs : List.Forall₂ (Value.Padded w) vs vs') :
    Run.Echoes w (f.call turns inv vs) (g.call turns inv' vs') := by
  rw [Closure.call_eq, Closure.call_eq]
  apply bind (Closure.runBody_shadows hi h hf hvs)
  intro x x' u hl hx
  exact Closure.conclude_echoes hl.sound (hf.mono hl.toLater) hreceiver hx

theorem Class.construct_echoes {c d : Class} {vs vs' : List Value} (hi : CallsEcho P inv inv')
    (h : w.Sound) (hc : c.Padded w d) (hvs : List.Forall₂ (Value.Padded w) vs vs') :
    Run.Echoes w (c.construct turns inv vs) (d.construct turns inv' vs') := by
  apply bind (addObject h hc)
  rintro o p u hl ⟨ho, howner⟩
  have hobject {x : Overlay P} (hx : u.Leads x) : Value.Padded x (.object o) (.object p) :=
    .object ho (howner.mono hx.toLater)
  have hmethod := Bindings.Alike.get? (by grind) (rfl : initializerName = initializerName)
    (hc.mono hl.toLater).methods
  generalize c.methods.get? initializerName = found at hmethod
  generalize d.methods.get? initializerName = other at hmethod
  cases hmethod with
  | none => exact pure hl.sound (hobject (.refl hl.sound))
  | some hm =>
    obtain ⟨Γ, hm⟩ := hm
    apply bind (bindMethod hl.sound hm (hobject (.refl hl.sound)))
    intro f g x hx hf
    have hvs := Value.Padded.monoAll (hl.toLater.trans hx.toLater) hvs
    apply bind (Closure.call_echoes hi hx.sound hf (fun _ => rfl) hvs)
    intro _ _ y hy _
    exact pure hy.sound (hobject (hx.trans hy))

end Meaning

/-- The functions of two libraries that have a known name give values that correspond, for
arguments that do. -/
def Padding.Serves (P : Padding) (library library' : Library) : Prop :=
  ∀ (w : Overlay P) (n : Native) (calls : Nat) (vs vs' : List Value), w.Sound → P.known n.name →
    List.Forall₂ (Value.Padded w) vs vs' →
      Value.Padded w (((library.get? n.name).map (·.run calls vs)).getD .nil)
        (((library'.get? n.name).map (·.run calls vs')).getD .nil)

theorem Run.Shadows.answer {library library' : Library} (hlib : P.Serves library library')
    (h : w.Sound) {n : Native} (known : P.known n.name) {vs vs' : List Value}
    (hvs : List.Forall₂ (Value.Padded w) vs vs') :
    Run.Echoes w (library.answer n vs) (library'.answer n vs') := by
  have hl : w.Leads ⟨{ w.left with asked := w.left.asked + 1 },
      { w.right with asked := w.right.asked + 1 }, w.place⟩ :=
    .of_stores h rfl rfl rfl rfl rfl h.instances h.fields h.identities h.output
      (congrArg (· + 1) h.asked)
  refine .ok hl (Value.Padded.mono hl.toLater ?_)
  rw [h.asked]
  exact hlib w n _ vs vs' h known hvs

theorem invoke_echoes {library library' : Library} (hlib : P.Serves library library')
    (turns depth : Nat) :
    CallsEcho P (invoke library turns depth) (invoke library' turns depth) := by
  induction depth with
  | zero => exact fun _ _ _ _ _ h _ _ => .throw h
  | succ depth ih =>
    intro w f g vs vs' h hf hvs
    cases hf with
    | constant constant => cases f <;> first | exact .pure h (.constant rfl) | cases constant
    | native known => exact .answer hlib h known hvs
    | function padded receiver => exact Closure.call_echoes ih h padded receiver hvs
    | klass padded => exact Class.construct_echoes ih h padded hvs
    | object _ _ => exact .pure h (.constant rfl)

theorem Host.execProgram_shadows {h h' : Host} (hdepth : h'.depth = h.depth)
    (hturns : h'.turns = h.turns) (hlib : P.Serves h.library h'.library)
    {p p' : List ResolvedStmt} (hp : Stmt.AllPadded P Γ p p') (hS : w.Stands Γ) :
    Run.Shadows w (fun _ _ _ => True) (h.execProgram p) (h'.execProgram p') := by
  induction p generalizing w p' with
  | nil =>
    cases hp
    exact .pure hS.sound trivial
  | cons s ss ih =>
    cases hp with
    | @cons _ _ s' _ ss' head tail =>
      simp only [Host.execProgram, Host.exec, hdepth, hturns]
      apply Run.Shadows.bind (s'.exec_shadows (invoke_echoes hlib h.turns h.depth) head hS)
      exact fun _ _ u hl _ => ih tail (hl.stands hS)

/-! ### Sessions -/

/-- Two sessions whose machines are in step at their globals, with the same reports. -/
structure Session.InStep (P : Padding) (s s' : Session) : Prop where
  depth : s'.host.depth = s.host.depth
  turns : s'.host.turns = s.host.turns
  serves : P.Serves s.host.library s'.host.library
  reporter : s'.reporter = s.reporter
  machines : ∃ place, (⟨s.machine, s'.machine, place⟩ : Overlay P).Stands [.both]

/-- Steps of sessions that end in one way, and leave the sessions in step. -/
inductive Session.EndsInStep (P : Padding) {α : Type} :
    EStateM.Result Escape Session α → EStateM.Result Escape Session α → Prop
  | ok {a : α} {s s' : Session} (inStep : s.InStep P s') : EndsInStep P (.ok a s) (.ok a s')
  | error {e : Escape} {s s' : Session} (inStep : s.InStep P s') :
      EndsInStep P (.error e s) (.error e s')

/-- Machines in step are so after a jump to their globals. -/
theorem Overlay.Sound.back (h : w.Sound) : (w.moved .global .global).Stands [.both] := by
  have hroot : (w.moved .global .global).Threads [.both] [0] [w.place 0] := .root h.inside
  rw [h.root] at hroot
  exact ⟨h.moved _ _, hroot⟩

/-- Machines before their first statement, if their globals correspond. -/
theorem Overlay.start_stands {b b' : Bindings Value}
    (h : P.globals (Value.Padded (⟨.start b, .start b', id⟩ : Overlay P)) b b') :
    (⟨.start b, .start b', id⟩ : Overlay P).Stands [.both] where
  sound :=
    { inside := Nat.zero_lt_one
      root := rfl
      placed := fun _ ha => ha
      apart := fun _ _ _ _ hplace => hplace
      globals := h
      frames := fun _ ha hinner => absurd (Nat.lt_one_iff.mp ha) (Nat.ne_of_gt hinner)
      instances := rfl
      fields := fun _ _ _ => .nil
      identities := rfl
      output := rfl
      asked := rfl
      snug := fun _ => ⟨fun _ _ => rfl, rfl⟩ }
  threads := .root Nat.zero_lt_one

namespace Session
variable {s s' : Session} {source path : String}

theorem InStep.output (h : s.InStep P s') : s'.machine.output = s.machine.output := by
  obtain ⟨place, hS⟩ := h.machines
  exact hS.sound.output

theorem InStep.opened (h : s.InStep P s') (source path : String) :
    (s.opened source path).InStep P (s'.opened source path) :=
  { h with reporter := congrArg (·.reset.registerSource path source) h.reporter }

theorem InStep.refused (h : s.InStep P s') (source path : String) (ds : List Diagnostic) :
    (s.refused source path ds).InStep P (s'.refused source path ds) :=
  { h with reporter := congrArg (·.reportAll ds) (h.opened source path).reporter }

theorem interpret_inStep {p p' : List ResolvedStmt} (hp : Stmt.AllPadded P [.both] p p')
    (h : s.InStep P s') : EndsInStep P (interpret p s) (interpret p' s') := by
  obtain ⟨place, hS⟩ := h.machines
  have hends := Host.execProgram_shadows h.depth h.turns h.serves hp hS
  simp only [Run.Shadows] at hends
  simp only [interpret]
  generalize s.host.execProgram p s.machine = x at hends
  generalize s'.host.execProgram p' s'.machine = y at hends
  cases hends with
  | @ok a b u leads holds => exact .ok { h with machines := ⟨u.place, leads.stands hS⟩ }
  | @error f u leads =>
    have hescape : EndsInStep P (α := Unit) (.error f.escape { s with machine := u.left })
        (.error f.escape { s' with machine := u.right }) :=
      .error { h with machines := ⟨u.place, leads.stands hS⟩ }
    cases f with
    | fault t cause =>
      exact .ok { h with
        reporter := congrArg (·.reportRuntime (some t) cause.message) h.reporter
        machines := ⟨u.place, leads.sound.back⟩ }
    | _ => exact hescape

theorem EndsInStep.concluded {x y : EStateM.Result Escape Session Unit} (h : EndsInStep P x y) :
    EndsInStep P (concluded x) (concluded y) := by
  cases h with
  | ok inStep =>
    simp only [Session.concluded, inStep.reporter]
    exact .ok inStep
  | error inStep => exact .error inStep

theorem EndsInStep.after {α : Type} {step step' : SessionM α}
    (h : EndsInStep P (step s) (step' s')) : (s.after step).InStep P (s'.after step') := by
  simp only [Session.after]
  generalize step s = x at h
  generalize step' s' = y at h
  cases h with
  | ok inStep => exact inStep
  | error inStep => exact inStep

theorem EndsInStep.ending_eq {α : Type} {step step' : SessionM α}
    (h : EndsInStep P (step s) (step' s')) : s'.ending step' = s.ending step := by
  simp only [Session.ending]
  generalize step s = x at h
  generalize step' s' = y at h
  cases h <;> rfl

/-- A source, if its program is in step with itself. -/
theorem run_inStep (hself : Accepted source →
      Stmt.AllPadded P [.both] (resolve (programOf source)).program
        (resolve (programOf source)).program) (h : s.InStep P s') (path : String) :
    EndsInStep P (run source path s) (run source path s') := by
  by_cases hsource : Accepted source
  · rw [run_accepted hsource, run_accepted hsource]
    exact (interpret_inStep (hself hsource) (h.opened source path)).concluded
  · obtain ⟨ds, -, hrun⟩ := run_refused hsource
    rw [hrun, hrun]
    exact .ok (h.refused source path ds)

theorem runAll_inStep {sources : List (String × String)}
    (hself : ∀ entry ∈ sources, Accepted entry.1 →
      Stmt.AllPadded P [.both] (resolve (programOf entry.1)).program
        (resolve (programOf entry.1)).program) (h : s.InStep P s') :
    (s.runAll sources).InStep P (s'.runAll sources) := by
  induction sources generalizing s s' with
  | nil => exact h
  | cons entry rest ih =>
    obtain ⟨hentry, hrest⟩ := List.forall_mem_cons.mp hself
    exact ih hrest (run_inStep hentry h entry.2).after

end Session
end LoxScript
