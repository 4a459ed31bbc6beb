import LoxScript.Proofs.Enclosure
import LoxScript.Proofs.Runs
import LoxScript.Proofs.ScopeAgreement
import LoxScript.Proofs.ScribedRun

/-!
`this` is the receiver.

A reference to a receiver stands in a method. Its distance leads over the frames that were made
within the body of that method to the frame in which the method was bound, and that frame binds the
instance to which it was bound for good. Methods that were not bound stay in their classes, and
calls of initializers and of classes give the instances that they are for.
-/
namespace LoxScript

open Scribe

/-- The regime in which all that is known of spots is where they are. -/
def Regime.placed (sources : List (String × String)) : Regime where
  holds x := ∃ i source path, sources[i]? = some (source, path) ∧ x.In i source
  safe := False
  exact := False
  safe_of_exact h := h
  safe_of_holds h := h.elim
  exact_of_holds h := h.elim

/-- Whether a run shows a value: as that of an expression, of a variable, of a field, or as an
argument of a call. -/
inductive Scribe.Shows (s : Scribe) (v : Value) : Prop
  | expression {visit : Visit} (evaluated : .evaluated visit v ∈ s.events)
  | bound {m : Moment} {a : Address} {name : String} (moment : m ∈ s.moments)
      (held : (m.frame a).get? name = some v)
  | written {name : String} (wrote : .wrote name v ∈ s.events)
  | field {m : Moment} {o : Object} {name : String} (moment : m ∈ s.moments)
      (held : (m.machine.store.fields o).get? name = some v)
  | argument {f : Value} {vs : List Value} (called : .called f vs ∈ s.events) (given : v ∈ vs)

/-- What the receiver of a visit is in the run of some sources: the environment of the visit is one
inside that of an activation of the innermost method around its node, and the function that was
activated is the method bound to the receiver. -/
inductive Visit.Receives (sources : List (String × String)) (run : Scribe) (v : Visit) (o : Object) :
    Prop
  | intro {i : Nat} {source path : String} {x : Spot} {p : Path} {method f : Closure}
      {e : Environment} {inner : List Address} (known : sources[i]? = some (source, path))
      (within : x.InMethod i source p) (place : x.path = v.path) (node : x.node = v.node)
      (origin : run.origin method.identity = p) (bound : .bound method o f ∈ run.events)
      (entered : .entered f e ∈ run.events) (chain : v.chain = inner ++ e.chain)
      (innermost : ∀ a ∈ inner, ¬ v.OfReceiver a)

/-- What a run of some sources keeps of receivers and methods. -/
structure Scribe.KeepsReceivers (sources : List (String × String)) (run : Scribe) : Prop where
  /-- Whenever the run comes to `this`, it evaluates to its receiver. -/
  received : ∀ v ∈ run.visits, ∀ keyword mark, v.node = .expr (.this keyword mark) →
    ∃ o, v.Receives sources run o ∧ ∀ turns invoke,
      (Expr.this keyword mark).eval turns invoke v.machine = .ok (.object o) v.machine
  /-- The frame that was made for a receiver binds it from then on. -/
  kept : ∀ method o f, .bound method o f ∈ run.events → ∀ m ∈ run.moments,
    f.environment.frame < m.size → m.receiver? f.environment.frame = some (.object o)
  /-- Nothing is written under the name of the receiver. -/
  unwritten : ∀ name v, .wrote name v ∈ run.events → name ≠ receiverName
  /-- Methods of classes are not shown. -/
  unbound : ∀ c, .declared c ∈ run.events → ∀ name method, c.methods.get? name = some method →
    ∀ f, run.Shows (.function f) → f.identity ≠ method.identity
  /-- Calls of bound initializers give their receivers. -/
  initialized : ∀ method o f v, .bound method o f ∈ run.events →
    method.name = some initializerName → .returned f v ∈ run.events → v = .object o
  /-- Calls of classes give new instances of them. -/
  constructed : ∀ before c v, .constructed before c v ∈ run.events →
    ∃ o, v = .object o ∧ o.owner = c ∧ ¬ before.Has o

/-- The frames of two scopes that stand side by side in a context. -/
theorem Covers.split {R : Regime} {m : Moment} {chain : List Address} {Γ : Context}
    {inner outer : List Site} {s t : Site} (h : Covers R m chain Γ)
    (hsites : Γ.map (·.site) = inner ++ s :: t :: outer) :
    ∃ before a r after, chain = before ++ a :: r :: after ∧ before.map m.site = inner.map some ∧
      (a < m.size ∧ m.site a = some s) ∧ r < m.size ∧ m.site r = some t := by
  obtain ⟨frames, rfl, hmade, hallocated, -⟩ := h.frames
  rw [hsites, List.map_append, List.map_cons, List.map_cons] at hmade
  obtain ⟨before, rest, rfl, hbefore, hrest⟩ := List.map_eq_append_iff.mp hmade
  obtain ⟨a, rest, rfl, ha, hrest⟩ := List.map_eq_cons_iff.mp hrest
  obtain ⟨r, rest, rfl, hr, -⟩ := List.map_eq_cons_iff.mp hrest
  exact ⟨before, a, r, rest ++ [Environment.global.frame], by simp, hbefore,
    ⟨(hallocated a (by simp)).1, ha⟩, (hallocated r (by simp)).1, hr⟩

/-- `this` evaluates to what the frame at its distance has for the receiver. -/
theorem Expr.eval_this {m : Machine} {keyword : Token} {d : Nat} {a : Address} {v : Value}
    (hkeyword : keyword.lexeme = receiverName) (ha : m.environment.chain[d]? = some a)
    (hv : (m.store.frame a).get? receiverName = some v) (turns : Nat) (invoke : Invoke) :
    (Expr.this keyword (some d)).eval turns invoke m = .ok v m := by
  have hget : m.store.getAt m.environment d keyword.lexeme = .ok v := by
    simp only [Store.getAt, Environment.frameAt, Environment.ancestor?, ha, hkeyword, hv]
  change Run.ofExcept (m.store.getAt m.environment d keyword.lexeme) m = .ok v m
  rw [hget]
  rfl

namespace Scribe.Sound
variable {s : Scribe}

/-- Where a chain has the frame of a body behind that of a receiver, the body is one of a method
that was bound to that receiver. -/
theorem activation (hs : s.Sound) {m : Moment} (hm : m ∈ s.moments) {inner after : List Address}
    {a r : Address} {p : Path} {names : List String} {site : Site}
    (hchain : m.chain = inner ++ a :: r :: after) (ha : a < m.size ∧ m.site a = some ⟨p, .body, names⟩)
    (hr : r < m.size ∧ m.site r = some site) (hform : site.form = .receiver) :
    ∃ method o f e, .bound method o f ∈ s.events ∧ .entered f e ∈ s.events ∧
      s.origin method.identity = p ∧ e.chain = a :: r :: after ∧ m.receiver? r = some (.object o) := by
  have hkept : m.Kept s := hs.moments m hm
  obtain ⟨f, e, hentered, rfl, horigin⟩ := hs.bodies a p names ((hkept.site a ha.1).trans ha.2)
  obtain ⟨hf, -, henclosing⟩ : f.Known s ∧ e.frame < s.size ∧ e.enclosing = f.environment.chain :=
    hs.events _ hentered
  -- Behind the frame of a call is the environment of its function, which is the receiver's here.
  have hrest : r :: after = e.enclosing := hkept.placed.entered f e hentered inner _ hchain
  obtain ⟨rfl, -⟩ := List.cons.inj (hrest.trans henclosing)
  have hreceiver : s.OfReceiver f.environment.frame := ⟨site, (hkept.site _ hr.1).trans hr.2, hform⟩
  obtain ⟨method, o, hbound⟩ := hf.bound (.inl hreceiver)
  have hmethod : f.Bound s method o := hs.events _ hbound
  refine ⟨method, o, f, e, hbound, hentered, hmethod.origin.trans horigin, ?_, ?_⟩
  · rw [Environment.chain, hrest]
  · rw [← hkept.receiver _ hr.1]
    exact hmethod.receiver

theorem shown {v : Value} (hs : s.Sound) (h : s.Shows v) : v.Known s := by
  cases h with
  | expression evaluated => exact hs.events _ evaluated
  | bound moment held => exact (hs.moments _ moment).values _ _ _ held
  | written wrote => exact (hs.events _ wrote).2
  | field moment held => exact (hs.moments _ moment).fields _ _ _ held
  | argument called given => exact (hs.events _ called).2 v given

theorem initialized (hs : s.Sound) {method f : Closure} {o : Object} {v : Value}
    (hbound : .bound method o f ∈ s.events) (hname : method.name = some initializerName)
    (hreturned : .returned f v ∈ s.events) : v = .object o := by
  have hf : f.Bound s method o := hs.events _ hbound
  have hinit : method.isInitializer = true := (hs.events _ hf.made).2.mpr hname
  have hv := (hs.events _ hreturned).2.2 (hf.isInitializer.trans hinit)
  exact Option.some.inj (hv.symm.trans hf.receiver)

/-- A sound state in which all visits were where a walk had been keeps its receivers. -/
theorem keepsReceivers {sources : List (String × String)}
    (hsources : ∀ entry ∈ sources, Accepted entry.1) (hs : s.Sound)
    (hvisits : ∀ v ∈ s.visits, v.Sound (.placed sources)) : s.KeepsReceivers sources where
  received v hv keyword mark hnode := by
    obtain ⟨Γ, ⟨i, source, path, hi, hx⟩, hcovers⟩ := hvisits v hv
    have hsource : Accepted source := hsources _ (List.mem_of_getElem? hi)
    obtain ⟨hkeyword, p, inner, names, outer, hp, hsites, hinner, rfl⟩ := hx.receiver_mark hsource hnode
    obtain ⟨before, a, r, after, hchain, hbefore, ha, hr⟩ := hcovers.split hsites
    have hmoment : v.toMoment ∈ s.moments := List.mem_cons_of_mem _ (List.mem_map_of_mem hv)
    obtain ⟨method, o, f, e, hbound, hentered, horigin, he, ho⟩ :=
      hs.activation hmoment hchain ha hr rfl
    have hinside : ∀ b ∈ before, ¬ v.OfReceiver b := by
      rintro b hb ⟨site, hsite, hform⟩
      have hmem : some site ∈ inner.map some := by
        rw [← hbefore, ← hsite]
        exact List.mem_map_of_mem hb
      exact hinner site (by simpa using hmem) hform
    refine ⟨o, .intro hi hp rfl rfl horigin hbound hentered (hchain.trans (by rw [he])) hinside, ?_⟩
    have hlength : before.length = inner.length := by simpa using congrArg List.length hbefore
    refine Expr.eval_this hkeyword (a := r) ?_ ho
    change v.chain[inner.length + 1]? = some r
    simp [hchain, ← hlength]
  kept method o f hbound m hm hlt := by
    have hf : f.Bound s method o := hs.events _ hbound
    rw [← (hs.moments m hm).receiver _ hlt]
    exact hf.receiver
  unwritten name v hwrote := (hs.events _ hwrote).1
  unbound c hc name method hmethod f hf :=
    (hs.shown hf).free method ((hs.events _ hc) name method hmethod).made
  initialized method o f v hbound hname hreturned := hs.initialized hbound hname hreturned
  constructed before c v hv := hs.events _ hv

end Scribe.Sound

/-- Runs of accepted sources keep their receivers: `this` is the instance to which the innermost
method around it was bound. -/
theorem receivers_kept (readings : Nat → Float) (depth turns : Nat) (reporter : Reporter)
    (sources : List (String × String)) (hsources : ∀ entry ∈ sources, Accepted entry.1) :
    let host : Host := ⟨.standard readings, depth, turns⟩
    let session : Session := ⟨host, .start host.library.globals, reporter⟩
    let run := (Scribe.start host.library.globals).interpretAll host 0 (programsOf sources)
    run.machine = (session.runAll sources).machine ∧ run.KeepsReceivers sources := by
  intro host session run
  have hlib : host.library.Plain := Library.standard_plain readings
  have hspelled : ∀ program ∈ programsOf sources, Stmt.AllSpelled (resolve program).program :=
    List.forall_mem_map.mpr fun entry hentry => (hsources entry hentry).spelled
  have hstart : (Scribe.start host.library.globals).Rests :=
    Scribe.start_rests fun _ _ => Library.isData_globals
  obtain ⟨hrests, htracer⟩ := Scribe.interpretAll_rests hlib 0 hspelled hstart
  have htraced : run.toTracer =
      (Tracer.start host.library.globals).interpretAll host 0 (programsOf sources) := htracer
  have hmachine : run.machine = (session.runAll sources).machine := by
    rw [htraced]
    exact (Tracer.interpretAll_run (s := session) hsources rfl 0).1
  have hstands : run.toTracer.Stands (.placed sources) [] := by
    rw [htraced]
    apply Tracer.programsOf_stands hlib
    · intro i source path hi x hx
      exact ⟨i, source, path, hi, hx⟩
    · exact Tracer.start_stands fun _ _ => Library.isData_globals
  exact ⟨hmachine, hrests.toSound.keepsReceivers hsources hstands.sound.visits⟩

/-- A nested function that outlives the call of its method, a method that was bound and stored, and
an initializer that is called again. -/
theorem receivers_kept_closures :
    let source := "class A \x7b init(n) \x7b this.n = n; \x7d " ++
      "m() \x7b return fun () \x7b return this; \x7d; \x7d \x7d " ++
      "var a = A(nil); var m = a.m; var f = m(); print f() == a; print a.init(true) == a;"
    let host : Host := ⟨.standard Nat.toFloat, callDepth, loopTurns⟩
    let session : Session := ⟨host, .start host.library.globals, .start false false⟩
    let run := (Scribe.start host.library.globals).interpretAll host 0 (programsOf [(source, "1")])
    Accepted source ∧ (run.visits.filter (·.node.isReceiver)).length = 3 ∧
      run.machine = (session.runAll [(source, "1")]).machine ∧
      run.KeepsReceivers [(source, "1")] := by
  intro source host session run
  have hsource : Accepted source := by decide +kernel
  refine ⟨hsource, by decide +kernel, ?_⟩
  exact receivers_kept Nat.toFloat callDepth loopTurns (.start false false) [(source, "1")]
    (List.forall_mem_singleton.mpr hsource)

end LoxScript
