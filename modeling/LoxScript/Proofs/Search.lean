import Mathlib.Order.Bounds.Defs
import LoxScript.Proofs.Binding
import LoxScript.Proofs.Runs
import LoxScript.Proofs.ScopeAgreement

/-!
Recorded distances lead to where a search would lead.

A search for a name walks the chain of the current environment outward, and takes the first frame
that binds the name. Frames come to bind further names while functions hold them, so the names that
are there in a run are not those that the walk saw. But if no reference is bound to the variable
whose initializer it stands in, and no scope declares a name behind a function that refers past it,
then no further name comes to stand between a reference and what it is bound to.
-/
namespace LoxScript

namespace Store

/-- The first frame of a chain that binds a name. -/
def search? (s : Store) (chain : List Address) (name : String) : Option Address :=
  chain.find? fun a => (s.frame a).has name

/-- The frame that a search from an environment outward has to find. -/
def searched (s : Store) (e : Environment) (name : Token) : Except Failure Address :=
  match s.search? e.chain name.lexeme with
  | some a => .ok a
  | none => .error (.fault name (.undefinedVariable name.lexeme))

/-- Reads a name in the frame that a search finds. -/
def searchedValue (s : Store) (e : Environment) (name : Token) : Except Failure Value :=
  match s.searched e name with
  | .ok a => s.get ⟨a, []⟩ name
  | .error failure => .error failure

end Store

namespace Run

def searchRead (name : Token) : Run Value := do
  let m ← get
  ofExcept (m.store.searchedValue m.environment name)

def searchWrite (name : Token) (v : Value) : Run Unit := do
  let m ← get
  let a ← ofExcept (m.store.searched m.environment name)
  defineIn a name.lexeme v

end Run

namespace Store
variable {s : Store} {e : Environment} {name : Token}

theorem search?_nearest {chain : List Address} {name : String} {d : Nat} {a : Address}
    (ha : chain[d]? = some a) (hhas : (s.frame a).has name)
    (hbefore : ∀ i < d, ∀ b, chain[i]? = some b → (s.frame b).has name = false) :
    s.search? chain name = some a := by
  induction chain generalizing d with
  | nil => cases ha
  | cons first rest ih =>
    cases d with
    | zero =>
      obtain rfl : first = a := by simpa using ha
      exact List.find?_cons_of_pos hhas
    | succ d =>
      have hfirst : (s.frame first).has name = false := hbefore 0 (Nat.zero_lt_succ d) first rfl
      have hrest : s.search? rest name = some a := by
        refine ih (by simpa using ha) fun i hi b hb => ?_
        exact hbefore (i + 1) (Nat.succ_lt_succ hi) b (by simpa using hb)
      rw [← hrest]
      exact List.find?_cons_of_neg (by simp [hfirst])

theorem search?_outermost {frames : List Address} {name : String} (root : Address)
    (hframes : ∀ a ∈ frames, (s.frame a).has name = false) :
    s.search? (frames ++ [root]) name = if (s.frame root).has name then some root else none := by
  have hnone : frames.find? (fun a => (s.frame a).has name) = none :=
    List.find?_eq_none.mpr fun a ha => by simp [hframes a ha]
  rw [search?, List.find?_append, hnone, Option.none_or, List.find?_singleton]

theorem getAt_eq_searchedValue {d : Nat} {a : Address} (hframe : e.frameAt d = .ok a)
    (hhas : (s.frame a).has name.lexeme) (hsearched : s.searched e name = .ok a) :
    s.getAt e d name.lexeme = s.searchedValue e name := by
  obtain ⟨v, hv⟩ := (Bindings.has_iff _ _).mp hhas
  simp only [getAt, searchedValue, hframe, hsearched, get, hv]

/-- Where no frame below the globals binds a name, a search ends at the globals. -/
theorem searched_global {frames : List Address}
    (hchain : e.chain = frames ++ [Environment.global.frame])
    (hframes : ∀ a ∈ frames, (s.frame a).has name.lexeme = false) :
    s.target .global name = s.searched e name := by
  rw [searched, hchain, search?_outermost _ hframes, target]
  split <;> rfl

theorem get_eq_searchedValue (h : s.target .global name = s.searched e name) :
    s.get .global name = s.searchedValue e name := by
  rw [searchedValue, ← h, target]
  by_cases hhas : (s.frame Environment.global.frame).has name.lexeme
  · rw [if_pos hhas]
    rfl
  · rw [if_neg hhas, get, (Bindings.has_eq_false_iff _ _).mp (by simpa using hhas)]

end Store

/-- A write by a distance is one by search if both lead to one frame. -/
theorem Run.assign_eq_searchWrite {m : Machine} {name : Token} {mark : Option Nat} (v : Value)
    (h : (match mark with
      | some d => m.environment.frameAt d
      | none => m.store.target .global name) = m.store.searched m.environment name) :
    Run.assign name mark v m = Run.searchWrite name v m :=
  congrArg (fun target => (Run.ofExcept target >>= (Run.defineIn · name.lexeme v)) m) h

namespace Moment

def BindsAt (m : Moment) (name : String) (i : Nat) : Prop :=
  ∃ a, m.machine.environment.ancestor? i = some a ∧ (m.frame a).has name

/-- What is recorded for a reference at a moment is what a search finds. -/
structure Found (m : Moment) (name : Token) (mark : Option Nat) : Prop where
  nearest : ∀ d, mark = some d → IsLeast {i | m.BindsAt name.lexeme i} d
  global : mark = none → ∀ a ∈ m.chain, a ≠ Environment.global.frame →
    (m.frame a).has name.lexeme = false
  reads : Run.lookUp name mark m.machine = Run.searchRead name m.machine
  writes : ∀ v, Run.assign name mark v m.machine = Run.searchWrite name v m.machine

theorem Found.local {m : Moment} {name : Token} {d : Nat}
    (h : IsLeast {i | m.BindsAt name.lexeme i} d) : m.Found name (some d) := by
  obtain ⟨a, ha, hhas⟩ := h.1
  have hframe : m.machine.environment.frameAt d = .ok a := by
    rw [Environment.frameAt, ha]
  have hsearch : m.machine.store.search? m.machine.environment.chain name.lexeme = some a := by
    refine Store.search?_nearest ha hhas fun i hi b hb => ?_
    rw [Bool.eq_false_iff]
    intro hbinds
    have hle : d ≤ i := h.2 ⟨b, hb, hbinds⟩
    omega
  have hsearched : m.machine.store.searched m.machine.environment name = .ok a := by
    rw [Store.searched, hsearch]
  constructor
  · intro d' hd'
    cases hd'
    exact h
  · intro hnone
    cases hnone
  · exact congrArg (Run.ofExcept · m.machine)
      (Store.getAt_eq_searchedValue hframe hhas hsearched)
  · intro v
    exact Run.assign_eq_searchWrite v (hframe.trans hsearched.symm)

theorem Found.outside {m : Moment} {name : Token} {frames : List Address}
    (hchain : m.chain = frames ++ [Environment.global.frame])
    (hframes : ∀ a ∈ frames, (m.frame a).has name.lexeme = false) : m.Found name none := by
  have htarget : m.machine.store.target .global name =
      m.machine.store.searched m.machine.environment name := Store.searched_global hchain hframes
  constructor
  · intro d hd
    cases hd
  · intro _ a ha hne
    rw [hchain] at ha
    rcases List.mem_append.mp ha with hmem | hroot
    · exact hframes a hmem
    · exact absurd (List.mem_singleton.mp hroot) hne
  · exact congrArg (Run.ofExcept · m.machine) (Store.get_eq_searchedValue htarget)
  · intro v
    exact Run.assign_eq_searchWrite v htarget

end Moment

/-- The regime in which names lead to the innermost frames that bind them. -/
def Regime.settled : Regime where
  holds x := x.Safe ∧ x.Exact
  safe := True
  exact := True
  safe_of_exact h := h
  safe_of_holds _ _ h := h.1
  exact_of_holds _ _ h := h.2

theorem Covers.not_has {R : Regime} {m : Moment} {chain : List Address} {Γ : Context}
    (h : Covers R m chain Γ) (hexact : R.exact) {i : Nat} {l : Layer} {a : Address}
    (hl : Γ[i]? = some l) (ha : chain[i]? = some a) {name : String} (hmay : ¬ l.MayBind name) :
    (m.frame a).has name = false := by
  obtain ⟨b, hb, hcovered⟩ := h.at hl
  obtain rfl : a = b := Option.some.inj (ha.symm.trans hb)
  rw [Bool.eq_false_iff]
  exact fun hhas => hmay (hcovered.upper hexact name hhas)

/-- At a visit of a reference, what is recorded is what a search finds. -/
theorem Visit.Sound.found {v : Visit} (h : v.Sound .settled) {name : Token} {mark : Option Nat}
    (hname : v.node.referred? = some (name, mark)) : v.Found name mark := by
  obtain ⟨Γ, ⟨-, hexact⟩, hcovers⟩ := h
  have hreference : Spot.reference? ⟨v.path, Γ, v.node⟩ = some (name.lexeme, mark) := by
    rw [Spot.reference?, hname, Option.map_some]
  cases mark with
  | some d =>
    refine .local ⟨?_, fun i hi => ?_⟩
    · obtain ⟨l, hl, hdefined⟩ := hexact.found _ d hreference
      obtain ⟨a, ha, hcovered⟩ := hcovers.at hl
      exact ⟨a, ha, hcovered.lower trivial _ hdefined⟩
    · obtain ⟨a, ha, hhas⟩ := hi
      by_contra hlt
      obtain ⟨k, hk, -⟩ := hexact.found _ d hreference
      obtain ⟨hd, -⟩ := List.getElem?_eq_some_iff.mp hk
      have hi : i < d := Nat.lt_of_not_le hlt
      have hl : Γ[i]? = some (Γ.get ⟨i, Nat.lt_trans hi hd⟩) := by simp
      -- A frame before the recorded one was made for a scope that never comes to have the name.
      have hnot := hcovers.not_has trivial hl ha (hexact.nearest _ d hreference i hi _ hl)
      rw [hhas] at hnot
      cases hnot
  | none =>
    obtain ⟨frames, hchain, -, -, hlength⟩ := hcovers.frames
    refine .outside hchain fun a ha => ?_
    obtain ⟨i, hi⟩ := List.mem_iff_getElem?.mp ha
    obtain ⟨hlt, -⟩ := List.getElem?_eq_some_iff.mp hi
    have hl : Γ[i]? = some (Γ.get ⟨i, hlength ▸ hlt⟩) := by simp
    have hat : v.chain[i]? = some a := by
      rw [hchain, List.getElem?_append_left hlt, hi]
    exact hcovers.not_has trivial hl hat (hexact.global _ hreference _ (List.mem_of_getElem? hl))

/-- Sources one after another that are accepted, in which no reference is bound to the local
variable whose initializer it stands in, and no scope declares a name behind a function that refers
past the scope with it. -/
def Settled : List (String × String) → Prop :=
  AllAccepted fun i source =>
    (∀ x : Spot, ¬ x.OwnReference i source) ∧ ¬ Spot.LateDeclaration i source

/-- Sources that a check finds settled, if nothing in them is nested deeper than `depth`. -/
theorem settled_of_check (depth : Nat) {sources : List (String × String)}
    (h : sources.zipIdx.all fun (entry, i) => decide (Accepted entry.1) &&
      (Spot.checkProgram (Spot.ownFree depth) depth i entry.1 &&
        Spot.checkProgram (Spot.lateFree depth) depth i entry.1)) : Settled sources := by
  have hfree (i : Nat) (source : String)
      (hboth : Spot.checkProgram (Spot.ownFree depth) depth i source &&
        Spot.checkProgram (Spot.lateFree depth) depth i source) :
      (∀ x : Spot, ¬ x.OwnReference i source) ∧ ¬ Spot.LateDeclaration i source := by
    rw [Bool.and_eq_true] at hboth
    exact ⟨Spot.ownReference_free depth hboth.1, Spot.lateDeclaration_free depth hboth.2⟩
  exact .of_check hfree h

/-- Reads and writes by recorded distances are those by search: whenever a run comes to a
reference, the recorded distance is the least one whose frame binds the name, and without one no
frame below the globals binds it. -/
theorem distances_search (readings : Nat → Float) (depth turns : Nat) (reporter : Reporter)
    (sources : List (String × String)) (hsources : Settled sources) :
    let host : Host := ⟨.standard readings, depth, turns⟩
    let session : Session := ⟨host, .start host.library.globals, reporter⟩
    let run := (Tracer.start host.library.globals).interpretAll host 0 (programsOf sources)
    run.machine = (session.runAll sources).machine ∧
      ∀ v ∈ run.visits, ∀ name mark, v.node.referred? = some (name, mark) → v.Found name mark := by
  intro host session run
  refine ⟨(Tracer.interpretAll_run (s := session) hsources.accepted rfl 0).1, ?_⟩
  intro v hv name mark hname
  have hstart : (Tracer.start host.library.globals).Stands .settled [] :=
    Tracer.start_stands fun _ _ => Library.isData_globals
  have hstands : run.Stands .settled [] := by
    refine Tracer.programsOf_stands (Library.standard_plain readings) (fun i source path hi x hx => ?_)
      hstart
    obtain ⟨hsource, hown, hlate⟩ := hsources i source path hi
    exact ⟨hx.safe hsource fun y _ => hown y, hx.exact hsource hown hlate⟩
  exact (hstands.sound.visits v hv).found hname

/-- A closure that writes a local variable and one that reads it, and a method that reads its
receiver. -/
theorem distances_search_closures :
    let first := "\x7b var a = nil; fun f(b) \x7b a = b; return fun () \x7b return a; \x7d; \x7d " ++
      "print f(true)(); \x7d"
    let second := "class A \x7b m() \x7b return this; \x7d \x7d print A().m();"
    let sources := [(first, "1"), (second, "2")]
    let host : Host := ⟨.standard Nat.toFloat, callDepth, loopTurns⟩
    let session : Session := ⟨host, .start host.library.globals, .start false false⟩
    let run := (Tracer.start host.library.globals).interpretAll host 0 (programsOf sources)
    Settled sources ∧ run.machine = (session.runAll sources).machine ∧
      ∀ v ∈ run.visits, ∀ name mark, v.node.referred? = some (name, mark) → v.Found name mark := by
  intro first second sources host session run
  have hsettled : Settled sources := settled_of_check 12 (by decide +kernel)
  exact ⟨hsettled, distances_search Nat.toFloat callDepth loopTurns (.start false false) sources hsettled⟩

end LoxScript
