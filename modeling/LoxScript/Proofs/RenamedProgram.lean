import Mathlib.Data.List.Nodup
import LoxScript.Proofs.Renaming

/-!
Renaming a local variable of an accepted source.

In the scope of the variable no other declaration has its name, for that would be a fault. So the
program with the variable renamed is like the program, and a walk over it finds what the walk over
the program found. The nodes of the renamed program stand where those of the program do, and the
scope of the variable has it under its new name.
-/
namespace LoxScript

open Resolve Scope

namespace Spot
variable {number : Nat} {source : String} {x y : Spot}

/-- Spots of a source at one place have one node. -/
theorem In.node_eq (hx : x.In number source) (hy : y.In number source) (hpath : x.path = y.path) :
    x.node = y.node := by
  obtain ⟨root, hroot, hwithin⟩ := hx
  obtain ⟨root', hroot', hwithin'⟩ := hy
  obtain ⟨g, hg, hshows, -⟩ := sightings_show number (programOf source) root hroot x hwithin
  obtain ⟨g', hg', hshows', -⟩ := sightings_show number (programOf source) root' hroot' y hwithin'
  have hplace : g.path = g'.path := by rw [hshows.path, hshows'.path, hpath]
  have heq := List.inj_on_of_nodup_map (sightings_nodup number (programOf source)).1 hg hg' hplace
  rw [← hshows.node, ← hshows'.node, heq]

/-- Whether a spot passes a test, or one inside it that is nested less than `depth`. -/
def anyWithin (test : Spot → Bool) : Nat → Spot → Bool
  | 0, _ => false
  | depth + 1, x => test x || x.children.any (anyWithin test depth)

theorem exists_of_anyWithin {test : Spot → Bool} {depth : Nat} (h : x.anyWithin test depth) :
    ∃ y, x.Within y ∧ test y := by
  induction depth generalizing x with
  | zero => cases h
  | succ depth ih =>
    simp only [anyWithin, Bool.or_eq_true, List.any_eq_true] at h
    rcases h with hx | ⟨y, hy, hany⟩
    · exact ⟨x, .refl, hx⟩
    · obtain ⟨z, hz, htest⟩ := ih hany
      exact ⟨z, .head hy hz, htest⟩

theorem opened_eq (h : x.node = y.node) : x.opened = y.opened := by
  unfold opened
  rw [h]

section
variable {i : Nat} {params : List Token} {body : List ResolvedStmt}

/-- The first scope around an opened body has the parameters. -/
theorem bodies_of_opened (h : x.opened[i]? = some (params, body)) :
    ∃ p l Γ, (p, l :: Γ, body) ∈ x.bodies ∧ l.scope = definedNames (params.map (·.lexeme)) := by
  obtain ⟨q, Δ, n⟩ := x
  have hmem := List.mem_of_getElem? h
  cases n with
  | expr e =>
    cases e with
    | function name ts statements =>
      cases List.mem_singleton.mp hmem
      cases name with
      | none => exact ⟨_, _, _, List.mem_singleton_self _, rfl⟩
      | some name => exact ⟨_, _, _, List.mem_singleton_self _, rfl⟩
    | _ => cases hmem
  | stmt s =>
    cases s with
    | block statements =>
      cases List.mem_singleton.mp hmem
      exact ⟨_, _, _, List.mem_singleton_self _, rfl⟩
    | functionDecl name ts statements =>
      cases List.mem_singleton.mp hmem
      exact ⟨_, _, _, List.mem_singleton_self _, rfl⟩
    | classDecl name methods =>
      obtain ⟨m, hm, heq⟩ := List.mem_map.mp hmem
      cases heq
      obtain ⟨k, hk, rfl⟩ := List.mem_iff_getElem.mp hm
      exact ⟨_, _, _, List.mem_mapIdx.mpr ⟨k, hk, rfl⟩, rfl⟩
    | _ => cases hmem

theorem opened_words {P N : Token → Prop} (hx : x.node.Words P N)
    (h : x.opened[i]? = some (params, body)) :
    (∀ t ∈ params, P t ∧ N t) ∧ Stmt.AllWords P N body := by
  obtain ⟨q, Δ, n⟩ := x
  have hmem := List.mem_of_getElem? h
  cases n with
  | expr e =>
    cases e with
    | function name ts statements =>
      cases List.mem_singleton.mp hmem
      exact hx.2
    | _ => cases hmem
  | stmt s =>
    cases s with
    | block statements =>
      cases List.mem_singleton.mp hmem
      exact ⟨List.forall_mem_nil _, hx⟩
    | functionDecl name ts statements =>
      cases List.mem_singleton.mp hmem
      exact hx.2
    | classDecl name methods =>
      obtain ⟨m, hm, heq⟩ := List.mem_map.mp hmem
      cases heq
      exact Method.AllWords.mem hx.2 m hm
    | _ => cases hmem

theorem mem_stmts_of_getElem? {p : Path} {Γ : Context} {ss : List ResolvedStmt} {k : Nat}
    {s : ResolvedStmt} (hs : ss[k]? = some s) (i : Nat) :
    ⟨(i + k) :: p, Γ.declare (declared (ss.take k)), .stmt s⟩ ∈ stmts p i Γ ss := by
  induction ss generalizing i k Γ with
  | nil => cases hs
  | cons first rest ih =>
    cases k with
    | zero =>
      cases hs
      exact List.mem_cons_self
    | succ k =>
      have hrest := ih (Γ := Γ.declare first.declares) hs (i + 1)
      rw [← Context.declare_append, Nat.add_assoc, Nat.add_comm 1 k] at hrest
      exact List.mem_cons_of_mem _ hrest

/-- What a statement of a body declares is no parameter, and was not declared before it. -/
theorem In.undeclared (hsource : Accepted source) (hx : x.In number source)
    (h : x.opened[i]? = some (params, body)) {k : Nat} {s : ResolvedStmt} {t : Token}
    (hs : body[k]? = some s) (ht : s.declared? = some t) :
    (∀ u ∈ params, u.lexeme ≠ t.lexeme) ∧ t.lexeme ∉ declared (body.take k) := by
  obtain ⟨p, l, Γ, hbody, hscope⟩ := bodies_of_opened h
  let z := statement p (l :: Γ) body k s
  have hchild : z ∈ x.children := by
    refine List.mem_append_right _ (List.mem_flatMap.mpr ⟨_, hbody, ?_⟩)
    have hmem := mem_stmts_of_getElem? (p := p) (Γ := l :: Γ) hs 0
    rwa [Nat.zero_add] at hmem
  have hz : z.In number source := by
    obtain ⟨root, hroot, hwithin⟩ := hx
    exact ⟨root, hroot, hwithin.tail hchild⟩
  have hdeclares : z.declares? = some t.lexeme := by
    change s.declared?.map (·.lexeme) = _
    rw [ht]
    rfl
  have hcontext : z.context = Context.declare (l :: Γ) (declared (body.take k)) := rfl
  rw [Context.declare_cons] at hcontext
  have hfresh := hz.fresh hsource hdeclares (by rw [hcontext]; rfl)
  simp only [hscope, definedNames, get?_defineAll, Bindings.get?] at hfresh
  split at hfresh
  · cases hfresh
  next hbefore =>
    refine ⟨fun u hu heq => ?_, hbefore⟩
    rw [if_pos (List.mem_map.mpr ⟨u, hu, heq⟩)] at hfresh
    cases hfresh

end
end Spot

section Places
variable {r : Renaming}

def Node.rename (r : Renaming) (p : Path) (Γ : List Bool) : Node (Option Nat) → Node (Option Nat)
  | .expr e => .expr (e.rename r p Γ)
  | .stmt s => .stmt (s.rename r p Γ)

theorem Method.getElem?_renameAll (p : Path) (i : Nat) (Γ : List Bool) {ms : List ResolvedMethod}
    {j : Nat} {m : ResolvedMethod} (h : ms[j]? = some m) :
    (Method.renameAll r p i Γ ms)[j]? = some (.mk m.name (m.params.map (r.name (r.isScope p (i + j))))
      (Stmt.renameAll r ((i + j) :: p) 0 (r.isScope p (i + j) :: false :: Γ) m.body)) := by
  induction ms generalizing i j with
  | nil => cases h
  | cons first ms ih =>
    obtain ⟨t, params, body⟩ := first
    cases j with
    | zero =>
      cases h
      rfl
    | succ j =>
      have hrest := ih (i + 1) h
      rwa [Nat.add_assoc, Nat.add_comm 1 j] at hrest

theorem Stmt.rename_mem {s : ResolvedStmt} {ss : List ResolvedStmt} (h : s ∈ ss) (p : Path) (i : Nat)
    (Γ : List Bool) : ∃ q, s.rename r q Γ ∈ Stmt.renameAll r p i Γ ss := by
  induction ss generalizing i with
  | nil => cases h
  | cons first ss ih =>
    rcases List.mem_cons.mp h with rfl | h
    · exact ⟨i :: p, List.mem_cons_self⟩
    · obtain ⟨q, hq⟩ := ih h (i + 1)
      exact ⟨q, List.mem_cons_of_mem _ hq⟩

namespace Spot

/-- A renaming makes the node of a second spot from that of a first one, at the same place. -/
inductive Becomes (r : Renaming) : Spot → Spot → Prop
  | intro {p : Path} {Δ Δ' : Context} {n : Node (Option Nat)} (Γ : List Bool) :
      Becomes r ⟨p, Δ, n⟩ ⟨p, Δ', n.rename r p Γ⟩

theorem Becomes.path {x y : Spot} (h : x.Becomes r y) : y.path = x.path := by
  cases h
  rfl

section
variable (p : Path) (i : Nat) (Δ Δ' : Context) (Γ : List Bool)

theorem exprs_become (es : List ResolvedExpr) :
    List.Forall₂ (Becomes r) (exprs p i Δ es) (exprs p i Δ' (Expr.renameAll r p i Γ es)) := by
  induction es generalizing i with
  | nil => exact .nil
  | cons e es ih => exact .cons (.intro Γ) (ih (i + 1))

theorem stmts_become (ss : List ResolvedStmt) :
    List.Forall₂ (Becomes r) (stmts p i Δ ss) (stmts p i Δ' (Stmt.renameAll r p i Γ ss)) := by
  induction ss generalizing i Δ Δ' with
  | nil => exact .nil
  | cons s ss ih => exact .cons (.intro Γ) (ih (i + 1) _ _)

theorem methods_become (ms : List ResolvedMethod) :
    List.Forall₂ (Becomes r) (methods p i Δ ms) (methods p i Δ' (Method.renameAll r p i Γ ms)) := by
  induction ms generalizing i with
  | nil => exact .nil
  | cons m ms ih =>
    obtain ⟨t, params, body⟩ := m
    exact List.rel_append (stmts_become (i :: p) 0 _ _ (r.isScope p i :: false :: Γ) body) (ih (i + 1))

end

/-- The children of a node become those of the renamed node. -/
theorem children_become {x z : Spot} (hz : x.Becomes r z) :
    List.Forall₂ (Becomes r) x.children z.children := by
  obtain @⟨p, Δ, Δ', n, Γ⟩ := hz
  cases n with
  | expr e =>
    cases e with
    | grouping e | unary t e | assign t operator e mark | get e t => exact .cons (.intro Γ) .nil
    | binary a t b | logical a t b | set a t operator b =>
      exact .cons (.intro Γ) (.cons (.intro Γ) .nil)
    | call f t es =>
      refine .cons (.intro Γ) ?_
      simpa [bodies, Node.rename, Expr.rename] using exprs_become p 1 Δ Δ' Γ es
    | function name params body =>
      cases name with
      | none => simpa [children, parts, bodies, Node.rename, Expr.rename] using stmts_become p 0 _ _ _ body
      | some t => simpa [children, parts, bodies, Node.rename, Expr.rename] using stmts_become p 0 _ _ _ body
    | literal value | «variable» t mark | this t mark => exact .nil
  | stmt s =>
    cases s with
    | expression e | print e => exact .cons (.intro Γ) .nil
    | varDecl t value | returnFrom t value =>
      cases value with
      | none => exact .nil
      | some e => exact .cons (.intro Γ) .nil
    | block body =>
      simpa [children, parts, bodies, Node.rename, Stmt.rename] using stmts_become p 0 _ _ _ body
    | ifElse c yes no =>
      cases no with
      | none => exact .cons (.intro Γ) (.cons (.intro Γ) .nil)
      | some no => exact .cons (.intro Γ) (.cons (.intro Γ) (.cons (.intro Γ) .nil))
    | loop c body increment =>
      cases increment with
      | none => exact .cons (.intro Γ) (.cons (.intro Γ) .nil)
      | some n => exact .cons (.intro Γ) (.cons (.intro Γ) (.cons (.intro Γ) .nil))
    | breakLoop t | continueLoop t => exact .nil
    | functionDecl t params body =>
      simpa [children, parts, bodies, Node.rename, Stmt.rename] using stmts_become p 0 _ _ _ body
    | classDecl t ms =>
      rw [Node.rename, Stmt.rename, children_classDecl, children_classDecl]
      exact methods_become p 0 _ _ Γ ms

theorem exists_becomes {xs zs : List Spot} (h : List.Forall₂ (Becomes r) xs zs) {x : Spot}
    (hx : x ∈ xs) : ∃ z ∈ zs, x.Becomes r z := by
  induction h with
  | nil => cases hx
  | @cons y z _ _ hyz _ ih =>
    rcases List.mem_cons.mp hx with rfl | hx
    · exact ⟨z, List.mem_cons_self, hyz⟩
    · obtain ⟨w, hw, hbecomes⟩ := ih hx
      exact ⟨w, List.mem_cons_of_mem _ hw, hbecomes⟩

theorem within_becomes {x y z : Spot} (hz : x.Becomes r z) (hy : x.Within y) :
    ∃ w, z.Within w ∧ y.Becomes r w := by
  induction hy with
  | refl => exact ⟨z, .refl, hz⟩
  | tail _ hstep ih =>
    obtain ⟨w, hw, hbecomes⟩ := ih
    obtain ⟨v, hv, hnext⟩ := exists_becomes (children_become hbecomes) hstep
    exact ⟨v, hw.tail hv, hnext⟩

section
variable {i : Nat} {params : List Token} {body : List ResolvedStmt}

/-- The bodies that a node opens, after a renaming. -/
theorem opened_becomes {x z : Spot} (hz : x.Becomes r z) (h : x.opened[i]? = some (params, body)) :
    ∃ q Γ, z.opened[i]? = some (params.map (r.name (r.isScope x.path i)),
      Stmt.renameAll r q 0 (r.isScope x.path i :: Γ) body) := by
  obtain @⟨p, Δ, Δ', n, Γ⟩ := hz
  cases n with
  | expr e =>
    cases e with
    | function name ts statements =>
      obtain ⟨rfl, rfl, rfl⟩ : i = 0 ∧ ts = params ∧ statements = body := by
        simpa [opened, List.getElem?_singleton] using h
      cases name with
      | none => exact ⟨p, Γ, rfl⟩
      | some t => exact ⟨p, false :: Γ, rfl⟩
    | _ => cases h
  | stmt s =>
    cases s with
    | block statements =>
      obtain ⟨rfl, rfl, rfl⟩ : i = 0 ∧ [] = params ∧ statements = body := by
        simpa [opened, List.getElem?_singleton] using h
      exact ⟨p, Γ, rfl⟩
    | functionDecl t ts statements =>
      obtain ⟨rfl, rfl, rfl⟩ : i = 0 ∧ ts = params ∧ statements = body := by
        simpa [opened, List.getElem?_singleton] using h
      exact ⟨p, Γ, rfl⟩
    | classDecl t ms =>
      simp only [opened, List.getElem?_map, Option.map_eq_some_iff] at h
      obtain ⟨m, hm, heq⟩ := h
      cases heq
      refine ⟨i :: p, false :: Γ, ?_⟩
      have hmethod := Method.getElem?_renameAll (r := r) p 0 Γ hm
      rw [Nat.zero_add] at hmethod
      simp only [opened, Node.rename, Stmt.rename, List.getElem?_map, hmethod]
      rfl
    | _ => cases h

end

end Spot
end Places
theorem Stmt.declared?_of_defines? {s : ResolvedStmt} {t : Token} (h : s.defines? = some t) :
    s.declared? = some t := by
  cases s with
  | functionDecl name params body => exact h
  | classDecl name methods => exact h
  | _ => cases h

theorem Stmt.mem_declares_of_declared? {s : ResolvedStmt} {t : Token} (h : s.declared? = some t) :
    t.lexeme ∈ s.declares := by
  have hname : Spot.declares? ⟨[], [], .stmt s⟩ = some t.lexeme := by
    simp only [Spot.declares?, h, Option.map_some]
  rw [Spot.mem_declares hname]
  exact List.mem_singleton_self _

namespace Renaming
variable {r : Renaming} {source : String}

/-- In the scope of a renaming, a program has a parameter of a name or declares a variable of it. -/
def Finds (r : Renaming) (name : String) (program : List ResolvedStmt) : Prop :=
  ∃ x : Spot, (∃ y ∈ Spot.stmts [0] 0 [] program, y.Within x) ∧ x.path = r.path ∧
    ∃ params body, x.opened[r.number]? = some (params, body) ∧
      ∃ t, t.lexeme = name ∧ (t ∈ params ∨ ∃ value, .varDecl t value ∈ body)

/-- Whether a node opens the scope of a renaming, and that declares a name. -/
def isFoundAt (r : Renaming) (name : String) (x : Spot) : Bool :=
  x.path = r.path && x.opened[r.number]?.any fun (params, body) =>
    params.any (·.lexeme = name) || body.any fun
      | .varDecl t _ => t.lexeme = name
      | _ => false

/-- The search for a variable, if nothing is nested deeper than `depth`. -/
def find (r : Renaming) (name : String) (depth : Nat) (program : List ResolvedStmt) : Bool :=
  (Spot.stmts [0] 0 [] program).any (·.anyWithin (r.isFoundAt name) depth)

theorem finds_of_find {name : String} (depth : Nat) {program : List ResolvedStmt}
    (h : r.find name depth program) : r.Finds name program := by
  obtain ⟨root, hroot, hany⟩ := List.any_eq_true.mp h
  obtain ⟨x, hwithin, hx⟩ := Spot.exists_of_anyWithin hany
  simp only [isFoundAt, Bool.and_eq_true, decide_eq_true_eq, Option.any_eq_true,
    Bool.or_eq_true, List.any_eq_true] at hx
  obtain ⟨hpath, ⟨params, body⟩, hopened, hdeclared⟩ := hx
  refine ⟨x, ⟨root, hroot, hwithin⟩, hpath, params, body, hopened, ?_⟩
  rcases hdeclared with ⟨t, ht, hname⟩ | ⟨s, hs, hname⟩
  · exact ⟨t, hname, .inl ht⟩
  · split at hname
    next t value => exact ⟨t, of_decide_eq_true hname, .inr ⟨value, hs⟩⟩
    next => cases hname

/-- A renaming of a local variable of a source. -/
def OfLocal (r : Renaming) (source : String) : Prop :=
  r.Finds r.old (resolve (programOf source)).program

/-- The new name is an identifier that is no word of a source. -/
structure NewTo (r : Renaming) (source : String) : Prop where
  identifier : Kind.ofWord r.new = .identifier
  absent : ∀ t ∈ wordsOf source, t.lexeme ≠ r.new

theorem OfLocal.proper (h : r.OfLocal source) (hsource : Accepted source) (hnew : r.NewTo source) :
    r.Proper := by
  refine ⟨?_, (Scan.worded_ofWord r.new).2 hnew.identifier⟩
  obtain ⟨x, hx, -, params, body, hopened, t, hold, ht⟩ := h
  have hx : x.In 0 source := hx
  have hworded : ∀ t ∈ wordsOf source, t.Worded :=
    fun t ht => scan_worded source t (List.dropLast_subset _ ht)
  obtain ⟨hparams, hbody⟩ := Spot.opened_words (hx.words hsource hworded) hopened
  have hname : t.Worded ∧ t.kind = .identifier := by
    rcases ht with hparam | ⟨value, hvalue⟩
    · exact hparams t hparam
    · have hwords := hbody.mem _ hvalue
      cases value with
      | none => exact hwords
      | some e => exact hwords.1
  rw [← hold]
  exact hname.1.2 hname.2

/-- In the scope of the variable, no function or class has its name. -/
theorem OfLocal.clear (h : r.OfLocal source) (hsource : Accepted source) {y : Spot}
    (hy : y.In 0 source) {i : Nat} {params : List Token} {body : List ResolvedStmt}
    (hopened : y.opened[i]? = some (params, body)) (hscope : r.isScope y.path i) : r.Clear body := by
  obtain ⟨x, hx, hpath, params', body', hopened', t, ht, hdeclared⟩ := h
  have hx : x.In 0 source := hx
  obtain ⟨hplace, rfl⟩ : y.path = r.path ∧ i = r.number := by simpa [isScope] using hscope
  rw [Spot.opened_eq (hx.node_eq hy (hpath.trans hplace.symm)), hopened] at hopened'
  cases hopened'
  intro s hs u hu hname
  obtain ⟨k, hk⟩ := List.mem_iff_getElem?.mp hs
  have hdeclares := Stmt.declared?_of_defines? hu
  obtain ⟨hparams, hbefore⟩ := hy.undeclared hsource hopened hk hdeclares
  rcases hdeclared with hparam | ⟨value, hvalue⟩
  · exact hparams t hparam (ht.trans hname.symm)
  -- Of two declarations with one name, the later one is at fault.
  obtain ⟨j, hj⟩ := List.mem_iff_getElem?.mp hvalue
  rcases Nat.lt_trichotomy j k with hlt | rfl | hgt
  · apply hbefore
    rw [hname, ← ht]
    exact Spot.mem_declared_take hj hlt (List.mem_singleton_self _)
  · cases hk.symm.trans hj
    cases hu
  · apply (hy.undeclared hsource hopened hj (t := t) rfl).2
    rw [ht, ← hname]
    exact Spot.mem_declared_take hk hgt (Stmt.mem_declares_of_declared? hdeclares)

theorem OfLocal.suits (h : r.OfLocal source) (hsource : Accepted source) (hnew : r.NewTo source) :
    ∀ x ∈ Spot.stmts [0] 0 [] (resolve (programOf source)).program, x.Throughout r.Suits := by
  intro x hx y hy
  have hin : y.In 0 source := ⟨x, hx, hy⟩
  constructor
  · exact hsource.shaped hin
  · exact hin.words hsource hnew.absent
  · intro i params body hopened hscope
    exact h.clear hsource hin hopened hscope

/-- The marked program of a source with the variable renamed. -/
def marked (r : Renaming) (source : String) : List ResolvedStmt :=
  Stmt.renameAll r [0] 0 [false] (resolve (programOf source)).program

/-- The program of a source with the variable renamed. -/
def program (r : Renaming) (source : String) : List RawStmt := Stmt.rawAll (r.marked source)

theorem OfLocal.alike (h : r.OfLocal source) (hsource : Accepted source) (hnew : r.NewTo source) :
    Stmt.AllAlike r.likeness [false] (resolve (programOf source)).program (r.marked source) := by
  apply Stmt.renameAll_alike (h.proper hsource hnew) _ (h.suits hsource hnew)
  intro htrue
  cases htrue

theorem apart (hr : r.Proper) : r.likeness.Apart (· ≠ r.new) where
  eq {l l' a b c} ha hc hab hcb := by cases l <;> cases l' <;> grind [likeness]
  receiver := hr.new.symm
  receiver_eq {l b} h := by
    have := hr.old
    cases l <;> grind [likeness]

/-- The renamed program has the variable in its scope, under the new name. -/
theorem OfLocal.finds_new (h : r.OfLocal source) : r.Finds r.new (r.marked source) := by
  obtain ⟨x, ⟨root, hroot, hwithin⟩, hpath, params, body, hopened, t, hold, ht⟩ := h
  obtain ⟨root', hroot', hbecomes⟩ :=
    Spot.exists_becomes (Spot.stmts_become [0] 0 [] [] [false] _) hroot
  obtain ⟨z, hz, hxz⟩ := Spot.within_becomes hbecomes hwithin
  obtain ⟨q, Γ, hbody⟩ := Spot.opened_becomes hxz hopened
  have hscope : r.isScope x.path r.number = true := by simp [isScope, hpath]
  rw [hscope] at hbody
  refine ⟨z, ⟨root', hroot', hz⟩, hxz.path.trans hpath, _, _, hbody, r.name true t, ?_, ?_⟩
  · simp [name, hold]
  · rcases ht with hparam | ⟨value, hvalue⟩
    · exact .inl (List.mem_map_of_mem hparam)
    · obtain ⟨p, hmem⟩ := Stmt.rename_mem (r := r) hvalue q 0 (true :: Γ)
      cases value with
      | none => exact .inr ⟨none, hmem⟩
      | some e => exact .inr ⟨_, hmem⟩

/-- A walk over the renamed program finds no fault. It marks the nodes as the walk over the program
did, and finds the variable under the new name. -/
structure Resolves (r : Renaming) (source : String) : Prop where
  accepted : (resolve (r.program source)).diagnostics = []
  distances : Stmt.mapAll Token.nameless id (resolve (r.program source)).program =
    Stmt.mapAll Token.nameless id (resolve (programOf source)).program
  references : (resolve (r.program source)).references.map (·.place) =
    (resolve (programOf source)).references.map (·.place)
  finds : r.Finds r.new (resolve (r.program source)).program

section
variable (h : r.OfLocal source) (hsource : Accepted source) (hnew : r.NewTo source)
include h hsource hnew

theorem OfLocal.copies : Copies r.likeness (· ≠ r.new) [] [false] .start .start
    (Stmt.resolveAll (programOf source)) (Stmt.resolveAll (r.program source)) (r.marked source) := by
  have hstart : Walk.Alike r.likeness (· ≠ r.new) [] [false] .start .start :=
    ⟨.global, rfl, rfl, rfl, rfl, rfl⟩
  exact Stmt.copiesAll (apart (h.proper hsource hnew)) (programOf source)
    (hsource.words hnew.absent) (h.alike hsource hnew) hstart

theorem OfLocal.marked_eq : (resolve (r.program source)).program = r.marked source :=
  (h.copies hsource hnew).result

theorem OfLocal.resolves : r.Resolves source := by
  have hwalk := (h.copies hsource hnew).walk
  constructor
  · have hfaults := hwalk.faults
    have hnone : (Stmt.resolveAll (programOf source) .start).2.faults = [] :=
      (faults_eq_nil_iff _).mpr hsource.resolved
    rw [hnone, List.map_nil, List.map_eq_nil_iff] at hfaults
    exact (faults_eq_nil_iff _).mp hfaults
  · rw [h.marked_eq hsource hnew]
    exact Stmt.nameless_renameAll _ _ _ _
  · have hreferences := hwalk.references
    rw [List.append_nil] at hreferences
    change (List.reverse (Stmt.resolveAll (r.program source) .start).2.references).map _ =
      (List.reverse (Stmt.resolveAll (programOf source) .start).2.references).map _
    rw [List.map_reverse, List.map_reverse]
    exact congrArg List.reverse hreferences
  · rw [h.marked_eq hsource hnew]
    exact h.finds_new

end

end Renaming
end LoxScript
