import LoxScript.Proofs.Accepted

/-!
Where the names of the scopes around a spot come from.

A name that is still to be defined belongs to a declaration whose initializer is around the spot. A
name that its scope declares and that is not yet there belongs to a later statement of that scope.
Both are carried from a spot to the spots directly inside it.
-/
namespace LoxScript

namespace Context

@[simp]
theorem length_set (Γ : Context) (name : String) (b : Bool) : (Γ.set name b).length = Γ.length := by
  cases Γ with
  | nil => rfl
  | cons l Γ => rfl

@[simp]
theorem length_declare (Γ : Context) (names : List String) :
    (Γ.declare names).length = Γ.length := by
  induction names generalizing Γ with
  | nil => rfl
  | cons name names ih => exact (ih _).trans (Γ.length_set name true)

@[simp]
theorem length_sealed (Γ : Context) : Γ.sealed.length = Γ.length := List.length_map _

end Context

namespace Spot

/-- Whether a node makes functions. -/
def isFunction (x : Spot) : Bool :=
  match x.node with
  | .expr (.function _ _ _) => true
  | .stmt (.functionDecl _ _ _) => true
  | .stmt (.classDecl _ _) => true
  | _ => false

/-- The initializer of a declared variable, and the name of the variable. -/
def initializer? (x : Spot) : Option (String × Spot) :=
  match x.node with
  | .stmt (.varDecl name (some value)) =>
    some (name.lexeme, ⟨0 :: x.path, x.context.set name.lexeme false, .expr value⟩)
  | _ => none

/-- A spot directly inside another one: a part in no scope of its own, the initializer of a
variable, or a statement of a body. -/
inductive Child (x : Spot) : Spot → Prop
  | part {y : Spot} (context : y.context = x.context)
      (free : ∀ s, x.node = .stmt s → s.declares = []) (quiet : y.declares? = none) : Child x y
  | initializer {name : String} {y : Spot} (declared : x.initializer? = some (name, y)) : Child x y
  | body {p : Path} {Γ : Context} {body : List ResolvedStmt} {k : Nat} {s : ResolvedStmt}
      (opened : (p, Γ, body) ∈ x.bodies) (stmt : body[k]? = some s) :
      Child x ⟨k :: p, Γ.declare (declared (body.take k)), .stmt s⟩

theorem mem_stmts {p : Path} {i : Nat} {Γ : Context} {ss : List ResolvedStmt} {x : Spot}
    (h : x ∈ stmts p i Γ ss) : ∃ k s, ss[k]? = some s ∧
      x = ⟨(i + k) :: p, Γ.declare (declared (ss.take k)), .stmt s⟩ := by
  induction ss generalizing i Γ with
  | nil => cases h
  | cons s ss ih =>
    rcases List.mem_cons.mp h with rfl | htail
    · exact ⟨0, s, rfl, rfl⟩
    · obtain ⟨k, s', hk, rfl⟩ := ih htail
      refine ⟨k + 1, s', by simpa using hk, ?_⟩
      have hdeclared : declared ((s :: ss).take (k + 1)) = s.declares ++ declared (ss.take k) := rfl
      rw [hdeclared, Context.declare_append, Nat.add_assoc, Nat.add_comm 1 k]

theorem mem_exprs {p : Path} {i : Nat} {Γ : Context} {es : List ResolvedExpr} {x : Spot}
    (h : x ∈ exprs p i Γ es) : x.context = Γ ∧ x.declares? = none := by
  induction es generalizing i with
  | nil => cases h
  | cons e es ih =>
    rcases List.mem_cons.mp h with rfl | htail
    · exact ⟨rfl, rfl⟩
    · exact ih htail

theorem mem_parts_expr {p : Path} {Γ : Context} {e : ResolvedExpr} {x : Spot}
    (h : x ∈ parts ⟨p, Γ, .expr e⟩) : x.context = Γ ∧ x.declares? = none := by
  cases e with
  | grouping inner | unary operator inner | assign name operator inner mark | get inner name =>
    obtain rfl := List.mem_singleton.mp h
    exact ⟨rfl, rfl⟩
  | binary left operator right | logical left operator right | set left name operator right =>
    rcases List.mem_cons.mp h with rfl | h
    · exact ⟨rfl, rfl⟩
    · obtain rfl := List.mem_singleton.mp h
      exact ⟨rfl, rfl⟩
  | call callee paren arguments =>
    rcases List.mem_cons.mp h with rfl | h
    · exact ⟨rfl, rfl⟩
    · exact mem_exprs h
  | _ => cases h

theorem declares?_eq_none {s : ResolvedStmt} (h : s.declares = []) (p : Path) (Γ : Context) :
    declares? ⟨p, Γ, .stmt s⟩ = none := by
  cases s with
  | varDecl name value => cases h
  | functionDecl name params body => cases h
  | classDecl name methods => cases h
  | _ => rfl

theorem mem_declares {s : ResolvedStmt} {p : Path} {Γ : Context} {name : String}
    (h : declares? ⟨p, Γ, .stmt s⟩ = some name) : s.declares = [name] := by
  cases s with
  | varDecl token value => cases h; rfl
  | functionDecl token params body => cases h; rfl
  | classDecl token methods => cases h; rfl
  | _ => cases h

theorem child_of_mem_parts {p : Path} {Γ : Context} {s : ResolvedStmt} {y : Spot}
    (hshape : (Node.stmt s).Shaped) (h : y ∈ parts ⟨p, Γ, .stmt s⟩) :
    Child ⟨p, Γ, .stmt s⟩ y := by
  cases s with
  | expression value | print value =>
    obtain rfl := List.mem_singleton.mp h
    exact .part rfl (fun s hs => by cases hs; rfl) rfl
  | varDecl name value =>
    cases value with
    | none => cases h
    | some value =>
      obtain rfl := List.mem_singleton.mp h
      exact .initializer rfl
  | returnFrom keyword value =>
    cases value with
    | none => cases h
    | some value =>
      obtain rfl := List.mem_singleton.mp h
      exact .part rfl (fun s hs => by cases hs; rfl) rfl
  | ifElse condition yes no =>
    obtain ⟨hyes, hno⟩ := hshape
    have hfree : ∀ s, Node.stmt (.ifElse condition yes no) = .stmt s → s.declares = [] := by
      intro s hs
      cases hs
      cases no with
      | none => exact hyes
      | some other => rw [Stmt.declares, hyes, hno other rfl]; rfl
    rcases List.mem_cons.mp h with rfl | h
    · exact .part rfl hfree rfl
    rcases List.mem_cons.mp h with rfl | h
    · exact .part rfl hfree (declares?_eq_none hyes _ _)
    · obtain ⟨other, hother, rfl⟩ := List.mem_map.mp h
      refine .part ?_ hfree (declares?_eq_none (hno other (Option.mem_toList.mp hother)) _ _)
      rw [hyes]
      rfl
  | loop condition body increment =>
    have hfree : ∀ s, Node.stmt (.loop condition body increment) = .stmt s → s.declares = [] := by
      intro s hs
      cases hs
      exact hshape
    rcases List.mem_cons.mp h with rfl | h
    · exact .part rfl hfree rfl
    rcases List.mem_cons.mp h with rfl | h
    · exact .part rfl hfree (declares?_eq_none hshape _ _)
    · obtain ⟨step, hstep, rfl⟩ := List.mem_map.mp h
      refine .part ?_ hfree rfl
      rw [show body.declares = [] from hshape]
      rfl
  | _ => cases h

/-- The spots inside a spot are its children in one of the three ways. -/
theorem child_of_mem {x y : Spot} (hshape : x.node.Shaped) (h : y ∈ x.children) : x.Child y := by
  rcases List.mem_append.mp h with hpart | hbody
  · obtain ⟨p, Γ, n⟩ := x
    cases n with
    | expr e =>
      obtain ⟨hcontext, hquiet⟩ := mem_parts_expr hpart
      exact .part hcontext (fun s hs => by cases hs) hquiet
    | stmt s => exact child_of_mem_parts hshape hpart
  · obtain ⟨⟨p, Γ, body⟩, hopened, hstmt⟩ := List.mem_flatMap.mp hbody
    obtain ⟨k, s, hs, rfl⟩ := mem_stmts hstmt
    rw [Nat.zero_add]
    exact .body hopened hs

/-- The context around the bodies that a node opens: its own, in which the name that it declares is
defined, and which is sealed if it makes functions. -/
def outer (x : Spot) : Context :=
  let Γ := match x.declares? with
    | none => x.context
    | some name => x.context.set name true
  if x.isFunction then Γ.sealed else Γ

/-- The context of a body: a scope for its parameters and what it declares, perhaps one whose
names are all there, and what is around the node. -/
structure Opens (x : Spot) (Γ : Context) (body : List ResolvedStmt) : Prop where
  layers : ∃ params l fixed, Γ = l :: (fixed ++ x.outer) ∧ l.active = true ∧
    l.site.names = params ++ declared body ∧ l.scope = definedNames params ∧
    ∀ e ∈ fixed, ∀ name, e.scope.get? name ≠ some false ∧
      (name ∈ e.site.names → e.scope.get? name = some true)

theorem get?_single {given name : String} :
    Bindings.get? [(given, true)] name ≠ some false ∧
      (name ∈ [given] → Bindings.get? [(given, true)] name = some true) := by
  simp only [Bindings.get?]
  split
  next h => exact ⟨by simp, fun _ => rfl⟩
  next h => exact ⟨by simp, fun hmem => absurd (List.mem_singleton.mp hmem).symm h⟩

theorem opens_of_mem {x : Spot} {p : Path} {Γ : Context} {body : List ResolvedStmt}
    (h : (p, Γ, body) ∈ x.bodies) : x.Opens Γ body := by
  obtain ⟨q, Δ, n⟩ := x
  cases n with
  | expr e =>
    cases e with
    | function name params statements =>
      simp only [bodies, List.mem_singleton, Prod.mk.injEq] at h
      obtain ⟨rfl, rfl, rfl⟩ := h
      cases name with
      | none => exact ⟨_, .body p (params.map (·.lexeme)) body, [], rfl, rfl, rfl, rfl,
          List.forall_mem_nil _⟩
      | some name =>
        refine ⟨_, .body p (params.map (·.lexeme)) body, [.literalName p name.lexeme], rfl, rfl, rfl,
          rfl, ?_⟩
        exact List.forall_mem_singleton.mpr fun other => get?_single
    | _ => cases h
  | stmt s =>
    cases s with
    | block statements =>
      simp only [bodies, List.mem_singleton, Prod.mk.injEq] at h
      obtain ⟨rfl, rfl, rfl⟩ := h
      exact ⟨[], .block p body, [], rfl, rfl, rfl, rfl, List.forall_mem_nil _⟩
    | functionDecl name params statements =>
      simp only [bodies, List.mem_singleton, Prod.mk.injEq] at h
      obtain ⟨rfl, rfl, rfl⟩ := h
      exact ⟨_, .body p (params.map (·.lexeme)) body, [], rfl, rfl, rfl, rfl,
        List.forall_mem_nil _⟩
    | classDecl name methods =>
      simp only [bodies] at h
      obtain ⟨i, hi, hbody⟩ := List.mem_mapIdx.mp h
      simp only [Prod.mk.injEq] at hbody
      obtain ⟨rfl, rfl, rfl⟩ := hbody
      refine ⟨_, .body (i :: q) (methods[i].params.map (·.lexeme)) methods[i].body,
        [.receiver (i :: q)], rfl, rfl, rfl, rfl, ?_⟩
      exact List.forall_mem_singleton.mpr fun other => get?_single
    | _ => cases h

theorem context_initializer {x y : Spot} {name : String} (h : x.initializer? = some (name, y)) :
    y.context = x.context.set name false := by
  unfold initializer? at h
  split at h
  · cases h
    rfl
  · cases h

/-- What holds of the statements of a program, and of each child of a spot of which it holds, holds
of all spots of the program. -/
theorem In.induction {number : Nat} {source : String} (hsource : Accepted source)
    {P : Spot → Prop} (hroot : ∀ x, x.In number source → x.context = [] → P x)
    (hchild : ∀ x y, x.In number source → y ∈ x.children → x.Child y → P x → P y) {x : Spot}
    (hx : x.In number source) : P x := by
  obtain ⟨root, hmem, hwithin⟩ := hx
  induction hwithin with
  | refl =>
    obtain ⟨k, s, -, rfl⟩ := mem_stmts hmem
    exact hroot _ ⟨_, hmem, .refl⟩ (Context.declare_nil _)
  | @tail x y hx hy ih =>
    have hin : x.In number source := ⟨root, hmem, hx⟩
    exact hchild x y hin hy (child_of_mem (hsource.shaped hin) hy) ih

end Spot

namespace Context

theorem getElem?_set (Γ : Context) (name : String) (b : Bool) (i : Nat) :
    (Γ.set name b)[i]? =
      Γ[i]?.map fun l => if i = 0 then { l with scope := l.scope.set name b } else l := by
  cases Γ with
  | nil => rfl
  | cons l Γ =>
    cases i with
    | zero => rfl
    | succ i => simp [set]

theorem getElem?_declare (Γ : Context) (names : List String) (i : Nat) :
    (Γ.declare names)[i]? = Γ[i]?.map fun l =>
      if i = 0 then { l with scope := names.foldl (fun b n => b.set n true) l.scope } else l := by
  cases Γ with
  | nil =>
    rw [declare_nil]
    rfl
  | cons l Γ =>
    rw [declare_cons]
    cases i with
    | zero => rfl
    | succ i => simp

theorem getElem?_sealed (Γ : Context) (i : Nat) : Γ.sealed[i]? = Γ[i]?.map (·.sealed) :=
  List.getElem?_map

end Context

/-- A layer as it is seen from a body inside it. -/
structure Layer.Around (l e : Layer) : Prop where
  site : e.site = l.site
  kept : ∀ name, l.scope.has name → e.scope.has name
  pending : ∀ name, e.scope.get? name = some false → l.scope.get? name = some false

theorem Layer.Around.refl (l : Layer) : l.Around l := ⟨rfl, fun _ h => h, fun _ h => h⟩

theorem Layer.Around.sealed {l e : Layer} (h : l.Around e) : l.Around e.sealed :=
  ⟨h.site, h.kept, h.pending⟩

theorem Layer.Around.defined (l : Layer) (name : String) :
    l.Around { l with scope := l.scope.set name true } := by
  refine ⟨rfl, fun other h => ?_, fun other h => ?_⟩
  · rw [Bindings.has_set]
    exact .inr h
  · rw [Bindings.get?_set] at h
    split at h
    · cases h
    · exact h

namespace Spot

theorem around_defined {x : Spot} {i : Nat} {e : Layer} (h : (match x.declares? with
      | none => x.context
      | some name => x.context.set name true)[i]? = some e) :
    ∃ l, x.context[i]? = some l ∧ l.Around e ∧ e.active = l.active ∧
      (i = 0 → ∀ name, x.declares? = some name → e.scope.has name) := by
  cases hdeclares : x.declares? with
  | none =>
    rw [hdeclares] at h
    exact ⟨e, h, .refl e, rfl, fun _ name hname => by cases hname⟩
  | some name =>
    rw [hdeclares] at h
    simp only [Context.getElem?_set, Option.map_eq_some_iff] at h
    obtain ⟨l, hl, rfl⟩ := h
    refine ⟨l, hl, ?_, ?_, fun hi other hother => ?_⟩
    · split
      · exact .defined l name
      · exact .refl l
    · split <;> rfl
    · cases hother
      rw [if_pos hi, Bindings.has_set]
      exact .inl rfl

/-- The layers around a body are those around its node. -/
theorem around_outer {x : Spot} {i : Nat} {e : Layer} (h : x.outer[i]? = some e) :
    ∃ l, x.context[i]? = some l ∧ l.Around e ∧ (l.active → e.active ∨ x.isFunction) ∧
      (i = 0 → ∀ name, x.declares? = some name → e.scope.has name) := by
  simp only [outer] at h
  by_cases hfunction : x.isFunction
  · rw [if_pos hfunction, Context.getElem?_sealed, Option.map_eq_some_iff] at h
    obtain ⟨e', he', rfl⟩ := h
    obtain ⟨l, hl, haround, -, hdefined⟩ := around_defined he'
    exact ⟨l, hl, haround.sealed, fun _ => .inr hfunction, hdefined⟩
  · rw [if_neg hfunction] at h
    obtain ⟨l, hl, haround, hactive, hdefined⟩ := around_defined h
    exact ⟨l, hl, haround, fun h => .inl (hactive ▸ h), hdefined⟩

theorem length_outer (x : Spot) : x.outer.length = x.context.length := by
  simp only [outer]
  cases x.declares? <;> split <;> simp

/-- The layers around a statement of a body: the one of the body, those whose names are all there,
and those around the node of the body. -/
theorem layers_of_body {x : Spot} {p : Path} {Γ : Context} {body : List ResolvedStmt}
    (h : (p, Γ, body) ∈ x.bodies) (names : List String) {i : Nat} {e : Layer}
    (he : (Γ.declare names)[i]? = some e) :
    (i = 0 ∧ e.active ∧ ∃ params, e.site.names = params ++ declared body ∧
      ∀ name, e.scope.get? name = if name ∈ names ++ params then some true else none) ∨
    (∀ name, e.scope.get? name ≠ some false ∧
      (name ∈ e.site.names → e.scope.get? name = some true)) ∨
    (∃ j, i + x.context.length = j + Γ.length ∧ x.outer[j]? = some e) := by
  obtain ⟨params, l, fixed, rfl, hactive, hsite, hscope, hfixed⟩ := (opens_of_mem h).layers
  rw [Context.getElem?_declare] at he
  cases i with
  | zero =>
    obtain rfl : { l with scope := names.foldl (fun b n => b.set n true) l.scope } = e := by
      simpa using he
    refine .inl ⟨rfl, hactive, params, hsite, fun name => ?_⟩
    simp only [hscope, definedNames, get?_defineAll, Bindings.get?, List.mem_append]
    by_cases hn : name ∈ names <;> by_cases hp : name ∈ params <;> simp [hn, hp]
  | succ i =>
    have he : (fixed ++ x.outer)[i]? = some e := by simpa using he
    rcases Nat.lt_or_ge i fixed.length with hlt | hge
    · rw [List.getElem?_append_left hlt] at he
      exact .inr (.inl (hfixed e (List.mem_of_getElem? he)))
    · rw [List.getElem?_append_right hge] at he
      refine .inr (.inr ⟨i - fixed.length, ?_, he⟩)
      rw [List.length_cons, List.length_append, length_outer]
      omega

/-- A spot is inside the initializer of a variable that a scope declares. -/
def Initializes (number : Nat) (source : String) (site : Site) (name : String) (x : Spot) : Prop :=
  ∃ z start : Spot, ∃ l : Layer, z.In number source ∧ z.initializer? = some (name, start) ∧
    z.context.head? = some l ∧ l.site = site ∧ start.Within x

theorem Initializes.child {number : Nat} {source : String} {site : Site} {name : String} {x y : Spot}
    (h : x.Initializes number source site name) (hy : y ∈ x.children) :
    y.Initializes number source site name := by
  obtain ⟨z, start, l, hz, hstart, hl, hsite, hwithin⟩ := h
  exact ⟨z, start, l, hz, hstart, hl, hsite, hwithin.tail hy⟩

/-- The names that are still to be defined around a spot are those of the variables whose
initializers are around it. -/
def Pending (number : Nat) (source : String) (x : Spot) : Prop :=
  ∀ (i : Nat) (l : Layer), x.context[i]? = some l → ∀ name, l.scope.get? name = some false →
    x.Initializes number source l.site name

theorem Pending.child {number : Nat} {source : String} {x y : Spot} (hx : x.In number source)
    (hy : y ∈ x.children) (hchild : x.Child y) (h : x.Pending number source) :
    y.Pending number source := by
  intro i e he name hpending
  cases hchild with
  | part context free quiet =>
    rw [context] at he
    exact (h i e he name hpending).child hy
  | @initializer declared _ hdeclared =>
    rw [context_initializer hdeclared, Context.getElem?_set, Option.map_eq_some_iff] at he
    obtain ⟨l, hl, rfl⟩ := he
    by_cases hi : i = 0
    · subst hi
      simp only [if_true] at hpending ⊢
      by_cases hname : name = declared
      · subst hname
        exact ⟨x, y, l, hx, hdeclared, by rwa [List.head?_eq_getElem?], rfl, .refl⟩
      · rw [Bindings.get?_set_of_ne _ _ hname] at hpending
        exact (h 0 l hl name hpending).child hy
    · simp only [hi, if_false] at hpending ⊢
      exact (h i l hl name hpending).child hy
  | body opened stmt =>
    rcases layers_of_body opened _ he with ⟨-, -, params, -, hscope⟩ | hfixed | ⟨j, -, hj⟩
    · rw [hscope] at hpending
      split at hpending <;> cases hpending
    · exact absurd hpending (hfixed name).1
    · obtain ⟨l, hl, haround, -⟩ := around_outer hj
      rw [haround.site]
      exact (h j l hl name (haround.pending name hpending)).child hy

theorem In.pending {number : Nat} {source : String} (hsource : Accepted source) {x : Spot}
    (hx : x.In number source) : x.Pending number source := by
  refine hx.induction hsource (fun x _ hcontext => ?_) fun x y hx hy hchild h => h.child hx hy hchild
  intro i l hl
  rw [hcontext] at hl
  cases hl

/-- A statement of a body, behind the declarations of those before it. -/
def statement (p : Path) (Γ : Context) (body : List ResolvedStmt) (k : Nat) (s : ResolvedStmt) :
    Spot := ⟨k :: p, Γ.declare (declared (body.take k)), .stmt s⟩

/-- A spot stands inside a function that stands inside another spot. -/
def InFunction (x y : Spot) : Prop :=
  ∃ f w : Spot, x.Within f ∧ f.isFunction ∧ w ∈ f.children ∧ w.Within y

/-- A later statement than the one in which a spot stands declares a name, in the scope at
a distance. -/
inductive Behind (number : Nat) (source : String) (x : Spot) (i : Nat) (l : Layer) (name : String) :
    Prop
  | intro {z : Spot} {p : Path} {Γ : Context} {body : List ResolvedStmt} {k j : Nat}
      {s later : ResolvedStmt} (scope : z.In number source) (opened : (p, Γ, body) ∈ z.bodies)
      (stmt : body[k]? = some s) (inside : (statement p Γ body k s).Within x)
      (order : k < j) (other : body[j]? = some later) (declares : name ∈ later.declares)
      (depth : i + Γ.length = x.context.length)
      (function : l.active ∨ (statement p Γ body k s).InFunction x)

theorem Behind.child {number : Nat} {source : String} {x y : Spot} {i j : Nat} {l e : Layer}
    {name : String} (h : x.Behind number source i l name) (hy : y ∈ x.children)
    (hdepth : i + y.context.length = j + x.context.length)
    (hactive : l.active → e.active ∨ x.isFunction) : y.Behind number source j e name := by
  cases h with
  | intro scope opened stmt inside order other declares depth function =>
    refine .intro scope opened stmt (inside.tail hy) order other declares (by omega) ?_
    rcases function with hl | ⟨f, w, hf, hfunction, hw, hx⟩
    · rcases hactive hl with he | hx
      · exact .inl he
      · exact .inr ⟨x, y, inside, hx, hy, .refl⟩
    · exact .inr ⟨f, w, hf, hfunction, hw, hx.tail hy⟩

/-- The names of the scopes around a spot are there already, or are declared by the node of the
spot or behind it. -/
def Foreseen (number : Nat) (source : String) (x : Spot) : Prop :=
  ∀ (i : Nat) (l : Layer), x.context[i]? = some l → ∀ name ∈ l.site.names, l.scope.has name ∨
    (i = 0 ∧ l.active ∧ ∃ s, x.node = .stmt s ∧ name ∈ s.declares) ∨
      x.Behind number source i l name

theorem declares?_of_opened {x : Spot} {b : Path × Context × List ResolvedStmt} {s : ResolvedStmt}
    {name : String} (hb : b ∈ x.bodies) (hs : x.node = .stmt s) (hname : name ∈ s.declares) :
    x.declares? = some name := by
  obtain ⟨p, Γ, n⟩ := x
  cases hs
  cases s with
  | functionDecl token params body =>
    rw [List.mem_singleton.mp hname]
    rfl
  | classDecl token methods =>
    rw [List.mem_singleton.mp hname]
    rfl
  | block body => cases hname
  | _ => cases hb

theorem initializer_declares {x y : Spot} {name other : String} {s : ResolvedStmt}
    (h : x.initializer? = some (name, y)) (hs : x.node = .stmt s) (hother : other ∈ s.declares) :
    other = name := by
  unfold initializer? at h
  split at h
  next hnode =>
    cases h
    cases hs.symm.trans hnode
    exact List.mem_singleton.mp hother
  next => cases h

theorem mem_declared_take {body : List ResolvedStmt} {j k : Nat} {s : ResolvedStmt} {name : String}
    (hj : body[j]? = some s) (hlt : j < k) (hname : name ∈ s.declares) :
    name ∈ declared (body.take k) := by
  refine List.mem_flatMap.mpr ⟨s, List.mem_of_getElem? (i := j) ?_, hname⟩
  rwa [List.getElem?_take_of_lt hlt]

section Foreseen
variable {number : Nat} {source : String} {x y : Spot}

theorem Foreseen.part (hy : y ∈ x.children) (context : y.context = x.context)
    (free : ∀ s, x.node = .stmt s → s.declares = []) (h : x.Foreseen number source) :
    y.Foreseen number source := by
  intro i e he name hname
  rw [context] at he
  rcases h i e he name hname with hhas | ⟨-, -, s, hs, hdeclares⟩ | hbehind
  · exact .inl hhas
  · rw [free s hs] at hdeclares
    cases hdeclares
  · exact .inr (.inr (hbehind.child hy (by rw [context]) .inl))

/-- The name of a variable is in its scope already where the initializer is read. -/
theorem Foreseen.initializer {given : String} (hy : y ∈ x.children)
    (hvariable : x.initializer? = some (given, y)) (h : x.Foreseen number source) :
    y.Foreseen number source := by
  intro i e he name hname
  have hcontext := context_initializer hvariable
  rw [hcontext, Context.getElem?_set, Option.map_eq_some_iff] at he
  obtain ⟨l, hl, rfl⟩ := he
  have hsite : name ∈ l.site.names := by
    split at hname <;> exact hname
  rcases h i l hl name hsite with hhas | ⟨hi, -, s, hs, hdeclares⟩ | hbehind
  · refine .inl ?_
    split
    · rw [Bindings.has_set]
      exact .inr hhas
    · exact hhas
  · refine .inl ?_
    rw [if_pos hi, Bindings.has_set]
    exact .inl (initializer_declares hvariable hs hdeclares)
  · refine .inr (.inr (hbehind.child hy (by rw [hcontext, Context.length_set]) fun hl => .inl ?_))
    split <;> exact hl

section Body
variable {p : Path} {Γ : Context} {stmts : List ResolvedStmt} {k : Nat} {s : ResolvedStmt}

/-- A name of the innermost scope is declared before the statement, by it, or behind it. -/
theorem foreseen_innermost (hx : x.In number source) (opened : (p, Γ, stmts) ∈ x.bodies)
    (stmt : stmts[k]? = some s) {e : Layer} (hactive : e.active) {name : String}
    (hhas : name ∈ declared (stmts.take k) → e.scope.has name) (hname : name ∈ declared stmts) :
    e.scope.has name ∨ (e.active ∧ name ∈ s.declares) ∨
      (statement p Γ stmts k s).Behind number source 0 e name := by
  obtain ⟨s', hs', hdeclares⟩ := List.mem_flatMap.mp hname
  obtain ⟨j, hj⟩ := List.mem_iff_getElem?.mp hs'
  rcases Nat.lt_trichotomy j k with hlt | rfl | hgt
  · exact .inl (hhas (mem_declared_take hj hlt hdeclares))
  · cases stmt.symm.trans hj
    exact .inr (.inl ⟨hactive, hdeclares⟩)
  · have hlength : (Γ.declare (declared (stmts.take k))).length = Γ.length :=
      Context.length_declare _ _
    exact .inr (.inr (.intro hx opened stmt .refl hgt hj hdeclares
      ((Nat.zero_add _).trans hlength.symm) (.inl hactive)))

theorem Foreseen.body (hx : x.In number source) (hy : statement p Γ stmts k s ∈ x.children)
    (opened : (p, Γ, stmts) ∈ x.bodies) (stmt : stmts[k]? = some s) (h : x.Foreseen number source) :
    (statement p Γ stmts k s).Foreseen number source := by
  intro i e he name hname
  rcases layers_of_body opened _ he with ⟨rfl, hactive, params, hsite, hscope⟩ | hfixed |
    ⟨j, hdepth, hj⟩
  · have hhas (hmem : name ∈ declared (stmts.take k) ++ params) : e.scope.has name :=
      (Bindings.has_iff _ _).mpr ⟨true, (hscope name).trans (if_pos hmem)⟩
    rw [hsite] at hname
    rcases List.mem_append.mp hname with hparam | hdeclared
    · exact .inl (hhas (List.mem_append_right _ hparam))
    · rcases foreseen_innermost hx opened stmt hactive
        (fun hmem => hhas (List.mem_append_left _ hmem)) hdeclared with hthere | ⟨he, hs⟩ | hbehind
      · exact .inl hthere
      · exact .inr (.inl ⟨rfl, he, s, rfl, hs⟩)
      · exact .inr (.inr hbehind)
  · exact .inl ((Bindings.has_iff _ _).mpr ⟨true, (hfixed name).2 hname⟩)
  -- An outer scope: what was declared by the node that opens the body has been defined by now.
  · obtain ⟨l, hl, haround, hactive, hdefined⟩ := around_outer hj
    rw [haround.site] at hname
    rcases h j l hl name hname with hhas | ⟨hi, -, s', hs', hdeclares⟩ | hbehind
    · exact .inl (haround.kept name hhas)
    · exact .inl (hdefined hi name (declares?_of_opened opened hs' hdeclares))
    · refine .inr (.inr (hbehind.child hy ?_ hactive))
      rw [statement, Context.length_declare]
      omega

end Body

theorem Foreseen.child (hx : x.In number source) (hy : y ∈ x.children) (hchild : x.Child y)
    (h : x.Foreseen number source) : y.Foreseen number source := by
  cases hchild with
  | part context free quiet => exact h.part hy context free
  | initializer hvariable => exact h.initializer hy hvariable
  | body opened stmt => exact h.body hx hy opened stmt

end Foreseen

theorem In.foreseen {number : Nat} {source : String} (hsource : Accepted source) {x : Spot}
    (hx : x.In number source) : x.Foreseen number source := by
  refine hx.induction hsource (fun x _ hcontext => ?_) fun x y hx hy hchild h => h.child hx hy hchild
  intro i l hl
  rw [hcontext] at hl
  cases hl

/-- A declared name belongs to the innermost scope, from which no function is between. -/
theorem In.declaring {number : Nat} {source : String} (hsource : Accepted source) {x : Spot}
    (hx : x.In number source) {name : String} (hname : x.declares? = some name) {l : Layer}
    (hl : x.context.head? = some l) : l.active ∧ name ∈ l.site.names := by
  revert hname hl
  refine hx.induction hsource (P := fun x => x.declares? = some name → x.context.head? = some l →
    l.active ∧ name ∈ l.site.names) (fun x _ hcontext _ hl => ?_) fun x y _ _ hchild _ hname hl => ?_
  · rw [hcontext] at hl
    cases hl
  · cases hchild with
    | part context free quiet =>
      rw [quiet] at hname
      cases hname
    | initializer hvariable =>
      unfold initializer? at hvariable
      split at hvariable
      next =>
        cases hvariable
        cases hname
      next => cases hvariable
    | @body p Γ body k s opened stmt =>
      rw [List.head?_eq_getElem?] at hl
      obtain ⟨params, m, fixed, rfl, hactive, hsite, -⟩ := (opens_of_mem opened).layers
      rw [Context.declare_cons] at hl
      cases hl
      refine ⟨hactive, ?_⟩
      have hmem : name ∈ declared body :=
        List.mem_flatMap.mpr ⟨s, List.mem_of_getElem? stmt, by rw [mem_declares hname]; simp⟩
      rw [hsite]
      exact List.mem_append_right _ hmem

end Spot
end LoxScript
