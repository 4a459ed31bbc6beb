import Mathlib.Data.List.Forall2
import LoxScript.Proofs.Frames
import LoxScript.Proofs.Operations

/-!
Programs that differ in their words and not in what they do.

Frames have labels. Two programs are alike if they have the same trees with the same distances, the
tokens at which faults are placed correspond, and where one says a name, the other says the name
that corresponds to it under the label of the frame in which it is looked up. Two machines are
alike if they are at the same point of such programs: they have the same frames under the names
that correspond, and have printed the same.
-/
namespace LoxScript

/-- How the words of two programs correspond. What `fits` is to hold of the bodies of functions,
together with whether they are those of initializers. -/
structure Likeness where
  Label : Type
  /-- The label of frames in which all names correspond to themselves. -/
  plain : Label
  names : Label → String → String → Prop
  tokens : Token → Token → Prop
  fits : Bool → List ResolvedStmt → List ResolvedStmt → Prop
  names_plain : ∀ a b, names plain a b ↔ a = b
  names_unique : ∀ {l a b c d}, names l a b → names l c d → (a = c ↔ b = d)
  kind_eq : ∀ {t u}, tokens t u → u.kind = t.kind
  lexeme_eq : ∀ {t u}, tokens t u → u.lexeme = t.lexeme

namespace Likeness

/-! Where names and tokens are kept. -/

theorem kept_names (a b : String) : Eq a b ↔ a = b := .rfl

theorem kept_kind {t u : Token} (h : t = u) : u.kind = t.kind := by rw [h]

theorem kept_lexeme {t u : Token} (h : t = u) : u.lexeme = t.lexeme := by rw [h]

variable (L : Likeness)

/-- Tokens of references with a distance, where the frames around have labels. -/
def Refers (Γ : List L.Label) (distance : Option Nat) (t u : Token) : Prop :=
  match distance with
  | none => L.tokens t u
  | some d => ∀ l, Γ[d]? = some l → L.names l t.lexeme u.lexeme

def Declares (Γ : List L.Label) (t u : Token) : Prop :=
  ∀ l, Γ.head? = some l → L.names l t.lexeme u.lexeme

def Params (l : L.Label) : List Token → List Token → Prop :=
  List.Forall₂ fun t u => L.names l t.lexeme u.lexeme

end Likeness

mutual

inductive Expr.Alike (L : Likeness) : List L.Label → ResolvedExpr → ResolvedExpr → Prop
  | literal {Γ value} : Expr.Alike L Γ (.literal value) (.literal value)
  | grouping {Γ e e'} (inner : Expr.Alike L Γ e e') : Expr.Alike L Γ (.grouping e) (.grouping e')
  | unary {Γ t u e e'} (operator : L.tokens t u) (right : Expr.Alike L Γ e e') :
      Expr.Alike L Γ (.unary t e) (.unary u e')
  | binary {Γ a a' t u b b'} (left : Expr.Alike L Γ a a') (operator : L.tokens t u)
      (right : Expr.Alike L Γ b b') : Expr.Alike L Γ (.binary a t b) (.binary a' u b')
  | logical {Γ a a' t u b b'} (left : Expr.Alike L Γ a a') (operator : L.tokens t u)
      (right : Expr.Alike L Γ b b') : Expr.Alike L Γ (.logical a t b) (.logical a' u b')
  | «variable» {Γ t u d} (name : L.Refers Γ d t u) : Expr.Alike L Γ (.variable t d) (.variable u d)
  | assign {Γ t u d e e'} (name : L.Refers Γ d t u) (value : Expr.Alike L Γ e e') :
      Expr.Alike L Γ (.assign t none e d) (.assign u none e' d)
  | compound {Γ t u d s s' e e'} (name : L.Refers Γ d t u) (sign : L.tokens s s')
      (value : Expr.Alike L Γ e e') : Expr.Alike L Γ (.assign t (some s) e d) (.assign u (some s') e' d)
  | call {Γ f f' t u es es'} (callee : Expr.Alike L Γ f f') (paren : L.tokens t u)
      (arguments : Expr.AllAlike L Γ es es') : Expr.Alike L Γ (.call f t es) (.call f' u es')
  | get {Γ o o' t u} (object : Expr.Alike L Γ o o') (name : L.tokens t u) :
      Expr.Alike L Γ (.get o t) (.get o' u)
  | set {Γ o o' t u e e'} (object : Expr.Alike L Γ o o') (name : L.tokens t u)
      (value : Expr.Alike L Γ e e') : Expr.Alike L Γ (.set o t none e) (.set o' u none e')
  | compoundSet {Γ o o' t u s s' e e'} (object : Expr.Alike L Γ o o') (name : L.tokens t u)
      (sign : L.tokens s s') (value : Expr.Alike L Γ e e') :
      Expr.Alike L Γ (.set o t (some s) e) (.set o' u (some s') e')
  | this {Γ t u d} (keyword : L.Refers Γ d t u) : Expr.Alike L Γ (.this t d) (.this u d)
  | function {Γ l ts us b b'} (params : L.Params l ts us) (fits : L.fits false b b')
      (body : Stmt.AllAlike L (l :: Γ) b b') :
      Expr.Alike L Γ (.function none ts b) (.function none us b')
  | namedFunction {Γ l t u ts us b b'} (name : u.lexeme = t.lexeme) (params : L.Params l ts us)
      (fits : L.fits false b b') (body : Stmt.AllAlike L (l :: L.plain :: Γ) b b') :
      Expr.Alike L Γ (.function (some t) ts b) (.function (some u) us b')

inductive Expr.AllAlike (L : Likeness) : List L.Label → List ResolvedExpr → List ResolvedExpr → Prop
  | nil {Γ} : Expr.AllAlike L Γ [] []
  | cons {Γ e e' es es'} (head : Expr.Alike L Γ e e') (tail : Expr.AllAlike L Γ es es') :
      Expr.AllAlike L Γ (e :: es) (e' :: es')

inductive Stmt.Alike (L : Likeness) : List L.Label → ResolvedStmt → ResolvedStmt → Prop
  | expression {Γ e e'} (value : Expr.Alike L Γ e e') : Stmt.Alike L Γ (.expression e) (.expression e')
  | print {Γ e e'} (value : Expr.Alike L Γ e e') : Stmt.Alike L Γ (.print e) (.print e')
  | varDecl {Γ t u} (name : L.Declares Γ t u) : Stmt.Alike L Γ (.varDecl t none) (.varDecl u none)
  | varDeclWith {Γ t u e e'} (name : L.Declares Γ t u) (value : Expr.Alike L Γ e e') :
      Stmt.Alike L Γ (.varDecl t (some e)) (.varDecl u (some e'))
  | block {Γ l b b'} (body : Stmt.AllAlike L (l :: Γ) b b') : Stmt.Alike L Γ (.block b) (.block b')
  | ifElse {Γ c c' y y'} (condition : Expr.Alike L Γ c c') (yes : Stmt.Alike L Γ y y') :
      Stmt.Alike L Γ (.ifElse c y none) (.ifElse c' y' none)
  | ifElseBoth {Γ c c' y y' n n'} (condition : Expr.Alike L Γ c c') (yes : Stmt.Alike L Γ y y')
      (no : Stmt.Alike L Γ n n') : Stmt.Alike L Γ (.ifElse c y (some n)) (.ifElse c' y' (some n'))
  | loop {Γ c c' b b'} (condition : Expr.Alike L Γ c c') (body : Stmt.Alike L Γ b b') :
      Stmt.Alike L Γ (.loop c b none) (.loop c' b' none)
  | loopWith {Γ c c' b b' n n'} (condition : Expr.Alike L Γ c c') (body : Stmt.Alike L Γ b b')
      (increment : Expr.Alike L Γ n n') : Stmt.Alike L Γ (.loop c b (some n)) (.loop c' b' (some n'))
  | breakLoop {Γ t u} : Stmt.Alike L Γ (.breakLoop t) (.breakLoop u)
  | continueLoop {Γ t u} : Stmt.Alike L Γ (.continueLoop t) (.continueLoop u)
  | returnNothing {Γ t u} : Stmt.Alike L Γ (.returnFrom t none) (.returnFrom u none)
  | returnValue {Γ t u e e'} (value : Expr.Alike L Γ e e') :
      Stmt.Alike L Γ (.returnFrom t (some e)) (.returnFrom u (some e'))
  | functionDecl {Γ l t u ts us b b'} (name : L.Declares Γ t u) (shown : u.lexeme = t.lexeme)
      (params : L.Params l ts us) (fits : L.fits false b b')
      (body : Stmt.AllAlike L (l :: Γ) b b') :
      Stmt.Alike L Γ (.functionDecl t ts b) (.functionDecl u us b')
  | classDecl {Γ t u ms ms'} (name : L.Declares Γ t u) (shown : u.lexeme = t.lexeme)
      (methods : Method.AllAlike L Γ ms ms') : Stmt.Alike L Γ (.classDecl t ms) (.classDecl u ms')

inductive Stmt.AllAlike (L : Likeness) : List L.Label → List ResolvedStmt → List ResolvedStmt → Prop
  | nil {Γ} : Stmt.AllAlike L Γ [] []
  | cons {Γ s s' ss ss'} (head : Stmt.Alike L Γ s s') (tail : Stmt.AllAlike L Γ ss ss') :
      Stmt.AllAlike L Γ (s :: ss) (s' :: ss')

/-- Methods of classes that stand where the frames around have labels. Between such a frame and
that of the parameters is the one of the receiver. -/
inductive Method.AllAlike (L : Likeness) :
    List L.Label → List ResolvedMethod → List ResolvedMethod → Prop
  | nil {Γ} : Method.AllAlike L Γ [] []
  | cons {Γ l t u ts us b b' ms ms'} (name : u.lexeme = t.lexeme) (params : L.Params l ts us)
      (fits : L.fits (t.lexeme = initializerName) b b')
      (body : Stmt.AllAlike L (l :: L.plain :: Γ) b b') (tail : Method.AllAlike L Γ ms ms') :
      Method.AllAlike L Γ (.mk t ts b :: ms) (.mk u us b' :: ms')

end

/-- Bindings of corresponding names to related things, in one order. -/
def Bindings.Alike {α β : Type} (names : String → String → Prop) (related : α → β → Prop) :
    Bindings α → Bindings β → Prop :=
  List.Forall₂ fun x y => names x.1 y.1 ∧ related x.2 y.2

namespace Bindings.Alike
variable {α β : Type} {names : String → String → Prop} {related : α → β → Prop}
  {x : Bindings α} {y : Bindings β} {a b : String}

theorem get? (unique : ∀ {a b c d}, names a b → names c d → (a = c ↔ b = d)) (hn : names a b)
    (h : Alike names related x y) : Option.Rel related (x.get? a) (y.get? b) := by
  induction h with
  | nil => exact .none
  | @cons p q x y hpq _ ih =>
    obtain ⟨k, v⟩ := p
    obtain ⟨k', v'⟩ := q
    by_cases hk : k = a
    · have hk' : k' = b := (unique hpq.1 hn).mp hk
      rw [Bindings.get?, Bindings.get?, if_pos hk, if_pos hk']
      exact .some hpq.2
    · have hk' : k' ≠ b := fun h => hk ((unique hpq.1 hn).mpr h)
      rw [Bindings.get?, Bindings.get?, if_neg hk, if_neg hk']
      exact ih

theorem has (unique : ∀ {a b c d}, names a b → names c d → (a = c ↔ b = d)) (hn : names a b)
    (h : Alike names related x y) : y.has b = x.has a := by
  have hget := h.get? unique hn
  simp only [Bindings.has]
  generalize x.get? a = found at hget
  generalize y.get? b = other at hget
  cases hget <;> rfl

theorem set (unique : ∀ {a b c d}, names a b → names c d → (a = c ↔ b = d)) (hn : names a b)
    {v : α} {w : β} (hv : related v w) (h : Alike names related x y) :
    Alike names related (x.set a v) (y.set b w) := by
  induction h with
  | nil => exact .cons ⟨hn, hv⟩ .nil
  | @cons p q x y hpq hxy ih =>
    obtain ⟨k, v⟩ := p
    obtain ⟨k', v'⟩ := q
    by_cases hk : k = a
    · have hk' : k' = b := (unique hpq.1 hn).mp hk
      rw [Bindings.set, Bindings.set, if_pos hk, if_pos hk']
      exact .cons ⟨hn, hv⟩ hxy
    · have hk' : k' ≠ b := fun h => hk ((unique hpq.1 hn).mpr h)
      rw [Bindings.set, Bindings.set, if_neg hk, if_neg hk']
      exact .cons hpq ih

theorem mono {other : α → β → Prop} (h : Alike names related x y)
    (hr : ∀ v w, related v w → other v w) : Alike names other x y :=
  h.imp fun _ _ hpq => ⟨hpq.1, hr _ _ hpq.2⟩

theorem eq {x y : Bindings α} {related : α → α → Prop} (h : Alike Eq related x y)
    (hr : ∀ v v', related v v' → v' = v) : y = x := by
  induction h with
  | nil => rfl
  | cons hhead _ ih => rw [ih, Prod.ext hhead.1 (hr _ _ hhead.2).symm]

end Bindings.Alike

/-- Two machines, and the labels of their frames. -/
structure Pairing (L : Likeness) where
  left : Machine
  right : Machine
  label : Address → L.Label

namespace Pairing
variable {L : Likeness}

def size (w : Pairing L) : Nat := w.left.store.frames.size

/-- The frames of a chain have labels, whatever labels the frames get that are still to be made. -/
def Labels (w : Pairing L) (chain : List Address) (Γ : List L.Label) : Prop :=
  ∀ label : Address → L.Label, (∀ a < w.size, label a = w.label a) → chain.map label = Γ

end Pairing

section Values
variable {L : Likeness}

/-- Functions alike, `between` being the labels of the frames that come between the environment of
a function and that of its parameters. -/
structure Closure.Alike (w : Pairing L) (between Γ : List L.Label) (f g : Closure) : Prop where
  identity : g.identity = f.identity
  name : g.name = f.name
  environment : g.environment = f.environment
  isInitializer : g.isInitializer = f.isInitializer
  labels : w.Labels f.environment.chain Γ
  fits : L.fits f.isInitializer f.body g.body
  body : ∃ l, List.Forall₂ (L.names l) f.params g.params ∧
    Stmt.AllAlike L (l :: between ++ Γ) f.body g.body

def Closure.AlikeMethod (w : Pairing L) (f g : Closure) : Prop := ∃ Γ, f.Alike w [L.plain] Γ g

structure Class.Alike (w : Pairing L) (c d : Class) : Prop where
  identity : d.identity = c.identity
  name : d.name = c.name
  methods : Bindings.Alike Eq (Closure.AlikeMethod w) c.methods d.methods

inductive Value.Alike (w : Pairing L) : Value → Value → Prop
  | data {v : Value} (plain : v.isData) : Alike w v v
  | function {f g : Closure} {Γ : List L.Label} (alike : f.Alike w [] Γ g)
      (receiver : f.isInitializer → Γ.head? = some L.plain) : Alike w (.function f) (.function g)
  | klass {c d : Class} (alike : c.Alike w d) : Alike w (.klass c) (.klass d)
  | object {o p : Object} (identity : p.identity = o.identity) (owner : o.owner.Alike w p.owner) :
      Alike w (.object o) (.object p)

inductive Signal.Alike (w : Pairing L) : Signal → Signal → Prop
  | proceed : Alike w .proceed .proceed
  | breakLoop : Alike w .breakLoop .breakLoop
  | continueLoop : Alike w .continueLoop .continueLoop
  | returnValue {v v' : Value} (alike : v.Alike w v') : Alike w (.returnValue v) (.returnValue v')

/-- Failures alike: a fault has the same cause at a corresponding token, and what is not bound
under one name is not bound under the name that corresponds to it. -/
inductive Failure.Alike (L : Likeness) : Failure → Failure → Prop
  | fault {t u : Token} {cause : Fault} (token : L.tokens t u) :
      Alike L (.fault t cause) (.fault u cause)
  | unbound {l : L.Label} {a b : String} (name : L.names l a b) : Alike L (.unbound a) (.unbound b)
  | noFrame : Alike L .noFrame .noFrame
  | infiniteRemainder : Alike L .infiniteRemainder .infiniteRemainder
  | tooDeep : Alike L .tooDeep .tooDeep
  | endless : Alike L .endless .endless

end Values

namespace Pairing
variable {L : Likeness}

/-- Two machines alike. -/
structure Sound (w : Pairing L) : Prop where
  root : w.Labels [Environment.global.frame] [L.plain]
  size : w.right.store.frames.size = w.size
  frames : ∀ a, Bindings.Alike (L.names (w.label a)) (Value.Alike w) (w.left.store.frame a)
    (w.right.store.frame a)
  instances : w.right.store.objects.size = w.left.store.objects.size
  fields : ∀ o p : Object, p.identity = o.identity →
    Bindings.Alike Eq (Value.Alike w) (w.left.store.fields o) (w.right.store.fields p)
  identities : w.right.store.identities = w.left.store.identities
  environment : w.right.environment = w.left.environment
  output : w.right.output = w.left.output
  asked : w.right.asked = w.left.asked

/-- Two machines alike in an environment whose frames have labels. -/
structure Stands (w : Pairing L) (Γ : List L.Label) : Prop where
  sound : w.Sound
  labels : w.Labels w.left.environment.chain Γ

/-- A later pair of machines has the frames of an earlier one, under their labels. -/
structure Later (w w' : Pairing L) : Prop where
  size : w.size ≤ w'.size
  label : ∀ a < w.size, w'.label a = w.label a

/-- What a step of both machines does: it keeps them alike, and goes back to its environment. -/
structure Leads (w w' : Pairing L) : Prop extends w.Later w' where
  sound : w'.Sound
  environment : w'.left.environment = w.left.environment

variable {w w' w'' : Pairing L} {Γ : List L.Label} {chain : List Address}

theorem Later.refl (w : Pairing L) : w.Later w := ⟨Nat.le_refl _, fun _ _ => rfl⟩

theorem Later.trans (h : w.Later w') (k : w'.Later w'') : w.Later w'' where
  size := Nat.le_trans h.size k.size
  label a ha := (k.label a (Nat.lt_of_lt_of_le ha h.size)).trans (h.label a ha)

theorem Leads.refl (h : w.Sound) : w.Leads w := ⟨.refl w, h, rfl⟩

theorem Leads.trans (h : w.Leads w') (k : w'.Leads w'') : w.Leads w'' :=
  ⟨h.toLater.trans k.toLater, k.sound, k.environment.trans h.environment⟩

theorem Labels.mono (h : w.Labels chain Γ) (hl : w.Later w') : w'.Labels chain Γ := by
  intro label hlabel
  apply h
  intro a ha
  exact (hlabel a (Nat.lt_of_lt_of_le ha hl.size)).trans (hl.label a ha)

theorem Labels.here (h : w.Labels chain Γ) : chain.map w.label = Γ := h w.label fun _ _ => rfl

theorem Labels.at (h : w.Labels chain Γ) {d : Nat} {a : Address} (ha : chain[d]? = some a) :
    Γ[d]? = some (w.label a) := by
  rw [← h.here, List.getElem?_map, ha]
  rfl

theorem Leads.stands (h : w.Leads w') (hS : w.Stands Γ) : w'.Stands Γ := by
  refine ⟨h.sound, ?_⟩
  rw [h.environment]
  exact hS.labels.mono h.toLater

end Pairing

section Mono
variable {L : Likeness} {w w' : Pairing L} (hl : w.Later w')
include hl

theorem Closure.Alike.mono {between Γ : List L.Label} {f g : Closure}
    (h : f.Alike w between Γ g) : f.Alike w' between Γ g :=
  { h with labels := h.labels.mono hl }

theorem Closure.AlikeMethod.mono {f g : Closure} (h : f.AlikeMethod w g) : f.AlikeMethod w' g := by
  obtain ⟨Γ, hf⟩ := h
  exact ⟨Γ, hf.mono hl⟩

theorem Class.Alike.mono {c d : Class} (h : c.Alike w d) : c.Alike w' d :=
  { h with methods := Bindings.Alike.mono h.methods fun _ _ hm => hm.mono hl }

theorem Value.Alike.mono {v v' : Value} (h : v.Alike w v') : v.Alike w' v' := by
  cases h with
  | data plain => exact .data plain
  | function alike receiver => exact .function (alike.mono hl) receiver
  | klass alike => exact .klass (alike.mono hl)
  | object identity owner => exact .object identity (owner.mono hl)

theorem Value.Alike.monoAll {vs vs' : List Value} (h : List.Forall₂ (Value.Alike w) vs vs') :
    List.Forall₂ (Value.Alike w') vs vs' := h.imp fun _ _ hv => hv.mono hl

end Mono

/-! What can be seen of values alike. -/

namespace Value.Alike
variable {L : Likeness} {w : Pairing L} {v v' a a' b b' : Value}

theorem display (h : v.Alike w v') : v'.display = v.display := by
  cases h with
  | data plain => rfl
  | function alike receiver => simp only [Value.display, alike.name]
  | klass alike => simp only [Value.display, alike.name]
  | object identity owner => simp only [Value.display, owner.name]

theorem truthy (h : v.Alike w v') : v'.truthy = v.truthy := by cases h <;> rfl

theorem isText (h : v.Alike w v') : v'.isText = v.isText := by cases h <;> rfl

theorem equal (h : a.Alike w a') (k : b.Alike w b') : a'.equal b' = a.equal b := by
  cases h with
  | data plain =>
    cases k with
    | data plain' => rfl
    | _ => cases a <;> first | rfl | cases plain
  | function alike receiver =>
    cases k with
    | data plain' => cases b <;> first | rfl | cases plain'
    | function other => simp only [Value.equal, alike.identity, other.identity]
    | _ => rfl
  | klass alike =>
    cases k with
    | data plain' => cases b <;> first | rfl | cases plain'
    | klass other => simp only [Value.equal, alike.identity, other.identity]
    | _ => rfl
  | object identity owner =>
    cases k with
    | data plain' => cases b <;> first | rfl | cases plain'
    | object identity' => simp only [Value.equal, identity, identity']
    | _ => rfl

end Value.Alike
end LoxScript
