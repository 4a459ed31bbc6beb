import LoxScript.Proofs.Likeness

/-!
Programs with additional scopes, and the machines that run them.

A padded program is another one of which some statements stand in blocks of their own, among them
bodies of loops behind which the block has the increment. Where such a
block is entered the chain of frames has a link more, so distances that lead out of the block are
longer, also in the functions that are made in it. Two machines run such programs in step if each
frame of the first has its place among the frames of the second. The globals of the two need only
correspond under the names that the programs know.
-/
namespace LoxScript

/-- The links of the longer of two chains: those that both have, among them the ones for receivers
of methods, and those that only the longer one has. -/
inductive Link where
  | both
  | receiver
  | extra
deriving DecidableEq

namespace Link

/-- The number of links of the shorter chain. -/
def shared : List Link → Nat
  | [] => 0
  | l :: Γ => if l = .extra then shared Γ else shared Γ + 1

/-- The distance in the longer chain of what has some distance in the shorter one. -/
def shift : List Link → Nat → Nat
  | [], d => d
  | l :: Γ, d =>
    if l = .extra then shift Γ d + 1
    else
      match d with
      | 0 => 0
      | d + 1 => shift Γ d + 1

end Link

/-- What programs that are run side by side may say of the globals, and how the globals of the two
machines correspond when their values do. -/
structure Padding where
  /-- The global names that occur in the programs. -/
  known : String → Prop
  /-- Whether the second program may have scopes that the first has not. -/
  roomy : Prop
  globals : (Value → Value → Prop) → Bindings Value → Bindings Value → Prop
  get? : ∀ {related b b' name}, globals related b b' → known name →
    Option.Rel related (b.get? name) (b'.get? name)
  set : ∀ {related b b' name v v'}, globals related b b' → known name → related v v' →
    globals related (b.set name v) (b'.set name v')
  mono : ∀ {related other b b'}, globals related b b' → (∀ v v', related v v' → other v v') →
    globals other b b'

namespace Padding
variable (P : Padding)

/-- A name that is looked up is known if it is global, and found short of the globals if not. -/
def Refers (Γ : List Link) (mark : Option Nat) (t : Token) : Prop :=
  match mark with
  | none => P.known t.lexeme
  | some d => d + 1 < Link.shared Γ

def Declares (Γ : List Link) (t : Token) : Prop := Γ.head? = some .both ∧ P.known t.lexeme

end Padding

mutual

/-- Whether a statement has a `continue` of the loop around it. -/
def Stmt.continues {ρ : Type} : Stmt ρ → Bool
  | .continueLoop _ => true
  | .block body => Stmt.anyContinues body
  | .ifElse _ yes none => yes.continues
  | .ifElse _ yes (some no) => yes.continues || no.continues
  | _ => false

def Stmt.anyContinues {ρ : Type} : List (Stmt ρ) → Bool
  | [] => false
  | s :: ss => s.continues || Stmt.anyContinues ss

end

mutual

/-- An expression and a padded one, where chains of frames have some links. -/
inductive Expr.Padded (P : Padding) : List Link → ResolvedExpr → ResolvedExpr → Prop
  | literal {Γ value} : Expr.Padded P Γ (.literal value) (.literal value)
  | grouping {Γ e e'} (inner : Expr.Padded P Γ e e') : Expr.Padded P Γ (.grouping e) (.grouping e')
  | unary {Γ t e e'} (right : Expr.Padded P Γ e e') : Expr.Padded P Γ (.unary t e) (.unary t e')
  | binary {Γ a a' t b b'} (left : Expr.Padded P Γ a a') (right : Expr.Padded P Γ b b') :
      Expr.Padded P Γ (.binary a t b) (.binary a' t b')
  | logical {Γ a a' t b b'} (left : Expr.Padded P Γ a a') (right : Expr.Padded P Γ b b') :
      Expr.Padded P Γ (.logical a t b) (.logical a' t b')
  | «variable» {Γ t mark} (name : P.Refers Γ mark t) :
      Expr.Padded P Γ (.variable t mark) (.variable t (mark.map (Link.shift Γ)))
  | assign {Γ t operator e e' mark} (name : P.Refers Γ mark t) (value : Expr.Padded P Γ e e') :
      Expr.Padded P Γ (.assign t operator e mark)
        (.assign t operator e' (mark.map (Link.shift Γ)))
  | call {Γ f f' t es es'} (callee : Expr.Padded P Γ f f') (arguments : Expr.AllPadded P Γ es es') :
      Expr.Padded P Γ (.call f t es) (.call f' t es')
  | get {Γ o o' t} (object : Expr.Padded P Γ o o') : Expr.Padded P Γ (.get o t) (.get o' t)
  | set {Γ o o' t operator e e'} (object : Expr.Padded P Γ o o') (value : Expr.Padded P Γ e e') :
      Expr.Padded P Γ (.set o t operator e) (.set o' t operator e')
  | this {Γ t d} (inside : d + 1 < Link.shared Γ) :
      Expr.Padded P Γ (.this t (some d)) (.this t (some (Link.shift Γ d)))
  | function {Γ ts b b'} (body : Stmt.AllPadded P (.both :: Γ) b b') :
      Expr.Padded P Γ (.function none ts b) (.function none ts b')
  | namedFunction {Γ t ts b b'} (body : Stmt.AllPadded P (.both :: .both :: Γ) b b') :
      Expr.Padded P Γ (.function (some t) ts b) (.function (some t) ts b')

inductive Expr.AllPadded (P : Padding) : List Link → List ResolvedExpr → List ResolvedExpr → Prop
  | nil {Γ} : Expr.AllPadded P Γ [] []
  | cons {Γ e e' es es'} (head : Expr.Padded P Γ e e') (tail : Expr.AllPadded P Γ es es') :
      Expr.AllPadded P Γ (e :: es) (e' :: es')

/-- A statement and a padded one. Declarations stand in no scope that only the second has. -/
inductive Stmt.Padded (P : Padding) : List Link → ResolvedStmt → ResolvedStmt → Prop
  | expression {Γ e e'} (value : Expr.Padded P Γ e e') :
      Stmt.Padded P Γ (.expression e) (.expression e')
  | print {Γ e e'} (value : Expr.Padded P Γ e e') : Stmt.Padded P Γ (.print e) (.print e')
  | varDecl {Γ t} (name : P.Declares Γ t) : Stmt.Padded P Γ (.varDecl t none) (.varDecl t none)
  | varDeclWith {Γ t e e'} (name : P.Declares Γ t) (value : Expr.Padded P Γ e e') :
      Stmt.Padded P Γ (.varDecl t (some e)) (.varDecl t (some e'))
  | block {Γ b b'} (body : Stmt.AllPadded P (.both :: Γ) b b') :
      Stmt.Padded P Γ (.block b) (.block b')
  | ifElse {Γ c c' y y'} (condition : Expr.Padded P Γ c c') (yes : Stmt.Padded P Γ y y') :
      Stmt.Padded P Γ (.ifElse c y none) (.ifElse c' y' none)
  | ifElseBoth {Γ c c' y y' n n'} (condition : Expr.Padded P Γ c c') (yes : Stmt.Padded P Γ y y')
      (no : Stmt.Padded P Γ n n') : Stmt.Padded P Γ (.ifElse c y (some n)) (.ifElse c' y' (some n'))
  | loop {Γ c c' b b'} (condition : Expr.Padded P Γ c c') (body : Stmt.Padded P Γ b b') :
      Stmt.Padded P Γ (.loop c b none) (.loop c' b' none)
  | loopWith {Γ c c' b b' n n'} (condition : Expr.Padded P Γ c c') (body : Stmt.Padded P Γ b b')
      (increment : Expr.Padded P Γ n n') :
      Stmt.Padded P Γ (.loop c b (some n)) (.loop c' b' (some n'))
  | breakLoop {Γ t} : Stmt.Padded P Γ (.breakLoop t) (.breakLoop t)
  | continueLoop {Γ t} : Stmt.Padded P Γ (.continueLoop t) (.continueLoop t)
  | returnNothing {Γ t} : Stmt.Padded P Γ (.returnFrom t none) (.returnFrom t none)
  | returnValue {Γ t e e'} (value : Expr.Padded P Γ e e') :
      Stmt.Padded P Γ (.returnFrom t (some e)) (.returnFrom t (some e'))
  | functionDecl {Γ t ts b b'} (name : P.Declares Γ t) (body : Stmt.AllPadded P (.both :: Γ) b b') :
      Stmt.Padded P Γ (.functionDecl t ts b) (.functionDecl t ts b')
  | classDecl {Γ t ms ms'} (name : P.Declares Γ t) (methods : Method.AllPadded P Γ ms ms') :
      Stmt.Padded P Γ (.classDecl t ms) (.classDecl t ms')
  /-- The second statement stands in a block of its own. -/
  | boxed {Γ s s'} (roomy : P.roomy) (inner : Stmt.Padded P (.extra :: Γ) s s') :
      Stmt.Padded P Γ s (.block [s'])
  /-- The body of the second loop is a block, behind whose statement the increment stands. -/
  | expanded {Γ c c' b n ss} (roomy : P.roomy) (condition : Expr.Padded P Γ c c')
      (body : Stmt.AllPadded P (.extra :: Γ) [b, .expression n] ss) (whole : ¬ b.continues) :
      Stmt.Padded P Γ (.loop c b (some n)) (.loop c' (.block ss) none)

inductive Stmt.AllPadded (P : Padding) : List Link → List ResolvedStmt → List ResolvedStmt → Prop
  | nil {Γ} : Stmt.AllPadded P Γ [] []
  | cons {Γ s s' ss ss'} (head : Stmt.Padded P Γ s s') (tail : Stmt.AllPadded P Γ ss ss') :
      Stmt.AllPadded P Γ (s :: ss) (s' :: ss')

/-- Methods of classes that stand where chains have some links. -/
inductive Method.AllPadded (P : Padding) :
    List Link → List ResolvedMethod → List ResolvedMethod → Prop
  | nil {Γ} : Method.AllPadded P Γ [] []
  | cons {Γ t ts b b' ms ms'} (body : Stmt.AllPadded P (.both :: .receiver :: Γ) b b')
      (tail : Method.AllPadded P Γ ms ms') :
      Method.AllPadded P Γ (.mk t ts b :: ms) (.mk t ts b' :: ms')

end

/-- Two machines, and the places of the frames of the first among those of the second. -/
structure Overlay (P : Padding) where
  left : Machine
  right : Machine
  place : Address → Address

namespace Overlay
variable {P : Padding}

def size (w : Overlay P) : Nat := w.left.store.frames.size

/-- A chain of the first machine and the longer one of the second, with the links of the latter. -/
inductive Threads (w : Overlay P) : List Link → List Address → List Address → Prop
  | root (inside : 0 < w.size) : Threads w [.both] [0] [w.place 0]
  | frame {l Γ a as bs} (shown : l ≠ .extra) (inside : a < w.size) (inner : 0 < a)
      (outer : Threads w Γ as bs) : Threads w (l :: Γ) (a :: as) (w.place a :: bs)
  | room {Γ as b bs} (roomy : P.roomy) (outer : Threads w Γ as bs) :
      Threads w (.extra :: Γ) as (b :: bs)

/-- A later pair of machines has the frames of an earlier one at their places. -/
structure Later (w w' : Overlay P) : Prop where
  size : w.size ≤ w'.size
  place : ∀ a < w.size, w'.place a = w.place a

end Overlay

section Values
variable {P : Padding}

/-- Functions of which one is padded, `between` being the links that come between the environment
of a function and that of its parameters. -/
structure Closure.Padded (w : Overlay P) (between Γ : List Link) (f g : Closure) : Prop where
  identity : g.identity = f.identity
  name : g.name = f.name
  params : g.params = f.params
  isInitializer : g.isInitializer = f.isInitializer
  environment : w.Threads Γ f.environment.chain g.environment.chain
  body : Stmt.AllPadded P (.both :: between ++ Γ) f.body g.body

def Closure.PaddedMethod (w : Overlay P) (f g : Closure) : Prop := ∃ Γ, f.Padded w [.receiver] Γ g

structure Class.Padded (w : Overlay P) (c d : Class) : Prop where
  identity : d.identity = c.identity
  name : d.name = c.name
  methods : Bindings.Alike Eq (Closure.PaddedMethod w) c.methods d.methods

/-- Values that a literal can have. -/
def Value.isConstant : Value → Bool
  | .nil | .bool _ | .number _ | .text _ => true
  | _ => false

/-- Values that correspond. A native function is one of a known name. -/
inductive Value.Padded (w : Overlay P) : Value → Value → Prop
  | constant {v : Value} (constant : v.isConstant) : Padded w v v
  | native {n : Native} (known : P.known n.name) : Padded w (.native n) (.native n)
  | function {f g : Closure} {Γ : List Link} (padded : f.Padded w [] Γ g)
      (receiver : f.isInitializer → Γ.head? = some .receiver) : Padded w (.function f) (.function g)
  | klass {c d : Class} (padded : c.Padded w d) : Padded w (.klass c) (.klass d)
  | object {o p : Object} (identity : p.identity = o.identity) (owner : o.owner.Padded w p.owner) :
      Padded w (.object o) (.object p)

inductive Signal.Padded (w : Overlay P) : Signal → Signal → Prop
  | proceed : Padded w .proceed .proceed
  | breakLoop : Padded w .breakLoop .breakLoop
  | continueLoop : Padded w .continueLoop .continueLoop
  | returnValue {v v' : Value} (padded : v.Padded w v') : Padded w (.returnValue v) (.returnValue v')

end Values

namespace Overlay
variable {P : Padding}

/-- Two machines in step. -/
structure Sound (w : Overlay P) : Prop where
  inside : 0 < w.size
  root : w.place 0 = 0
  placed : ∀ a < w.size, w.place a < w.right.store.frames.size
  apart : ∀ a < w.size, ∀ b < w.size, w.place a = w.place b → a = b
  globals : P.globals (Value.Padded w) (w.left.store.frame 0) (w.right.store.frame 0)
  frames : ∀ a < w.size, 0 < a →
    Bindings.Alike Eq (Value.Padded w) (w.left.store.frame a) (w.right.store.frame (w.place a))
  instances : w.right.store.objects.size = w.left.store.objects.size
  fields : ∀ o p : Object, p.identity = o.identity →
    Bindings.Alike Eq (Value.Padded w) (w.left.store.fields o) (w.right.store.fields p)
  identities : w.right.store.identities = w.left.store.identities
  output : w.right.output = w.left.output
  asked : w.right.asked = w.left.asked
  /-- Where no scopes are added, all frames are in place. -/
  snug : ¬ P.roomy → (∀ a < w.size, w.place a = a) ∧ w.right.store.frames.size = w.size

/-- Two machines in step in environments with some links. -/
structure Stands (w : Overlay P) (Γ : List Link) : Prop where
  sound : w.Sound
  threads : w.Threads Γ w.left.environment.chain w.right.environment.chain

/-- What a step of both machines does: it keeps them in step, and goes back to its environments. -/
structure Leads (w w' : Overlay P) : Prop extends w.Later w' where
  sound : w'.Sound
  left : w'.left.environment = w.left.environment
  right : w'.right.environment = w.right.environment

variable {w w' w'' : Overlay P} {Γ : List Link} {as bs : List Address}

theorem Later.refl (w : Overlay P) : w.Later w := ⟨Nat.le_refl _, fun _ _ => rfl⟩

theorem Later.trans (h : w.Later w') (k : w'.Later w'') : w.Later w'' where
  size := Nat.le_trans h.size k.size
  place a ha := (k.place a (Nat.lt_of_lt_of_le ha h.size)).trans (h.place a ha)

theorem Leads.refl (h : w.Sound) : w.Leads w := ⟨.refl w, h, rfl, rfl⟩

theorem Leads.trans (h : w.Leads w') (k : w'.Leads w'') : w.Leads w'' :=
  ⟨h.toLater.trans k.toLater, k.sound, k.left.trans h.left, k.right.trans h.right⟩

namespace Threads

theorem mono (h : w.Threads Γ as bs) (hl : w.Later w') : w'.Threads Γ as bs := by
  induction h with
  | root inside =>
    rw [← hl.place 0 inside]
    exact .root (Nat.lt_of_lt_of_le inside hl.size)
  | frame shown inside inner _ ih =>
    rw [← hl.place _ inside]
    exact .frame shown (Nat.lt_of_lt_of_le inside hl.size) inner ih
  | room roomy _ ih => exact .room roomy ih

/-- A distance that is short of the globals leads both machines to one frame. -/
theorem at_mark (h : w.Threads Γ as bs) {d : Nat} (hd : d + 1 < Link.shared Γ) :
    ∃ a, as[d]? = some a ∧ 0 < a ∧ a < w.size ∧ bs[Link.shift Γ d]? = some (w.place a) := by
  induction h generalizing d with
  | root inside =>
    have hshared : Link.shared [.both] = 1 := rfl
    omega
  | @frame l Γ a as bs shown inside inner outer ih =>
    simp only [Link.shared, if_neg shown] at hd
    cases d with
    | zero => exact ⟨a, rfl, inner, inside, by simp [Link.shift, shown]⟩
    | succ d =>
      have hd' : d + 1 < Link.shared Γ := by omega
      obtain ⟨b, hb, hinner, hinside, hplace⟩ := ih hd'
      exact ⟨b, hb, hinner, hinside, by simpa [Link.shift, shown] using hplace⟩
  | room roomy outer ih =>
    simp only [Link.shared, if_true] at hd
    obtain ⟨b, hb, hinner, hinside, hplace⟩ := ih hd
    exact ⟨b, hb, hinner, hinside, by simpa [Link.shift] using hplace⟩

/-- The innermost frames of environments whose innermost link is not an additional one. -/
theorem frame_eq {e e' : Environment} {l : Link} (h : w.Threads (l :: Γ) e.chain e'.chain)
    (hl : l ≠ .extra) : e.frame < w.size ∧ e'.frame = w.place e.frame := by
  obtain ⟨a, as⟩ := e
  obtain ⟨b, bs⟩ := e'
  cases h with
  | root inside => exact ⟨inside, rfl⟩
  | frame _ inside _ _ => exact ⟨inside, rfl⟩
  | room _ _ => exact absurd rfl hl

theorem head_inner {e e' : Environment} (h : w.Threads (.receiver :: Γ) e.chain e'.chain) :
    0 < e.frame := by
  obtain ⟨a, as⟩ := e
  obtain ⟨b, bs⟩ := e'
  cases h with
  | frame _ _ inner _ => exact inner

end Threads

theorem Leads.stands (h : w.Leads w') (hS : w.Stands Γ) : w'.Stands Γ := by
  refine ⟨h.sound, ?_⟩
  rw [h.left, h.right]
  exact hS.threads.mono h.toLater

end Overlay

section Mono
variable {P : Padding} {w w' : Overlay P} (hl : w.Later w')
include hl

theorem Closure.Padded.mono {between Γ : List Link} {f g : Closure}
    (h : f.Padded w between Γ g) : f.Padded w' between Γ g :=
  { h with environment := h.environment.mono hl }

theorem Closure.PaddedMethod.mono {f g : Closure} (h : f.PaddedMethod w g) :
    f.PaddedMethod w' g := by
  obtain ⟨Γ, hf⟩ := h
  exact ⟨Γ, hf.mono hl⟩

theorem Class.Padded.mono {c d : Class} (h : c.Padded w d) : c.Padded w' d :=
  { h with methods := Bindings.Alike.mono h.methods fun _ _ hm => hm.mono hl }

theorem Value.Padded.mono {v v' : Value} (h : v.Padded w v') : v.Padded w' v' := by
  cases h with
  | constant constant => exact .constant constant
  | native known => exact .native known
  | function padded receiver => exact .function (padded.mono hl) receiver
  | klass padded => exact .klass (padded.mono hl)
  | object identity owner => exact .object identity (owner.mono hl)

theorem Value.Padded.monoAll {vs vs' : List Value} (h : List.Forall₂ (Value.Padded w) vs vs') :
    List.Forall₂ (Value.Padded w') vs vs' := h.imp fun _ _ hv => hv.mono hl

theorem Signal.Padded.mono {s s' : Signal} (h : s.Padded w s') : s.Padded w' s' := by
  cases h with
  | returnValue padded => exact .returnValue (padded.mono hl)
  | proceed => exact .proceed
  | breakLoop => exact .breakLoop
  | continueLoop => exact .continueLoop

end Mono

/-! What can be seen of values in step. -/

namespace Value.Padded
variable {P : Padding} {w : Overlay P} {v v' a a' b b' : Value}

theorem display (h : v.Padded w v') : v'.display = v.display := by
  cases h with
  | constant _ => rfl
  | native _ => rfl
  | function padded _ => simp only [Value.display, padded.name]
  | klass padded => simp only [Value.display, padded.name]
  | object _ owner => simp only [Value.display, owner.name]

theorem truthy (h : v.Padded w v') : v'.truthy = v.truthy := by cases h <;> rfl

theorem isText (h : v.Padded w v') : v'.isText = v.isText := by cases h <;> rfl

theorem equal (h : a.Padded w a') (k : b.Padded w b') : a'.equal b' = a.equal b := by
  cases h with
  | constant constant =>
    cases k with
    | constant _ => rfl
    | _ => cases a <;> first | rfl | cases constant
  | native _ => cases k <;> rfl
  | function padded _ =>
    cases k with
    | constant constant => cases b <;> first | rfl | cases constant
    | function other => simp only [Value.equal, padded.identity, other.identity]
    | _ => rfl
  | klass padded =>
    cases k with
    | constant constant => cases b <;> first | rfl | cases constant
    | klass other => simp only [Value.equal, padded.identity, other.identity]
    | _ => rfl
  | object identity owner =>
    cases k with
    | constant constant => cases b <;> first | rfl | cases constant
    | object identity' => simp only [Value.equal, identity, identity']
    | _ => rfl

/-- Values that correspond are the same number if they are numbers. -/
theorem onNumbers {α : Type} {f : Float → Float → α} {other : α} :
    a.Padded w a' → b.Padded w b' →
      (match a', b' with | .number x, .number y => f x y | _, _ => other) =
        match a, b with | .number x, .number y => f x y | _, _ => other := by
  intro ha hb
  cases ha with
  | constant _ => cases hb <;> first | rfl | cases a <;> rfl
  | _ => rfl

theorem apply (t : Token) (k : Kind) (ha : a.Padded w a') (hb : b.Padded w b') :
    Value.apply t k a' b' = Value.apply t k a b := by
  unfold Value.apply Value.plus
  rw [ha.equal hb, ha.isText, hb.isText, ha.display, hb.display]
  split
  · rfl
  · rfl
  · split
    · rfl
    · exact ha.onNumbers hb
  · exact ha.onNumbers hb

theorem negate (t : Token) (h : v.Padded w v') : v'.negate t = v.negate t := by
  cases h <;> rfl

theorem arity? (h : v.Padded w v') : v'.arity? = v.arity? := by
  cases h with
  | constant _ => rfl
  | native _ => rfl
  | function padded _ => simp only [Value.arity?, padded.params]
  | @klass c d padded =>
    have hmethod := Bindings.Alike.get? (by grind) (rfl : initializerName = initializerName)
      padded.methods
    simp only [Value.arity?]
    generalize c.methods.get? initializerName = found at hmethod
    generalize d.methods.get? initializerName = other at hmethod
    cases hmethod with
    | none => rfl
    | some hm =>
      obtain ⟨Γ, hm⟩ := hm
      simp only [Option.map_some, Option.getD_some, hm.params]
  | object _ _ => rfl

end Value.Padded

/-! What operators give. -/

namespace Value

theorem isConstant_arithmetic {t : Token} {k : Kind} {x y : Float} {v : Value}
    (h : Value.arithmetic t k x y = .ok v) : v.isConstant := by
  unfold Value.arithmetic at h
  repeat' split at h
  all_goals cases h
  all_goals rfl

theorem isConstant_apply {t : Token} {k : Kind} {a b v : Value} (h : Value.apply t k a b = .ok v) :
    v.isConstant := by
  unfold Value.apply Value.plus at h
  split at h
  · cases h
    rfl
  · cases h
    rfl
  · repeat' split at h
    all_goals cases h
    all_goals rfl
  · split at h
    · exact isConstant_arithmetic h
    · cases h

theorem isConstant_negate {t : Token} {v u : Value} (h : v.negate t = .ok u) : u.isConstant := by
  cases v <;> cases h
  rfl

end Value
end LoxScript
