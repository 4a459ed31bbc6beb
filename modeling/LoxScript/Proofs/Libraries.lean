import LoxScript.Proofs.PaddedRun
import LoxScript.Proofs.Reshaping

/-!
Runs with two libraries.

Two libraries agree under a name if they have the same function under it, or none. A program that
says only names under which they agree is run with both in step: where no scopes are added, two
machines in step hold the same values, and differ at most in globals that no program has named.
-/
namespace LoxScript

/-! ### Where no scopes are added -/

section Snug
variable {P : Padding} {w : Overlay P} {Γ : List Link}

theorem Link.shift_eq (h : .extra ∉ Γ) (d : Nat) : Link.shift Γ d = d := by
  induction Γ generalizing d with
  | nil => rfl
  | cons l Γ ih =>
    have hl : l ≠ .extra := fun hl => h (hl ▸ List.mem_cons_self)
    have hΓ : .extra ∉ Γ := fun hΓ => h (List.mem_cons_of_mem _ hΓ)
    cases d with
    | zero => simp [Link.shift, hl]
    | succ d => simp [Link.shift, hl, ih hΓ]

theorem Link.map_shift (h : .extra ∉ Γ) (mark : Option Nat) : mark.map (Link.shift Γ) = mark := by
  cases mark with
  | none => rfl
  | some d => rw [Option.map_some, Link.shift_eq h]

theorem Link.inner_snug {l : Link} (h : .extra ∉ Γ) (hl : .extra ≠ l) : .extra ∉ l :: Γ :=
  List.not_mem_cons_of_ne_of_not_mem hl h

mutual

/-- A tree to which no scopes are added stays as it is. -/
theorem Expr.eq_of_padded (hsnug : ¬ P.roomy) : (e' : ResolvedExpr) → ∀ {Γ : List Link}
    {e : ResolvedExpr}, .extra ∉ Γ → Expr.Padded P Γ e e' → e' = e
  | .literal _, _, _, _, .literal => rfl
  | .grouping e', _, _, hΓ, .grouping inner => by rw [e'.eq_of_padded hsnug hΓ inner]
  | .unary _ e', _, _, hΓ, .unary right => by rw [e'.eq_of_padded hsnug hΓ right]
  | .binary a' _ b', _, _, hΓ, .binary left right => by
    rw [a'.eq_of_padded hsnug hΓ left, b'.eq_of_padded hsnug hΓ right]
  | .logical a' _ b', _, _, hΓ, .logical left right => by
    rw [a'.eq_of_padded hsnug hΓ left, b'.eq_of_padded hsnug hΓ right]
  | .variable _ _, _, _, hΓ, .variable _ => by rw [Link.map_shift hΓ]
  | .assign _ _ e' _, _, _, hΓ, .assign _ value => by
    rw [e'.eq_of_padded hsnug hΓ value, Link.map_shift hΓ]
  | .call f' _ es', _, _, hΓ, .call callee arguments => by
    rw [f'.eq_of_padded hsnug hΓ callee, Expr.eq_of_allPadded hsnug es' hΓ arguments]
  | .get o' _, _, _, hΓ, .get object => by rw [o'.eq_of_padded hsnug hΓ object]
  | .set o' _ _ e', _, _, hΓ, .set object value => by
    rw [o'.eq_of_padded hsnug hΓ object, e'.eq_of_padded hsnug hΓ value]
  | .this _ _, _, _, hΓ, .this _ => by rw [Link.shift_eq hΓ]
  | .function none _ b', _, _, hΓ, .function body => by
    rw [Stmt.eq_of_allPadded hsnug b' (Link.inner_snug hΓ (by decide)) body]
  | .function (some _) _ b', _, _, hΓ, .namedFunction body => by
    rw [Stmt.eq_of_allPadded hsnug b' (Link.inner_snug (Link.inner_snug hΓ (by decide)) (by decide)) body]

theorem Expr.eq_of_allPadded (hsnug : ¬ P.roomy) : (es' : List ResolvedExpr) → ∀ {Γ : List Link}
    {es : List ResolvedExpr}, .extra ∉ Γ → Expr.AllPadded P Γ es es' → es' = es
  | [], _, _, _, .nil => rfl
  | e' :: es', _, _, hΓ, .cons head tail => by
    rw [e'.eq_of_padded hsnug hΓ head, Expr.eq_of_allPadded hsnug es' hΓ tail]

theorem Stmt.eq_of_padded (hsnug : ¬ P.roomy) : (s' : ResolvedStmt) → ∀ {Γ : List Link}
    {s : ResolvedStmt}, .extra ∉ Γ → Stmt.Padded P Γ s s' → s' = s
  | .expression e', _, _, hΓ, .expression value => by rw [e'.eq_of_padded hsnug hΓ value]
  | .print e', _, _, hΓ, .print value => by rw [e'.eq_of_padded hsnug hΓ value]
  | .varDecl _ none, _, _, _, .varDecl _ => rfl
  | .varDecl _ (some e'), _, _, hΓ, .varDeclWith _ value => by
    rw [e'.eq_of_padded hsnug hΓ value]
  | .block b', _, _, hΓ, .block body => by
    rw [Stmt.eq_of_allPadded hsnug b' (Link.inner_snug hΓ (by decide)) body]
  | .block [_], _, _, _, .boxed roomy _ => absurd roomy hsnug
  | .ifElse c' y' none, _, _, hΓ, .ifElse condition yes => by
    rw [c'.eq_of_padded hsnug hΓ condition, y'.eq_of_padded hsnug hΓ yes]
  | .ifElse c' y' (some n'), _, _, hΓ, .ifElseBoth condition yes no => by
    rw [c'.eq_of_padded hsnug hΓ condition, y'.eq_of_padded hsnug hΓ yes,
      n'.eq_of_padded hsnug hΓ no]
  | .loop c' b' none, _, _, hΓ, .loop condition body => by
    rw [c'.eq_of_padded hsnug hΓ condition, b'.eq_of_padded hsnug hΓ body]
  | .loop c' b' (some n'), _, _, hΓ, .loopWith condition body increment => by
    rw [c'.eq_of_padded hsnug hΓ condition, b'.eq_of_padded hsnug hΓ body,
      n'.eq_of_padded hsnug hΓ increment]
  | .loop _ (.block _) none, _, _, _, .expanded roomy _ _ _ => absurd roomy hsnug
  | .breakLoop _, _, _, _, .breakLoop => rfl
  | .continueLoop _, _, _, _, .continueLoop => rfl
  | .returnFrom _ none, _, _, _, .returnNothing => rfl
  | .returnFrom _ (some e'), _, _, hΓ, .returnValue value => by rw [e'.eq_of_padded hsnug hΓ value]
  | .functionDecl _ _ b', _, _, hΓ, .functionDecl _ body => by
    rw [Stmt.eq_of_allPadded hsnug b' (Link.inner_snug hΓ (by decide)) body]
  | .classDecl _ ms', _, _, hΓ, .classDecl _ methods => by
    rw [Method.eq_of_allPadded hsnug ms' hΓ methods]

theorem Stmt.eq_of_allPadded (hsnug : ¬ P.roomy) : (ss' : List ResolvedStmt) →
    ∀ {Γ : List Link} {ss : List ResolvedStmt}, .extra ∉ Γ → Stmt.AllPadded P Γ ss ss' → ss' = ss
  | [], _, _, _, .nil => rfl
  | s' :: ss', _, _, hΓ, .cons head tail => by
    rw [s'.eq_of_padded hsnug hΓ head, Stmt.eq_of_allPadded hsnug ss' hΓ tail]

theorem Method.eq_of_allPadded (hsnug : ¬ P.roomy) : (ms' : List ResolvedMethod) →
    ∀ {Γ : List Link} {ms : List ResolvedMethod}, .extra ∉ Γ → Method.AllPadded P Γ ms ms' →
      ms' = ms
  | [], _, _, _, .nil => rfl
  | .mk _ _ b' :: ms', _, _, hΓ, .cons body tail => by
    rw [Stmt.eq_of_allPadded hsnug b' (Link.inner_snug (Link.inner_snug hΓ (by decide)) (by decide)) body,
      Method.eq_of_allPadded hsnug ms' hΓ tail]

end

/-- Where no scopes are added, chains have the same frames. -/
theorem Overlay.Threads.eq (hsnug : ¬ P.roomy) (hplace : ∀ a < w.size, w.place a = a)
    {as bs : List Address} (h : w.Threads Γ as bs) : bs = as ∧ .extra ∉ Γ := by
  induction h with
  | root inside => exact ⟨by rw [hplace 0 inside], by decide⟩
  | frame shown inside _ _ ih =>
    obtain ⟨heq, hΓ⟩ := ih
    exact ⟨by rw [heq, hplace _ inside], Link.inner_snug hΓ shown.symm⟩
  | room roomy _ _ => exact absurd roomy hsnug

theorem Environment.eq_of_chain {e e' : Environment} (h : e'.chain = e.chain) : e' = e := by
  obtain ⟨frame, enclosing⟩ := e
  obtain ⟨frame', enclosing'⟩ := e'
  cases h
  rfl

section Values
variable (hsnug : ¬ P.roomy) (hplace : ∀ a < w.size, w.place a = a)
include hsnug hplace

theorem Closure.Padded.eq {between : List Link} (hbetween : .extra ∉ between) {f g : Closure}
    (h : f.Padded w between Γ g) : g = f := by
  obtain ⟨hchain, hΓ⟩ := h.environment.eq hsnug hplace
  have hall : .extra ∉ Link.both :: between ++ Γ := by simp [hbetween, hΓ]
  have hbody := Stmt.eq_of_allPadded hsnug g.body hall h.body
  have henvironment := Environment.eq_of_chain hchain
  obtain ⟨identity, name, params, isInitializer, -, -⟩ := h
  cases f
  cases g
  simp_all

theorem Class.Padded.eq {c d : Class} (h : c.Padded w d) : d = c := by
  have hmethods := Bindings.Alike.eq h.methods fun _ _ ⟨Γ, hm⟩ => hm.eq hsnug hplace (by decide)
  obtain ⟨identity, name, -⟩ := h
  cases c
  cases d
  simp_all

/-- Where no scopes are added, machines in step hold the same values. -/
theorem Value.Padded.eq {v v' : Value} (h : v.Padded w v') : v' = v := by
  cases h with
  | constant constant => rfl
  | native known => rfl
  | function padded receiver => rw [padded.eq hsnug hplace List.not_mem_nil]
  | klass padded => rw [padded.eq hsnug hplace]
  | @object o p identity owner =>
    obtain ⟨i, c⟩ := o
    obtain ⟨j, d⟩ := p
    obtain rfl : j = i := identity
    rw [show d = c from owner.eq hsnug hplace]

end Values
end Snug

/-! ### Two libraries -/

namespace Library
variable (library library' : Library)

/-- The libraries have the same function under a name, or neither has one. -/
def Agree (name : String) : Prop := library.get? name = library'.get? name

/-- Globals of machines with the two libraries: those under whose names the libraries agree
correspond. -/
def padding : Padding where
  known := library.Agree library'
  roomy := False
  globals related b b' :=
    ∀ name, library.Agree library' name → Option.Rel related (b.get? name) (b'.get? name)
  get? h hname := h _ hname
  set {related b b' name v v'} h hname hv := by
    intro other hother
    rw [Bindings.get?_set, Bindings.get?_set]
    split
    · exact .some hv
    · exact h other hother
  mono {related other b b'} h hr := by
    intro name hname
    have hvalue := h name hname
    generalize b.get? name = found at hvalue
    generalize b'.get? name = found' at hvalue
    cases hvalue with
    | none => exact .none
    | some hv => exact .some (hr _ _ hv)

variable {library library' : Library}

theorem get?_globals (library : Library) (name : String) :
    library.globals.get? name = (library.get? name).map fun b => .native ⟨name, b.arity⟩ := by
  induction library with
  | nil => rfl
  | cons entry rest ih =>
    obtain ⟨other, b⟩ := entry
    simp only [globals, List.map_cons, Bindings.get?] at ih ⊢
    split
    next heq => rw [heq, Option.map_some]
    next => exact ih

end Library

/-- Values that a function can give without the machine: constants, its arguments, the classes of
instances that it could give, and functions of the host that are shared. -/
inductive Value.MadeOf (shared : String → Prop) (arguments : List Value) : Value → Prop
  | constant {v : Value} (constant : v.isConstant) : MadeOf shared arguments v
  | argument {v : Value} (given : v ∈ arguments) : MadeOf shared arguments v
  | owner {o : Object} (made : MadeOf shared arguments (.object o)) :
      MadeOf shared arguments (.klass o.owner)
  | native {n : Native} (known : shared n.name) : MadeOf shared arguments (.native n)

/-- The functions that two libraries share are functions of their arguments, and of how many calls
came before. -/
def Library.Shares (library library' : Library) : Prop :=
  ∀ name b, library.get? name = some b → library'.get? name = some b →
    ∀ calls vs, (b.run calls vs).MadeOf (library.Agree library') vs

theorem Value.MadeOf.padded {P : Padding} {w : Overlay P} {vs : List Value} {v : Value}
    (h : v.MadeOf P.known vs) (hvs : ∀ u ∈ vs, u.Padded w u) : v.Padded w v := by
  induction h with
  | constant constant => exact .constant constant
  | argument given => exact hvs _ given
  | owner _ ih =>
    cases ih with
    | constant constant => cases constant
    | object _ owner => exact .klass owner
  | native known => exact .native known

namespace Library
variable {library library' : Library}

theorem padding_snug : ¬ (library.padding library').roomy := id

theorem padding_serves (h : library.Shares library') :
    (library.padding library').Serves library library' := by
  intro w n calls vs vs' hw hknown hvs
  have hplace := (hw.snug padding_snug).1
  have hsame : vs' = vs := by
    induction hvs with
    | nil => rfl
    | cons hv _ ih => rw [ih, hv.eq padding_snug hplace]
  subst hsame
  have hself : ∀ v ∈ vs', v.Padded w v := List.forall₂_same.mp hvs
  have hother : library'.get? n.name = library.get? n.name := Eq.symm hknown
  rw [hother]
  cases hn : library.get? n.name with
  | none => exact .constant rfl
  | some b => exact (h n.name b hn (hother.trans hn) calls vs').padded hself

theorem padding_start :
    (⟨.start library.globals, .start library'.globals, id⟩ :
      Overlay (library.padding library')).Stands [.both] := by
  apply Overlay.start_stands
  intro name hname
  have hother : library'.get? name = library.get? name := Eq.symm hname
  rw [get?_globals, get?_globals, hother]
  cases library.get? name with
  | none => exact .none
  | some b => exact .some (.native hname)

end Library

namespace Session

/-- The names that occur in sources. -/
def namesIn (sources : List (String × String)) : List String :=
  sources.flatMap fun entry =>
    ((wordsOf entry.1).filter (·.kind = .identifier)).map (·.lexeme)

/-- How the runs of sources one after another end, each with the errors of its program. -/
def endings (s : Session) : List (String × String) → List (Except Escape Status × List String)
  | [] => []
  | (source, path) :: rest =>
    let s' := s.after (run source path)
    (s.ending (run source path), s'.reporter.runtimeErrors) :: s'.endings rest

theorem endings_inStep {P : Padding} {s s' : Session} {sources : List (String × String)}
    (hself : ∀ entry ∈ sources, Accepted entry.1 →
      Stmt.AllPadded P [.both] (resolve (programOf entry.1)).program
        (resolve (programOf entry.1)).program) (h : s.InStep P s') :
    s'.endings sources = s.endings sources := by
  induction sources generalizing s s' with
  | nil => rfl
  | cons entry rest ih =>
    obtain ⟨hentry, hrest⟩ := List.forall_mem_cons.mp hself
    have hends := run_inStep hentry h entry.2
    simp only [endings]
    rw [hends.ending_eq, hends.after.reporter, ih hrest hends.after]

variable {library library' : Library} {s s' : Session}

/-- Sessions in step have the same globals under the names under which their libraries agree. -/
theorem InStep.globals_eq (h : s.InStep (library.padding library') s') {name : String}
    (hname : library.Agree library' name) :
    s'.machine.globals.get? name = s.machine.globals.get? name := by
  obtain ⟨place, hS⟩ := h.machines
  have hvalue := hS.sound.globals name hname
  have hplace := (hS.sound.snug Library.padding_snug).1
  show (s'.machine.store.frame 0).get? name = (s.machine.store.frame 0).get? name
  generalize (s.machine.store.frame 0).get? name = found at hvalue
  generalize (s'.machine.store.frame 0).get? name = found' at hvalue
  cases hvalue with
  | none => rfl
  | some hv => rw [hv.eq Library.padding_snug hplace]

/-- Sources run in one session after another do not depend on functions of the library that they do
not name: with two libraries that agree under all names in the sources, they print the same, end in
the same way with the same errors, and leave the same under the names in the sources and under
those that are in neither library. -/
theorem runs_agree (library library' : Library) (depth turns : Nat) (reporter : Reporter)
    (sources : List (String × String))
    (hagree : ∀ name ∈ namesIn sources, library.Agree library' name)
    (hshares : library.Shares library') :
    let s : Session := ⟨⟨library, depth, turns⟩, .start library.globals, reporter⟩
    let s' : Session := ⟨⟨library', depth, turns⟩, .start library'.globals, reporter⟩
    s'.endings sources = s.endings sources ∧
      (s'.runAll sources).machine.output = (s.runAll sources).machine.output ∧
      (s'.runAll sources).reporter = (s.runAll sources).reporter ∧
      ∀ name, (name ∈ namesIn sources ∨ (library.get? name = none ∧ library'.get? name = none)) →
        (s'.runAll sources).machine.globals.get? name =
          (s.runAll sources).machine.globals.get? name := by
  intro s s'
  have hself : ∀ entry ∈ sources, Accepted entry.1 →
      Stmt.AllPadded (library.padding library') [.both] (resolve (programOf entry.1)).program
        (resolve (programOf entry.1)).program := by
    intro entry hentry hsource
    refine hsource.padded_self fun t ht hkind => hagree _ (List.mem_flatMap.mpr ⟨entry, hentry, ?_⟩)
    exact List.mem_map_of_mem (List.mem_filter.mpr ⟨ht, decide_eq_true hkind⟩)
  have hstart : s.InStep (library.padding library') s' :=
    ⟨rfl, rfl, Library.padding_serves hshares, rfl, id, Library.padding_start⟩
  have hruns := runAll_inStep hself hstart
  refine ⟨endings_inStep hself hstart, hruns.output, hruns.reporter, fun name hname => ?_⟩
  apply hruns.globals_eq
  rcases hname with hname | ⟨hnone, hnone'⟩
  · exact hagree name hname
  · exact hnone.trans hnone'.symm

/-- The sources name one function of the libraries. Another one differs, and a third is in the
second library only. -/
theorem runs_agree_echo :
    let echo : Builtin := ⟨1, fun _ vs => vs.headD .nil⟩
    let library : Library := [("echo", echo), ("now", ⟨0, fun _ _ => .bool true⟩)]
    let library' : Library :=
      [("now", ⟨2, fun _ _ => .nil⟩), ("echo", echo), ("x", ⟨0, fun _ _ => .nil⟩)]
    let sources := [("var a = echo(\"b\"); fun f() \x7b return echo(a); \x7d", "1"),
      ("print echo; print f();\nc;", "2")]
    let s : Session := ⟨⟨library, callDepth, loopTurns⟩, .start library.globals, .start false false⟩
    let s' : Session :=
      ⟨⟨library', callDepth, loopTurns⟩, .start library'.globals, .start false false⟩
    ((∀ name ∈ namesIn sources, library.Agree library' name) ∧ library.Shares library') ∧
      (s'.endings sources = s.endings sources ∧
        (s'.runAll sources).machine.output = (s.runAll sources).machine.output ∧
        (s'.runAll sources).reporter = (s.runAll sources).reporter ∧
        ∀ name, (name ∈ namesIn sources ∨ (library.get? name = none ∧ library'.get? name = none)) →
          (s'.runAll sources).machine.globals.get? name =
            (s.runAll sources).machine.globals.get? name) ∧
      (s.runAll sources).machine.output = ["b\n", "<native fn>\n"] ∧
      (s.runAll sources).reporter.runtimeErrors = ["Undefined variable 'c'.\n[line 2]"] ∧
      s.shownGlobals ≠ s'.shownGlobals := by
  intro echo library library' sources s s'
  have hnames : namesIn sources = ["a", "echo", "f", "echo", "a", "echo", "f", "c"] := by
    decide +kernel
  have hagree : ∀ name ∈ namesIn sources, library.Agree library' name := by
    rw [hnames]
    simp only [List.forall_mem_cons]
    exact ⟨rfl, rfl, rfl, rfl, rfl, rfl, rfl, rfl, List.forall_mem_nil _⟩
  have hshares : library.Shares library' := by
    intro name b hb hb' calls vs
    by_cases hecho : name = "echo"
    · subst hecho
      cases hb
      cases vs with
      | nil => exact .constant rfl
      | cons v vs => exact .argument List.mem_cons_self
    · have hnow : name = "now" := by
        by_contra hother
        simp [library, Bindings.get?, Ne.symm hecho, Ne.symm hother] at hb
      subst hnow
      cases hb
      cases hb'
  refine ⟨⟨hagree, hshares⟩, runs_agree library library' callDepth loopTurns _ sources hagree hshares,
    ?_⟩
  exact ⟨by decide +kernel, by decide +kernel, by decide +kernel⟩

end Session
end LoxScript
