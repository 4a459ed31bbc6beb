import LoxScript.Proofs.Grammar

/-!
What the parser accepts is derived by the grammar.

A parser reads tokens if it leaves no more of them than it was given, finds a fault when it gives
up, and has an answer that fits when it finds none. The last can only be said of a parser that is
closed deeply enough for the tokens: one that runs out of levels gives up without a fault.
-/
namespace LoxScript

open Grammar Parser

namespace Parser

/-- How a parser reads some tokens: it takes at least `taken` of them if it succeeds, and if
there is no fault then what it answers fits what it leaves. -/
structure Reads {α : Type} (ts : List Token) (taken : Nat) (fits : α → List Token → Prop)
    (p : Parser α) : Prop where
  left : (p ts).rest.length ≤ ts.length
  faulty : (p ts).value = none → (p ts).faults ≠ []
  taken : ∀ a, (p ts).value = some a → (p ts).rest.length + taken ≤ ts.length
  fits : ∀ a, (p ts).value = some a → (p ts).faults = [] → fits a (p ts).rest

namespace Reads
variable {α β : Type} {ts : List Token} {n m : Nat} {F : α → List Token → Prop}
  {G : β → List Token → Prop} {p : Parser α}

theorem congr {q : Parser α} (hq : p ts = q ts) (h : Reads ts n F q) : Reads ts n F p :=
  ⟨hq ▸ h.left, hq ▸ h.faulty, hq ▸ h.taken, hq ▸ h.fits⟩

theorem success {a : α} {rest : List Token} (hp : p ts = ⟨some a, rest, []⟩)
    (hn : rest.length + n ≤ ts.length) (h : F a rest) : Reads ts n F p := by
  refine ⟨?_, ?_, ?_, ?_⟩
  · rw [hp]
    exact Nat.le_trans (Nat.le_add_right _ _) hn
  · rw [hp]
    intro hnone
    cases hnone
  · rw [hp]
    exact fun _ _ => hn
  · rw [hp]
    intro b hb _
    cases hb
    exact h

theorem done {a : α} (h : F a ts) : Reads ts 0 F (done a) :=
  success rfl (Nat.le_refl _) h

theorem fail {cause : Parse.Cause} : Reads ts n F (fail cause) where
  left := Nat.le_refl _
  faulty _ := List.cons_ne_nil _ _
  taken _ h := by cases h
  fits _ h := by cases h

theorem imp {G : α → List Token → Prop} (h : Reads ts n F p) (hm : m ≤ n)
    (hf : ∀ a rest, F a rest → G a rest) : Reads ts m G p where
  left := h.left
  faulty := h.faulty
  taken a ha := Nat.le_trans (Nat.add_le_add_left hm _) (h.taken a ha)
  fits a ha hno := hf a _ (h.fits a ha hno)

/-- One parser after another. What the first says is known when the second answers. -/
theorem bind {f : α → Parser β} (h : Reads ts n F p)
    (hf : ∀ a mid, mid.length + n ≤ ts.length →
      Reads mid m (fun b rest => F a mid → G b rest) (f a)) :
    Reads ts (n + m) G (p >>= f) := by
  have hrun : (p >>= f) ts = andThen p f ts := rfl
  unfold andThen at hrun
  cases hp : p ts with
  | mk value rest faults =>
    have hleft : rest.length ≤ ts.length := by simpa [hp] using h.left
    cases value with
    | none =>
      have hfaulty : faults ≠ [] := by simpa [hp] using h.faulty
      rw [hp] at hrun
      refine ⟨by rwa [hrun], fun _ => by rwa [hrun], fun b hb => ?_, fun b hb => ?_⟩
      all_goals
        rw [hrun] at hb
        cases hb
    | some a =>
      have htaken : rest.length + n ≤ ts.length := by simpa [hp] using h.taken a
      have hnext := hf a rest htaken
      rw [hp] at hrun
      refine ⟨?_, ?_, ?_, ?_⟩
      · rw [hrun]
        exact Nat.le_trans hnext.left hleft
      · rw [hrun]
        intro hnone
        exact List.append_ne_nil_of_right_ne_nil _ (hnext.faulty hnone)
      · rw [hrun]
        intro b hb
        have hmore := hnext.taken b hb
        dsimp only
        omega
      · rw [hrun]
        intro b hb hno
        obtain ⟨hfirst, hsecond⟩ := List.append_eq_nil_iff.mp hno
        have hfits : F a rest := by simpa [hp] using h.fits a (by rw [hp]) (by rw [hp]; exact hfirst)
        exact hnext.fits b hb hsecond hfits

/-- One parser after another, where it does not matter how much they take. -/
theorem next {f : α → Parser β} (h : Reads ts n F p)
    (hf : ∀ a mid, mid.length + n ≤ ts.length →
      Reads mid 0 (fun b rest => F a mid → G b rest) (f a)) :
    Reads ts 0 G (p >>= f) := (bind h hf).imp (Nat.zero_le _) fun _ _ h => h

/-- One parser after another, of which the first takes enough. -/
theorem first {f : α → Parser β} (h : Reads ts n F p)
    (hf : ∀ a mid, mid.length + n ≤ ts.length →
      Reads mid 0 (fun b rest => F a mid → G b rest) (f a)) :
    Reads ts n G (p >>= f) := bind h hf

theorem map {f : α → β} (h : Reads ts n F p) (hf : ∀ a rest, F a rest → G (f a) rest) :
    Reads ts n G (f <$> p) := by
  have hbind : Reads ts n G (p >>= fun a => Parser.done (f a)) :=
    h.first fun a mid _ => done (hf a mid)
  exact hbind

theorem mapped {f : α → β} (h : Reads ts n F p)
    (hf : ∀ a rest, F a rest → G (f a) rest) :
    Reads ts n G fun ts => (p ts).map f where
  left := h.left
  faulty hnone := h.faulty (Option.map_eq_none_iff.mp hnone)
  taken b hb := by
    obtain ⟨a, ha, -⟩ := Option.map_eq_some_iff.mp hb
    exact h.taken a ha
  fits b hb hno := by
    obtain ⟨a, ha, rfl⟩ := Option.map_eq_some_iff.mp hb
    exact hf a _ (h.fits a ha hno)

theorem expect {kind : Kind} {what : String} :
    Reads ts 1 (fun t rest => ts = t :: rest ∧ t.kind = kind) (expect kind what) := by
  cases ts with
  | nil => exact congr (q := Parser.fail (.expected what)) rfl fail
  | cons t ts =>
    by_cases h : t.kind = kind
    · exact success (by simp [Parser.expect, h, Parser.done]) (Nat.le_refl _) ⟨rfl, h⟩
    · exact congr (q := Parser.fail (.expected what)) (by simp [Parser.expect, h]) fail

theorem check {kind : Kind} :
    Reads ts 0 (fun b rest => b = nextIs [kind] ts ∧ rest = ts) (check kind) :=
  success rfl (Nat.le_refl _) ⟨rfl, rfl⟩

/-- A parser that takes a token and goes on as another one. -/
theorem shift {q : Parser α} {t : Token} {mid : List Token} (hq : p (t :: mid) = q mid)
    (h : Reads mid n F q) : Reads (t :: mid) (n + 1) F p := by
  refine ⟨?_, hq ▸ h.faulty, ?_, hq ▸ h.fits⟩
  · rw [hq, List.length_cons]
    exact Nat.le_succ_of_le h.left
  · rw [hq, List.length_cons]
    exact fun a ha => Nat.succ_le_succ (h.taken a ha)

/-- The next token is taken if it has one of some kinds. -/
theorem accepting {kinds : List Kind} {f : Option Token → Parser β}
    (hnone : nextIs kinds ts = false → Reads ts m G (f none))
    (hsome : ∀ t mid, ts = t :: mid → t.kind ∈ kinds → Reads mid (m - 1) G (f (some t))) :
    Reads ts m G (accept kinds >>= f) := by
  cases ts with
  | nil => exact congr (q := f none) rfl (hnone rfl)
  | cons t mid =>
    by_cases h : t.kind ∈ kinds
    · have hrun : (accept kinds >>= f) (t :: mid) = f (some t) mid := by
        have haccept : accept kinds (t :: mid) = ⟨some (some t), mid, []⟩ := by
          simp [accept, h, Parser.done]
        simp only [Bind.bind, andThen, haccept]
        rfl
      exact (shift hrun (hsome t mid rfl h)).imp (by omega) fun _ _ h => h
    · have hrun : (accept kinds >>= f) (t :: mid) = f none (t :: mid) := by
        have haccept : accept kinds (t :: mid) = ⟨some none, t :: mid, []⟩ := by
          simp [accept, h, Parser.done]
        simp only [Bind.bind, andThen, haccept]
        rfl
      exact congr hrun (hnone (by simp [nextIs, h]))

/-- A loop keeps what each of its steps keeps. -/
theorem repeated {step : α → Parser (Option α)} {I : α → List Token → Prop} {a : α}
    (hstep : ∀ a mid, mid.length ≤ ts.length →
      Reads mid 0 (fun b rest => I a mid → I (b.getD a) rest) (step a)) :
    Reads ts 0 (fun b rest => I a ts → I b rest) (repeated step a) := by
  suffices h : ∀ (fuel mid : List Token) (a : α), mid.length ≤ ts.length →
      Reads mid 0 (fun b rest => I a mid → I b rest) (repeatUpTo step fuel a) from
    congr (q := repeatUpTo step ts a) rfl (h ts ts a (Nat.le_refl _))
  intro fuel
  induction fuel with
  | nil => exact fun mid a _ => done id
  | cons _ fuel ih =>
    intro mid a hmid
    refine first (hstep a mid hmid) fun b rest hrest => ?_
    cases b with
    | none => exact done fun hI ha => hI ha
    | some b => exact (ih rest b (by omega)).imp (Nat.le_refl _) fun c _ hc hI ha => hc (hI ha)

/-- Items that are collected one by one, up to where the collection stops. -/
theorem collect {stop : List Token → Bool} {item : Parser (Option α)}
    {O : Option α → List Token → List Token → Prop}
    {M : List Token → List α → List Token → Prop} (hempty : stop [] = true)
    (hnil : ∀ ts, M ts [] ts)
    (hcons : ∀ ts a mid as rest, O a ts mid → M mid as rest → M ts (a.toList ++ as) rest)
    (hitem : ∀ mid, mid.length ≤ ts.length → mid ≠ [] → Reads mid 1 (fun a => O a mid) item) :
    Reads ts 0 (fun as rest => M ts as rest ∧ stop rest) (collect stop item) := by
  suffices h : ∀ fuel mid : List Token, mid.length ≤ fuel.length → mid.length ≤ ts.length →
      Reads mid 0 (fun as rest => M mid as rest ∧ stop rest) (collectUpTo stop item fuel) from
    congr (q := collectUpTo stop item ts) rfl (h ts ts (Nat.le_refl _) (Nat.le_refl _))
  intro fuel
  induction fuel with
  | nil =>
    intro mid hfuel _
    obtain rfl : mid = [] := List.eq_nil_of_length_eq_zero (Nat.le_zero.mp hfuel)
    exact done ⟨hnil [], hempty⟩
  | cons _ fuel ih =>
    intro mid hfuel hmid
    by_cases hstop : stop mid
    · exact congr (q := Parser.done []) (by simp [collectUpTo, hstop]) (done ⟨hnil mid, hstop⟩)
    · have hne : mid ≠ [] := by
        rintro rfl
        exact hstop hempty
      refine congr (q := item >>= fun a => collectUpTo stop item fuel >>= fun others =>
        Parser.done (a.toList ++ others)) (by simp [collectUpTo, hstop]) ?_
      refine next (hitem mid hmid hne) fun a rest hrest => ?_
      rw [List.length_cons] at hfuel
      refine first (ih rest (by omega) (by omega)) fun others rest' _ => done ?_
      intro hothers hone
      exact ⟨hcons _ _ _ _ _ hone hothers.1, hothers.2⟩

/-- Operands with operators between them. -/
theorem chain {l : Tier} (hl : l ≠ .primary) {operand : Parser RawExpr}
    (hoperand : ∀ mid, mid.length ≤ ts.length →
      Reads mid 1 (fun e rest => Derives (.expr l.tighter) mid e rest) operand) :
    Reads ts 1 (fun e rest => Derives (.expr l) ts e rest)
      (Parser.chain l.operators l.node operand) := by
  refine first (hoperand ts (Nat.le_refl _)) fun head mid hmid => ?_
  refine (repeated (I := fun e rest => Derives (.expr l) ts e rest) fun left now hnow => ?_).imp
    (Nat.le_refl _) fun e rest he hfirst => he (.pass hl hfirst)
  refine accepting (fun _ => done id) fun operator rest hrest hsign => ?_
  subst hrest
  rw [List.length_cons] at hnow
  refine next (hoperand rest (by omega)) fun right rest' _ => done ?_
  intro hright hleft
  exact .chain hleft hsign hright

/-- What is noted is a fault. -/
theorem noteAt {token : Option Token} {cause : Parse.Cause} :
    Reads ts 0 (fun _ _ => False) (noteAt token cause) where
  left := Nat.le_refl _
  faulty h := by cases h
  taken _ _ := Nat.le_refl _
  fits _ _ h := by cases h

theorem note {cause : Parse.Cause} : Reads ts 0 (fun _ _ => False) (note cause) :=
  congr (q := Parser.noteAt ts.head? cause) rfl noteAt

/-- Items with commas between them, of which there may be only so many. -/
theorem items {what : String} {item : Parser α} {O : α → List Token → List Token → Prop}
    {M : List α → List Token → Prop}
    (hitem : ∀ mid, mid.length ≤ ts.length → Reads mid 1 (fun a => O a mid) item)
    (hone : ∀ a rest, O a ts rest → M [a] rest)
    (hmore : ∀ as comma mid a rest, M as (comma :: mid) → comma.kind = .comma →
      O a mid rest → M (as ++ [a]) rest) :
    Reads ts 1 (fun as rest => M as rest ∧ as.length ≤ most) (items what item) := by
  refine first (hitem ts (Nat.le_refl _)) fun head mid _ => ?_
  refine (repeated (I := fun as rest => M as rest ∧ as.length ≤ most)
    fun found now hnow => ?_).imp (Nat.le_refl _)
    fun as rest has hfirst => has ⟨hone _ _ hfirst, by simp [most]⟩
  refine accepting (fun _ => done id) fun comma rest hrest hcomma => ?_
  subst hrest
  rw [List.length_cons] at hnow
  by_cases hfull : Parse.mostItems ≤ found.length
  · simp only [hfull, if_true]
    refine first note fun _ now' hnow' => ?_
    exact next (hitem now' (by omega)) fun a rest' _ => done fun _ h => h.elim
  · simp only [hfull]
    refine next (hitem rest (by omega)) fun a rest' _ => done ?_
    intro ha hfound
    refine ⟨hmore _ _ _ _ _ hfound.1 (by simpa using hcomma) ha, ?_⟩
    have hfew : found.length < most := Nat.lt_of_not_le hfull
    simp only [Option.getD_some, List.length_append, List.length_singleton]
    omega

end Reads
end Parser

namespace Parse
variable {k : Nested} {d : Nat} {ts : List Token}

/-- A statement of the grammar, which is closed if an `else` follows. -/
def IsStatement (ts : List Token) (s : RawStmt) (rest : List Token) : Prop :=
  Derives (.statement false) ts s rest ∧
    (nextIs [.kwElse] rest → Derives (.statement true) ts s rest)

/-- The rest of a block of the grammar behind its opening brace. -/
def IsBlockRest (ts : List Token) (body : List RawStmt) (rest : List Token) : Prop :=
  ∃ closing, Derives .declarations ts body (closing :: rest) ∧ closing.kind = .rightBrace

/-- The parsers for what is nested read what the grammar derives, if they are closed deeply
enough: for each token three levels, as at one token a block can open a statement and that an
assignment. -/
structure Nested.Sound (k : Nested) (d : Nat) : Prop where
  assignment : ∀ ts, 3 * ts.length + 1 ≤ d →
    Reads ts 1 (fun e rest => Derives (.expr .assignment) ts e rest) k.assignment
  statement : ∀ ts, 3 * ts.length + 2 ≤ d →
    Reads ts 1 (fun s rest => IsStatement ts s rest) k.statement
  block : ∀ ts, 3 * ts.length + 3 ≤ d →
    Reads ts 1 (fun body rest => IsBlockRest ts body rest) k.block

theorem expression_sound (hk : k.Sound d) (hd : 3 * ts.length + 1 ≤ d) :
    Reads ts 1 (fun e rest => Derives (.expr .comma) ts e rest) (expression k) :=
  .chain (l := .comma) (by decide) fun mid hmid => hk.assignment mid (by omega)

theorem routine_sound (hk : k.Sound d) (hd : 3 * ts.length ≤ d) (before role : String) :
    Reads ts 1 (fun r rest => Derives .routine ts r rest) (routine k before role) := by
  refine .first .expect fun opening mid hmid => .first .check fun empty now hnow => ?_
  have hrest (params : List Token) (now' : List Token) (hnow' : now'.length ≤ now.length) :
      Reads now' 0 (fun r rest => Derives .parameters now params now' →
        empty = nextIs [.rightParen] mid ∧ now = mid →
        ts = opening :: mid ∧ opening.kind = .leftParen → Derives .routine ts r rest)
        (do
          let _ ← expect .rightParen "')' after parameters"
          let _ ← expect .leftBrace ("'\x7b' before " ++ role ++ " body")
          let body ← k.block
          done (params, body)) := by
    refine .next .expect fun closing mid' hmid' => .next .expect fun brace mid'' hmid'' => ?_
    refine .next (hk.block mid'' (by omega)) fun body rest _ => .done ?_
    rintro ⟨last, hbody, hlast⟩ ⟨rfl, hbrace⟩ ⟨rfl, hclosing⟩ hparams ⟨-, rfl⟩ ⟨rfl, hopening⟩
    exact .routine hopening hparams hclosing (.block hbrace hbody hlast)
  split
  · exact .first (.done .noParameters) fun params now' hnow' => hrest params now' hnow'
  · have hitems : Reads now 1 (fun params rest => Derives .parameterList now params rest ∧
        params.length ≤ most) (items "parameters" (expect .identifier "parameter name")) := by
      refine .items (fun _ _ => .expect) ?_ ?_
      · rintro t rest ⟨rfl, hname⟩
        exact .parameter hname
      · rintro params comma mid t rest hparams hcomma ⟨rfl, hname⟩
        exact .moreParameters hparams hcomma hname
    refine .next hitems fun params now' hnow' => (hrest params now' (by omega)).imp (Nat.le_refl _) ?_
    exact fun _ _ h hparams => h (.someParameters hparams.1 hparams.2)

theorem functionLiteral_sound (hk : k.Sound d) (hd : 3 * ts.length ≤ d) {keyword : Token}
    (hkeyword : keyword.kind = .kwFun) :
    Reads ts 1 (fun e rest => Derives (.expr .primary) (keyword :: ts) e rest)
      (functionLiteral k) := by
  refine .accepting (fun _ => ?_) fun name mid hmid hname => ?_
  · refine .first (routine_sound hk hd _ _) fun r rest _ => .done ?_
    exact fun hr => .function hkeyword hr
  · subst hmid
    rw [List.length_cons] at hd
    refine .next (routine_sound hk (by omega) _ _) fun r rest _ => .done ?_
    exact fun hr => .namedFunction hkeyword (by simpa using hname) hr

theorem primary_sound (hk : k.Sound d) (hd : 3 * ts.length ≤ d) :
    Reads ts 1 (fun e rest => Derives (.expr .primary) ts e rest) (primary k) := by
  cases ts with
  | nil => exact .congr (q := fail (.expected "expression")) rfl .fail
  | cons t ts =>
    rw [List.length_cons] at hd
    have hconstant (v : Literal) (hv : constant? t = some v)
        (hrun : primary k (t :: ts) = done (.literal v) ts) :
        Reads (t :: ts) 1 (fun e rest => Derives (.expr .primary) (t :: ts) e rest) (primary k) :=
      .shift (q := done (.literal v)) hrun (.done (.constant hv))
    cases ht : t.kind with
    | kwFalse => exact hconstant (.bool false) (by simp [constant?, ht]) (by simp [primary, ht])
    | kwTrue => exact hconstant (.bool true) (by simp [constant?, ht]) (by simp [primary, ht])
    | kwNil => exact hconstant .nil (by simp [constant?, ht]) (by simp [primary, ht])
    | number => exact hconstant t.literal (by simp [constant?, ht]) (by simp [primary, ht])
    | string => exact hconstant t.literal (by simp [constant?, ht]) (by simp [primary, ht])
    | kwThis =>
      exact .shift (q := done (.this t ())) (by simp [primary, ht]) (.done (.this ht))
    | identifier =>
      exact .shift (q := done (.variable t ())) (by simp [primary, ht]) (.done (.name ht))
    | kwFun =>
      exact (Reads.shift (q := functionLiteral k) (by simp [primary, ht])
        (functionLiteral_sound hk (by omega) ht)).imp (by omega) fun _ _ h => h
    | leftParen =>
      refine .shift (q := groupRest k) (by simp [primary, ht]) (.next (expression_sound hk (by omega))
        fun inner mid _ => .next .expect fun closing rest _ => .done ?_)
      rintro ⟨rfl, hclosing⟩ hinner
      exact .grouping ht hinner hclosing
    | _ => exact .congr (q := fail (.expected "expression")) (by simp [primary, ht]) .fail

theorem callRest_sound (hk : k.Sound d) (hd : 3 * ts.length + 1 ≤ d) {callee : RawExpr}
    {start : List Token} {opening : Token} (hopening : opening.kind = .leftParen) :
    Reads ts 0 (fun e rest => Derives (.expr .call) start callee (opening :: ts) →
      Derives (.expr .call) start e rest) (callRest k callee) := by
  refine .first .check fun empty now hnow => ?_
  have hrest (es : List RawExpr) (now' : List Token) :
      Reads now' 0 (fun e rest => Derives .arguments now es now' →
        empty = nextIs [.rightParen] ts ∧ now = ts →
        Derives (.expr .call) start callee (opening :: ts) → Derives (.expr .call) start e rest)
        (do
          let paren ← expect .rightParen "')' after arguments"
          done (.call callee paren es)) := by
    refine .next .expect fun closing rest _ => .done ?_
    rintro ⟨rfl, hclosing⟩ hes ⟨-, rfl⟩ hcallee
    exact .call hcallee hopening hes hclosing
  split
  · exact .first (.done .noArguments) fun es now' _ => hrest es now'
  · have hitems : Reads now 1 (fun es rest => Derives .argumentList now es rest ∧
        es.length ≤ most) (items "arguments" k.assignment) := by
      refine .items (O := fun e mid rest => Derives (.expr .assignment) mid e rest)
        (fun mid _ => hk.assignment mid (by omega)) ?_ ?_
      · exact fun e rest he => .argument he
      · exact fun es comma mid e rest hes hcomma he => .moreArguments hes hcomma he
    refine .next hitems fun es now' _ => (hrest es now').imp (Nat.le_refl _) ?_
    exact fun _ _ h hes => h (.someArguments hes.1 hes.2)

theorem suffix?_sound (hk : k.Sound d) (hd : 3 * ts.length ≤ d) {left : RawExpr}
    {start : List Token} :
    Reads ts 0 (fun e rest => Derives (.expr .call) start left ts →
      Derives (.expr .call) start (e.getD left) rest) (suffix? k left) := by
  cases ts with
  | nil => exact .congr (q := done none) rfl (.done id)
  | cons t ts =>
    rw [List.length_cons] at hd
    cases ht : t.kind with
    | leftParen =>
      exact (Reads.shift (q := some <$> callRest k left) (by simp [suffix?, ht])
        (.map (callRest_sound hk (by omega) ht) fun _ _ he => he)).imp (Nat.zero_le _) fun _ _ h => h
    | dot =>
      refine (Reads.shift (q := expect .identifier "property name after '.'" >>= fun name =>
        done (some (Expr.get left name))) (by simp [suffix?, ht])
        (.next .expect fun name rest _ => .done ?_)).imp (Nat.zero_le _) fun _ _ h => h
      rintro ⟨rfl, hname⟩ hleft
      exact .get hleft ht hname
    | _ => exact .congr (q := done none) (by simp [suffix?, ht]) (.done id)

theorem call_sound (hk : k.Sound d) (hd : 3 * ts.length ≤ d) :
    Reads ts 1 (fun e rest => Derives (.expr .call) ts e rest) (call k) := by
  refine .first (primary_sound hk hd) fun head mid hmid => ?_
  refine (Reads.repeated (I := fun e rest => Derives (.expr .call) ts e rest)
    fun left now hnow => suffix?_sound hk (by omega)).imp (Nat.le_refl _) ?_
  exact fun e rest he hhead => he (.pass (by decide) hhead)

theorem unary_sound (hk : k.Sound d) (hd : 3 * ts.length ≤ d) :
    Reads ts 1 (fun e rest => Derives (.expr .unary) ts e rest) (unary k) := by
  induction ts with
  | nil => exact .congr (q := call k) rfl ((call_sound hk hd).imp (Nat.le_refl _)
      fun _ _ h => .pass (by decide) h)
  | cons t ts ih =>
    rw [List.length_cons] at hd
    by_cases ht : t.kind = .bang ∨ t.kind = .minus
    · have hmap : Reads ts 1 (fun e rest => Derives (.expr .unary) (t :: ts) e rest)
          fun ts => (unary k ts).map (.unary t) :=
        .mapped (ih (by omega)) fun e rest he => .unary (by simpa using ht) he
      exact (Reads.shift (by simp [unary, ht]) hmap).imp (by omega) fun _ _ h => h
    · refine .congr (q := call k) (by simp [unary, ht]) ((call_sound hk ?_).imp (Nat.le_refl _)
        fun _ _ h => .pass (by decide) h)
      rw [List.length_cons]
      exact hd

theorem operation_sound (hk : k.Sound d) (hd : 3 * ts.length ≤ d) :
    Reads ts 1 (fun e rest => Derives (.expr .or) ts e rest) (operation k) := by
  refine .chain (l := .or) (by decide) fun ts₁ h₁ => ?_
  refine .chain (l := .and) (by decide) fun ts₂ h₂ => ?_
  refine .chain (l := .equality) (by decide) fun ts₃ h₃ => ?_
  refine .chain (l := .comparison) (by decide) fun ts₄ h₄ => ?_
  refine .chain (l := .addition) (by decide) fun ts₅ h₅ => ?_
  refine .chain (l := .multiplication) (by decide) fun ts₆ h₆ => ?_
  refine .chain (l := .modulo) (by decide) fun ts₇ h₇ => ?_
  refine .chain (l := .exponent) (by decide) fun ts₈ h₈ => ?_
  exact unary_sound hk (by omega)

theorem compoundOperator_eq (sign : Token) : compoundOperator sign = compound sign := by
  unfold compoundOperator compound
  cases sign.kind <;> rfl

/-- Trees of names and fields. -/
def IsTarget : RawExpr → Prop
  | .variable _ _ => True
  | .get _ _ => True
  | _ => False

/-- A name or a field has no operators around it. -/
theorem tighter_of_target {l : Tier} {e : RawExpr} {rest : List Token}
    (h : Derives (.expr l) ts e rest) (hl : l ∉ [Tier.assignment, .call, .primary])
    (he : IsTarget e) : Derives (.expr l.tighter) ts e rest := by
  cases h with
  | pass _ operand => exact operand
  | chain _ _ _ => cases l <;> exact he.elim
  | unary _ _ => exact he.elim
  | _ => simp at hl

theorem call_of_target {e : RawExpr} {rest : List Token} (h : Derives (.expr .or) ts e rest)
    (he : IsTarget e) : Derives (.expr .call) ts e rest := by
  have hand := tighter_of_target h (by decide) he
  have hequality := tighter_of_target hand (by decide) he
  have hcomparison := tighter_of_target hequality (by decide) he
  have haddition := tighter_of_target hcomparison (by decide) he
  have hmultiplication := tighter_of_target haddition (by decide) he
  have hmodulo := tighter_of_target hmultiplication (by decide) he
  have hexponent := tighter_of_target hmodulo (by decide) he
  have hunary := tighter_of_target hexponent (by decide) he
  exact tighter_of_target hunary (by decide) he

/-- An assignment is read as an operation, a sign and a value; the operation has to be a name
or a field. -/
theorem assignment_sound (hk : k.Sound d) (hd : 3 * ts.length ≤ d) :
    Reads ts 1 (fun e rest => Derives (.expr .assignment) ts e rest) (assignment k) := by
  refine .first (operation_sound hk hd) fun left mid hmid => ?_
  refine .accepting (fun _ => .done fun h => .pass (by decide) h) fun sign mid' hmid' hsign => ?_
  subst hmid'
  rw [List.length_cons] at hmid
  refine .next (hk.assignment mid' (by omega)) fun value rest _ => ?_
  cases left with
  | get object name =>
    refine .done fun hvalue hleft => ?_
    rw [compoundOperator_eq]
    cases call_of_target hleft trivial with
    | get owner dotted named => exact .assignField owner dotted named hsign hvalue
    | pass _ operand => cases operand with | pass h => exact absurd rfl h
  | «variable» name mark =>
    refine .done fun hvalue hleft => ?_
    rw [compoundOperator_eq]
    cases call_of_target hleft trivial with
    | pass _ operand =>
      cases operand with
      | pass h => exact absurd rfl h
      | name named => exact .assignName named hsign hvalue
  | _ => exact .first .noteAt fun _ _ _ => .done fun h => h.elim

theorem exprStmt_sound (hk : k.Sound d) (hd : 3 * ts.length + 1 ≤ d) :
    Reads ts 1 (fun s rest => Derives .exprStmt ts s rest) (expressionStatement k) := by
  refine .first (expression_sound hk hd) fun value mid _ => .next .expect fun semicolon rest _ =>
    .done ?_
  rintro ⟨rfl, hsemicolon⟩ hvalue
  exact .exprStmt hvalue hsemicolon

theorem varRest_sound (hk : k.Sound d) (hd : 3 * ts.length + 1 ≤ d) {keyword : Token}
    (hkeyword : keyword.kind = .kwVar) :
    Reads ts 1 (fun s rest => Derives .varDecl (keyword :: ts) s rest) (varRest k) := by
  refine .first .expect fun name mid hmid => ?_
  refine .accepting (fun _ => ?_) fun equal mid' hmid' hequal => ?_
  · refine .first (.done (F := fun e rest => e = none ∧ rest = mid) ⟨rfl, rfl⟩) fun e mid' _ =>
      .next .expect fun semicolon rest _ => .done ?_
    rintro ⟨rfl, hsemicolon⟩ ⟨rfl, rfl⟩ ⟨rfl, hname⟩
    exact .varDecl hkeyword hname hsemicolon
  · subst hmid'
    rw [List.length_cons] at hmid
    refine .next (.map (G := fun e rest => ∃ value, e = some value ∧
      Derives (.expr .comma) mid' value rest) (expression_sound hk (by omega))
      fun value rest h => ⟨value, rfl, h⟩) fun e mid'' _ =>
        .next .expect fun semicolon rest _ => .done ?_
    rintro ⟨rfl, hsemicolon⟩ ⟨value, rfl, hvalue⟩ ⟨rfl, hname⟩
    exact .varDeclWith hkeyword hname (by simpa using hequal) hvalue hsemicolon

theorem forInitializer_sound (hk : k.Sound d) (hd : 3 * ts.length + 1 ≤ d) :
    Reads ts 1 (fun s rest => Derives .forStart ts s rest) (forInitializer k) := by
  cases ts with
  | nil =>
    exact .congr (q := some <$> expressionStatement k) rfl
      (.map (exprStmt_sound hk hd) fun s rest h => .forExpr h)
  | cons t ts =>
    cases ht : t.kind with
    | semicolon =>
      exact .shift (q := done none) (by simp [forInitializer, ht]) (.done (.forNothing ht))
    | kwVar =>
      rw [List.length_cons] at hd
      exact (Reads.shift (q := some <$> varRest k) (by simp [forInitializer, ht])
        (.map (varRest_sound hk (by omega) ht) fun s rest h => .forVar h)).imp (by omega)
        fun _ _ h => h
    | _ =>
      exact .congr (q := some <$> expressionStatement k) (by simp [forInitializer, ht])
        (.map (exprStmt_sound hk hd) fun s rest h => .forExpr h)

theorem expressionUnless_sound (hk : k.Sound d) (hd : 3 * ts.length + 1 ≤ d) (kind : Kind) :
    Reads ts 0 (fun e rest => Derives .option ts e rest) (expressionUnless k kind) := by
  refine .first .check fun missing now hnow => ?_
  split
  · refine .done ?_
    rintro ⟨-, rfl⟩
    exact .noExpr
  · refine (Reads.map (G := fun e rest => Derives .option now e rest)
      (expression_sound hk (by omega)) fun e rest h => .someExpr h).imp (Nat.zero_le _) ?_
    rintro e rest h ⟨-, rfl⟩
    exact h

theorem IsStatement.of_all {s : RawStmt} {rest : List Token}
    (h : ∀ closed, Derives (.statement closed) ts s rest) : IsStatement ts s rest :=
  ⟨h false, fun _ => h true⟩

theorem forRest_sound (hk : k.Sound d) (hd : 3 * ts.length + 1 ≤ d) {keyword : Token}
    (hkeyword : keyword.kind = .kwFor) :
    Reads ts 1 (fun s rest => IsStatement (keyword :: ts) s rest) (forRest k) := by
  refine .first .expect fun opening mid hmid => ?_
  refine .next (forInitializer_sound hk (by omega)) fun initializer mid₁ h₁ => ?_
  refine .next (expressionUnless_sound hk (by omega) _) fun condition mid₂ h₂ => ?_
  refine .next .expect fun semicolon mid₃ h₃ => ?_
  refine .next (expressionUnless_sound hk (by omega) _) fun increment mid₄ h₄ => ?_
  refine .next .expect fun closing mid₅ h₅ => ?_
  refine .next (hk.statement mid₅ (by omega)) fun body rest _ => ?_
  have hloop (hbody : IsStatement mid₅ body rest)
      (hclosing : mid₄ = closing :: mid₅ ∧ closing.kind = .rightParen)
      (hincrement : Derives .option mid₃ increment mid₄)
      (hsemicolon : mid₂ = semicolon :: mid₃ ∧ semicolon.kind = .semicolon)
      (hcondition : Derives .option mid₁ condition mid₂)
      (hinitializer : Derives .forStart mid initializer mid₁)
      (hopening : ts = opening :: mid ∧ opening.kind = .leftParen) :
      IsStatement (keyword :: ts) (forTree initializer condition increment body) rest := by
    obtain ⟨rfl, hclosing⟩ := hclosing
    obtain ⟨rfl, hsemicolon⟩ := hsemicolon
    obtain ⟨rfl, hopening⟩ := hopening
    exact ⟨.forStmt hkeyword hopening hinitializer hcondition hsemicolon hincrement hclosing
      hbody.1, fun helse => .forStmt hkeyword hopening hinitializer hcondition hsemicolon
      hincrement hclosing (hbody.2 helse)⟩
  cases initializer with
  | none => exact .done hloop
  | some s => exact .done hloop

theorem whileRest_sound (hk : k.Sound d) (hd : 3 * ts.length + 1 ≤ d) {keyword : Token}
    (hkeyword : keyword.kind = .kwWhile) :
    Reads ts 1 (fun s rest => IsStatement (keyword :: ts) s rest) (whileRest k) := by
  refine .first .expect fun opening mid hmid => ?_
  refine .next (expression_sound hk (by omega)) fun condition mid₁ h₁ => ?_
  refine .next .expect fun closing mid₂ h₂ => ?_
  refine .next (hk.statement mid₂ (by omega)) fun body rest _ => .done ?_
  rintro hbody ⟨rfl, hclosing⟩ hcondition ⟨rfl, hopening⟩
  exact ⟨.whileStmt hkeyword hopening hcondition hclosing hbody.1,
    fun helse => .whileStmt hkeyword hopening hcondition hclosing (hbody.2 helse)⟩

/-- Where an `else` follows it is taken, so what stands before it is closed. -/
theorem ifRest_sound (hk : k.Sound d) (hd : 3 * ts.length + 1 ≤ d) {keyword : Token}
    (hkeyword : keyword.kind = .kwIf) :
    Reads ts 1 (fun s rest => IsStatement (keyword :: ts) s rest) (ifRest k) := by
  refine .first .expect fun opening mid hmid => ?_
  refine .next (expression_sound hk (by omega)) fun condition mid₁ h₁ => ?_
  refine .next .expect fun closing mid₂ h₂ => ?_
  refine .next (hk.statement mid₂ (by omega)) fun yes mid₃ h₃ => ?_
  refine .accepting (fun hnone => ?_) fun other mid₄ hmid₄ hother => ?_
  · refine .first (.done (F := fun no rest => no = none ∧ rest = mid₃) ⟨rfl, rfl⟩)
      fun no rest _ => .done ?_
    rintro ⟨rfl, rfl⟩ hyes ⟨rfl, hclosing⟩ hcondition ⟨rfl, hopening⟩
    refine ⟨.ifStmt hkeyword hopening hcondition hclosing hyes.1, fun helse => ?_⟩
    rw [hnone] at helse
    cases helse
  · subst hmid₄
    rw [List.length_cons] at h₃
    refine .next (.map (G := fun no rest => ∃ s, no = some s ∧ IsStatement mid₄ s rest)
      (hk.statement mid₄ (by omega)) fun s rest h => ⟨s, rfl, h⟩) fun no rest _ => .done ?_
    rintro ⟨no, rfl, hno⟩ hyes ⟨rfl, hclosing⟩ hcondition ⟨rfl, hopening⟩
    have helse : other.kind = .kwElse := by simpa using hother
    have hclosed := hyes.2 (by simp [nextIs, helse])
    exact ⟨.ifElseStmt hkeyword hopening hcondition hclosing hclosed helse hno.1,
      fun h => .ifElseStmt hkeyword hopening hcondition hclosing hclosed helse (hno.2 h)⟩

theorem printRest_sound (hk : k.Sound d) (hd : 3 * ts.length + 1 ≤ d) {keyword : Token}
    (hkeyword : keyword.kind = .kwPrint) :
    Reads ts 1 (fun s rest => IsStatement (keyword :: ts) s rest) (printRest k) := by
  refine .first (expression_sound hk hd) fun value mid _ => .next .expect fun semicolon rest _ =>
    .done ?_
  rintro ⟨rfl, hsemicolon⟩ hvalue
  exact .of_all fun _ => .print hkeyword hvalue hsemicolon

theorem returnRest_sound (hk : k.Sound d) (hd : 3 * ts.length + 1 ≤ d) {keyword : Token}
    (hkeyword : keyword.kind = .kwReturn) :
    Reads ts 0 (fun s rest => IsStatement (keyword :: ts) s rest) (returnRest k keyword) := by
  refine .first .check fun bare now hnow => ?_
  have hrest (value : Option RawExpr) (mid : List Token) :
      Reads mid 0 (fun s rest => Derives .option now value mid →
        bare = nextIs [.semicolon] ts ∧ now = ts → IsStatement (keyword :: ts) s rest)
        (do
          let _ ← expect .semicolon "';' after return value"
          done (.returnFrom keyword value)) := by
    refine .next .expect fun semicolon rest _ => .done ?_
    rintro ⟨rfl, hsemicolon⟩ hvalue ⟨-, rfl⟩
    exact .of_all fun _ => .returnStmt hkeyword hvalue hsemicolon
  split
  · exact .first (.done .noExpr) fun value mid _ => hrest value mid
  · exact .next (.map (G := fun e rest => Derives .option now e rest)
      (expression_sound hk (by omega)) fun e rest h => .someExpr h) fun value mid _ =>
        hrest value mid

theorem loopExitRest_sound {keyword : Token} {make : Token → RawStmt}
    (hmake : ∀ semicolon rest closed, semicolon.kind = .semicolon →
      Derives (.statement closed) (keyword :: semicolon :: rest) (make keyword) rest) :
    Reads ts 1 (fun s rest => IsStatement (keyword :: ts) s rest)
      (loopExitRest keyword make) := by
  refine .first .expect fun semicolon rest _ => .done ?_
  rintro ⟨rfl, hsemicolon⟩
  exact .of_all fun closed => hmake semicolon rest closed hsemicolon

theorem statement_sound (hk : k.Sound d) (hd : 3 * ts.length + 1 ≤ d) :
    Reads ts 1 (fun s rest => IsStatement ts s rest) (statement k) := by
  have hexpr : Reads ts 1 (fun s rest => IsStatement ts s rest) (expressionStatement k) :=
    (exprStmt_sound hk hd).imp (Nat.le_refl _) fun _ _ h => .of_all fun _ => .expression h
  cases ts with
  | nil => exact .congr (q := expressionStatement k) rfl hexpr
  | cons t ts =>
    rw [List.length_cons] at hd
    have hd' : 3 * ts.length + 1 ≤ d := by omega
    have hkeyword {q : Parser RawStmt} {n : Nat} (hrun : statement k (t :: ts) = q ts)
        (h : Reads ts n (fun s rest => IsStatement (t :: ts) s rest) q) :
        Reads (t :: ts) 1 (fun s rest => IsStatement (t :: ts) s rest) (statement k) :=
      (Reads.shift hrun h).imp (by omega) fun _ _ h => h
    cases ht : t.kind with
    | kwFor => exact hkeyword (by simp [statement, ht]) (forRest_sound hk hd' ht)
    | kwIf => exact hkeyword (by simp [statement, ht]) (ifRest_sound hk hd' ht)
    | kwWhile => exact hkeyword (by simp [statement, ht]) (whileRest_sound hk hd' ht)
    | kwPrint => exact hkeyword (by simp [statement, ht]) (printRest_sound hk hd' ht)
    | kwReturn => exact hkeyword (by simp [statement, ht]) (returnRest_sound hk hd' ht)
    | kwBreak =>
      exact hkeyword (by simp [statement, ht])
        (loopExitRest_sound fun _ _ _ hsemicolon => .breakStmt ht hsemicolon)
    | kwContinue =>
      exact hkeyword (by simp [statement, ht])
        (loopExitRest_sound fun _ _ _ hsemicolon => .continueStmt ht hsemicolon)
    | leftBrace =>
      refine hkeyword (q := fun ts => (k.block ts).map .block) (by simp [statement, ht])
        (.mapped (hk.block ts (by omega)) ?_)
      rintro body rest ⟨closing, hbody, hclosing⟩
      exact .of_all fun _ => .blockStmt (.block ht hbody hclosing)
    | _ => exact .congr (q := expressionStatement k) (by simp [statement, ht]) hexpr

theorem classRest_sound (hk : k.Sound d) (hd : 3 * ts.length ≤ d) {keyword : Token}
    (hkeyword : keyword.kind = .kwClass) :
    Reads ts 1 (fun s rest => Derives .declaration (keyword :: ts) s rest) (classRest k) := by
  have hmethod (mid : List Token) (hmid : mid.length ≤ ts.length) :
      Reads mid 1 (fun m rest => ∃ name params body, m = some (.mk name params body) ∧
        ∃ inner, mid = name :: inner ∧ name.kind = .identifier ∧
          Derives .routine inner (params, body) rest) (some <$> method k) := by
    refine .map (F := fun m rest => ∃ name params body, m = .mk name params body ∧
      ∃ inner, mid = name :: inner ∧ name.kind = .identifier ∧
        Derives .routine inner (params, body) rest) ?_ ?_
    · refine .first .expect fun name inner _ => ?_
      refine .next (routine_sound hk (by omega) _ _) fun r rest _ => .done ?_
      rintro hr ⟨rfl, hname⟩
      exact ⟨name, r.1, r.2, rfl, inner, rfl, hname, hr⟩
    · rintro m rest ⟨name, params, body, rfl, h⟩
      exact ⟨name, params, body, rfl, h⟩
  refine .first .expect fun name mid hmid => .next .expect fun opening mid₁ h₁ => ?_
  refine .next (.collect (M := fun now methods rest => Derives .methods now methods rest) rfl
    (fun _ => .noMethods) ?_ fun now hnow _ => hmethod now (by omega)) fun methods mid₂ h₂ =>
      .next .expect fun closing rest _ => .done ?_
  · rintro now m mid methods rest ⟨name, params, body, rfl, inner, rfl, hname, hroutine⟩ hmethods
    exact .moreMethods hname hroutine hmethods
  · rintro ⟨rfl, hclosing⟩ ⟨hmethods, -⟩ ⟨rfl, hopening⟩ ⟨rfl, hname⟩
    exact .classDecl hkeyword hname hopening hmethods hclosing

theorem declarationBody_sound (hk : k.Sound d) (hd : 3 * ts.length + 2 ≤ d) :
    Reads ts 1 (fun s rest => Derives .declaration ts s rest) (declarationBody k) := by
  have hstatement (hother : ¬ StartsFunction ts) :
      Reads ts 1 (fun s rest => Derives .declaration ts s rest) k.statement :=
    (hk.statement ts hd).imp (Nat.le_refl _) fun _ _ h => .statement h.1 hother
  cases ts with
  | nil =>
    refine .congr (q := k.statement) rfl (hstatement ?_)
    rintro ⟨keyword, name, rest, h, -⟩
    cases h
  | cons t ts =>
    rw [List.length_cons] at hd
    have hother (hkind : t.kind ≠ .kwFun) : ¬ StartsFunction (t :: ts) := by
      rintro ⟨keyword, name, rest, h, hkeyword, -⟩
      cases h
      exact hkind hkeyword
    cases ht : t.kind with
    | kwClass =>
      exact (Reads.shift (q := classRest k) (by simp [declarationBody, ht])
        (classRest_sound hk (by omega) ht)).imp (by omega) fun _ _ h => h
    | kwVar =>
      exact (Reads.shift (q := varRest k) (by simp [declarationBody, ht])
        (.imp (varRest_sound hk (by omega) ht) (Nat.le_refl _) fun _ _ h => .variableDecl h)).imp
        (by omega) fun _ _ h => h
    | kwFun =>
      by_cases hnext : nextIs [.identifier] ts
      · refine (Reads.shift (q := functionRest k) (by simp [declarationBody, ht, hnext])
          (.first .expect fun name mid _ => .next (routine_sound hk (by omega) _ _)
            fun r rest _ => .done ?_)).imp (by omega) fun _ _ h => h
        rintro hr ⟨rfl, hname⟩
        exact .funDecl ht hname hr
      · refine .congr (q := k.statement) (by simp [declarationBody, ht, hnext]) (hstatement ?_)
        rintro ⟨keyword, name, rest, h, -, hname⟩
        cases h
        exact hnext (by simp [nextIs, hname])
    | _ =>
      exact .congr (q := k.statement) (by simp [declarationBody, ht])
        (hstatement (hother (by simp [ht])))

theorem length_skipFrom (previous : Token) (ts : List Token) :
    (skipFrom previous ts).length ≤ ts.length := by
  induction ts generalizing previous with
  | nil => exact Nat.le_refl _
  | cons t ts ih =>
    unfold skipFrom
    split
    · exact Nat.le_refl _
    · exact Nat.le_succ_of_le (ih t)

/-- A declaration takes a token in any case, and gives up only with a fault. -/
theorem declaration_sound (hk : k.Sound d) (hd : 3 * ts.length + 2 ≤ d) (hts : ts ≠ []) :
    Reads ts 1 (fun s rest => ∃ s', s = some s' ∧ Derives .declaration ts s' rest)
      (declaration k) := by
  have hbody := declarationBody_sound hk hd
  have hpos : 0 < ts.length := List.length_pos_iff.mpr hts
  cases hvalue : (declarationBody k ts).value with
  | some s =>
    have hrun : declaration k ts =
        ⟨some (some s), (declarationBody k ts).rest, (declarationBody k ts).faults⟩ := by
      simp [declaration, hvalue]
    refine ⟨hrun ▸ hbody.left, ?_, hrun ▸ fun _ _ => hbody.taken s hvalue, ?_⟩
    · rw [hrun]
      intro hnone
      cases hnone
    · rw [hrun]
      intro a ha hno
      cases ha
      exact ⟨s, rfl, hbody.fits s hvalue hno⟩
  | none =>
    have hrun : declaration k ts =
        ⟨some none, recover (declarationBody k ts).rest, (declarationBody k ts).faults⟩ := by
      simp [declaration, hvalue]
    have htaken : (recover (declarationBody k ts).rest).length + 1 ≤ ts.length := by
      have hleft := hbody.left
      cases hrest : (declarationBody k ts).rest with
      | nil => exact hpos
      | cons t rest =>
        rw [hrest, List.length_cons] at hleft
        exact Nat.le_trans (Nat.succ_le_succ (length_skipFrom t rest)) hleft
    refine ⟨hrun ▸ Nat.le_of_succ_le htaken, ?_, hrun ▸ fun _ _ => htaken, ?_⟩
    · rw [hrun]
      intro hnone
      cases hnone
    · rw [hrun]
      exact fun _ _ hno => absurd hno (hbody.faulty hvalue)

theorem declarations_sound (hk : k.Sound d) (hd : 3 * ts.length + 2 ≤ d) {stop : List Token → Bool}
    (hstop : stop [] = true) :
    Reads ts 0 (fun body rest => Derives .declarations ts body rest ∧ stop rest)
      (collect stop (declaration k)) := by
  refine .collect (M := fun now body rest => Derives .declarations now body rest) hstop
    (fun _ => .noDeclarations) ?_ fun mid hmid hne => declaration_sound hk (by omega) hne
  rintro now s mid body rest ⟨s', rfl, hs⟩ hbody
  exact .moreDeclarations hs hbody

theorem block_sound (hk : k.Sound d) (hd : 3 * ts.length + 2 ≤ d) :
    Reads ts 1 (fun body rest => IsBlockRest ts body rest) (block k) := by
  refine .bind (n := 0) (declarations_sound hk hd rfl) fun body mid _ =>
    .first .expect fun closing rest _ => .done ?_
  rintro ⟨rfl, hclosing⟩ ⟨hbody, -⟩
  exact ⟨closing, hbody, hclosing⟩

theorem nested_sound (d : Nat) : (nested d).Sound d := by
  -- Without levels left there are no tokens for which anything would have to be shown.
  induction d with
  | zero => exact ⟨fun ts hd => by omega, fun ts hd => by omega, fun ts hd => by omega⟩
  | succ d ih =>
    exact ⟨fun ts hd => assignment_sound ih (by omega), fun ts hd => statement_sound ih (by omega),
      fun ts hd => block_sound ih (by omega)⟩

/-- A program without faults is derived by the grammar. -/
theorem program_sound (ts : List Token) :
    Reads ts 0 (fun body rest => Derives .declarations ts body rest ∧ rest = []) program := by
  have hdepth : 3 * ts.length + 2 ≤ depthFor ts.length := by
    unfold depthFor
    omega
  have hempty : List.isEmpty ([] : List Token) = true := rfl
  have hall := declarations_sound (nested_sound (depthFor ts.length)) hdepth hempty
  refine (Reads.congr (p := program) ?_ hall).imp (Nat.le_refl _)
    fun body rest h => ⟨h.1, List.isEmpty_iff.mp h.2⟩
  unfold program
  rfl

end Parse
end LoxScript
