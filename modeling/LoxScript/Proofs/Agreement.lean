import LoxScript.Proofs.ParserSoundness

/-!
Parsers that read alike.

A reading goes forward over its tokens, and all that it does depends on the tokens to which it came.
So it does not matter how deeply the grammar is closed, as long as that is deep enough for the
tokens. And an expression takes no semicolon, unless it has a block inside: on a ground that only a
semicolon leads out of, a reading of an expression stays, with its faults at tokens on that ground.
-/
namespace LoxScript

namespace Parse

/-- Places that a reading comes to, each given by the tokens that are left there. Only a semicolon
leads out of them. -/
structure Ground where
  holds : List Token → Prop
  closed : ∀ {t : Token} {ts : List Token}, holds (t :: ts) → t.kind ≠ .semicolon → holds ts

/-- The ground of all places. -/
def Ground.everywhere : Ground := ⟨fun _ => True, fun _ _ => trivial⟩

end Parse

namespace Parser
open Parse

/-- Two parsers read some tokens alike, with one answer: a success takes at least `taken` tokens and
nothing is given back. What is left is on the ground, and so are the tokens at which faults
stand. -/
structure Agree {α : Type} (G : Ground) (ts : List Token) (taken : Nat) (p q : Parser α) :
    Prop where
  same : p ts = q ts
  shorter : (p ts).rest.length ≤ ts.length
  taken : (p ts).value.isSome → (p ts).rest.length + taken ≤ ts.length
  inside : G.holds (p ts).rest
  faults : ∀ f ∈ (p ts).faults, ∃ now, G.holds now ∧ f.token = now.head?

section Bind
variable {α β : Type} {p : Parser α} {ts rest : List Token} {faults : List Parse.Fault}

theorem bind_of_none (f : α → Parser β) (h : p ts = ⟨none, rest, faults⟩) :
    (p >>= f) ts = ⟨none, rest, faults⟩ := by
  have hrun : (p >>= f) ts = andThen p f ts := rfl
  rw [hrun, andThen, h]

theorem bind_of_some (f : α → Parser β) {a : α} (h : p ts = ⟨some a, rest, faults⟩) :
    (p >>= f) ts = ⟨(f a rest).value, (f a rest).rest, faults ++ (f a rest).faults⟩ := by
  have hrun : (p >>= f) ts = andThen p f ts := rfl
  rw [hrun, andThen, h]

end Bind

namespace Agree
variable {α β : Type} {G : Ground} {ts : List Token} {n m : Nat} {p q : Parser α}

theorem imp (h : Agree G ts n p q) (hm : m ≤ n) : Agree G ts m p q :=
  { h with taken := fun hsome => Nat.le_trans (Nat.add_le_add_left hm _) (h.taken hsome) }

theorem congr {r s : Parser α} (hp : p ts = r ts) (hq : q ts = s ts) (h : Agree G ts n r s) :
    Agree G ts n p q :=
  ⟨hp ▸ hq ▸ h.same, hp ▸ h.shorter, hp ▸ h.taken, hp ▸ h.inside, hp ▸ h.faults⟩

/-- Parsers that take a token and go on as other ones. -/
theorem shift {r s : Parser α} {t : Token} {mid : List Token} (hp : p (t :: mid) = r mid)
    (hq : q (t :: mid) = s mid) (h : Agree G mid n r s) : Agree G (t :: mid) (n + 1) p q := by
  refine ⟨hp ▸ hq ▸ h.same, ?_, ?_, hp ▸ h.inside, hp ▸ h.faults⟩
  · rw [hp, List.length_cons]
    exact Nat.le_succ_of_le h.shorter
  · rw [hp, List.length_cons]
    exact fun hsome => Nat.succ_le_succ (h.taken hsome)

/-- An answer without a fault. -/
theorem success {a : α} {rest : List Token} (hp : p ts = ⟨some a, rest, []⟩)
    (hq : q ts = ⟨some a, rest, []⟩) (hn : rest.length + n ≤ ts.length) (hrest : G.holds rest) :
    Agree G ts n p q := by
  refine ⟨hp.trans hq.symm, ?_, fun _ => ?_, ?_, ?_⟩ <;> rw [hp]
  · exact Nat.le_trans (Nat.le_add_right _ _) hn
  · exact hn
  · exact hrest
  · exact List.forall_mem_nil _

section
variable (hts : G.holds ts)
include hts

theorem done {a : α} : Agree G ts 0 (done a) (done a) := success rfl rfl (Nat.le_refl _) hts

theorem fail {cause : Cause} : Agree G ts n (fail cause : Parser α) (fail cause) where
  same := rfl
  shorter := Nat.le_refl _
  taken hsome := by cases hsome
  inside := hts
  faults := List.forall_mem_singleton.mpr ⟨ts, hts, rfl⟩

theorem note {cause : Cause} : Agree G ts 0 (note cause) (note cause) where
  same := rfl
  shorter := Nat.le_refl _
  taken _ := Nat.le_refl _
  inside := hts
  faults := List.forall_mem_singleton.mpr ⟨ts, hts, rfl⟩

/-- A fault at a token to which the reading came before. -/
theorem noteAt {t : Token} {now : List Token} {cause : Cause} (hnow : G.holds (t :: now)) :
    Agree G ts 0 (noteAt (some t) cause) (noteAt (some t) cause) where
  same := rfl
  shorter := Nat.le_refl _
  taken _ := Nat.le_refl _
  inside := hts
  faults := List.forall_mem_singleton.mpr ⟨t :: now, hnow, rfl⟩

theorem check {kind : Kind} : Agree G ts 0 (check kind) (check kind) :=
  success rfl rfl (Nat.le_refl _) hts

end

/-- One parser after another. -/
theorem bind {f g : α → Parser β} (h : Agree G ts n p q)
    (hf : ∀ a mid, G.holds mid → mid.length + n ≤ ts.length → Agree G mid m (f a) (g a)) :
    Agree G ts (n + m) (p >>= f) (q >>= g) := by
  obtain ⟨hsame, hshorter, htaken, hinside, hfaults⟩ := h
  cases hp : p ts with
  | mk value rest faults =>
    rw [hp] at hsame hshorter htaken hinside hfaults
    cases value with
    | none =>
      have hrun := bind_of_none f hp
      refine ⟨hrun.trans (bind_of_none g hsame.symm).symm, ?_, ?_, ?_, ?_⟩ <;> rw [hrun]
      · exact hshorter
      · exact fun hsome => absurd hsome Bool.false_ne_true
      · exact hinside
      · exact hfaults
    | some a =>
      have hleft := htaken rfl
      have hnext := hf a rest hinside hleft
      have hrun := bind_of_some f hp
      refine ⟨?_, ?_, ?_, ?_, ?_⟩
      · rw [hrun, bind_of_some g hsame.symm, hnext.same]
      · rw [hrun]
        exact Nat.le_trans hnext.shorter hshorter
      · rw [hrun]
        intro hsome
        have hmore := hnext.taken hsome
        dsimp only at hleft ⊢
        omega
      · rw [hrun]
        exact hnext.inside
      · rw [hrun]
        exact List.forall_mem_append.mpr ⟨hfaults, hnext.faults⟩

/-- One parser after another, where it does not matter how much they take. -/
theorem next {f g : α → Parser β} (h : Agree G ts n p q)
    (hf : ∀ a mid, G.holds mid → mid.length + n ≤ ts.length → Agree G mid 0 (f a) (g a)) :
    Agree G ts 0 (p >>= f) (q >>= g) := (bind h hf).imp (Nat.zero_le _)

/-- One parser after another, of which the first takes enough. -/
theorem first {f g : α → Parser β} (h : Agree G ts n p q)
    (hf : ∀ a mid, G.holds mid → mid.length + n ≤ ts.length → Agree G mid 0 (f a) (g a)) :
    Agree G ts n (p >>= f) (q >>= g) := bind h hf

theorem map {f : α → β} (h : Agree G ts n p q) : Agree G ts n (f <$> p) (f <$> q) :=
  h.first fun a _ hmid _ => done (a := f a) hmid

theorem mapped {f : α → β} (h : Agree G ts n p q) :
    Agree G ts n (fun ts => (p ts).map f) (fun ts => (q ts).map f) where
  same := congrArg (Reply.map f) h.same
  shorter := h.shorter
  taken hsome := h.taken (by simpa [Reply.map] using hsome)
  inside := h.inside
  faults := h.faults

/-- The next token is taken if it has one of some kinds, which are no semicolon. -/
theorem accepting {kinds : List Kind} {f g : Option Token → Parser β} (hkinds : .semicolon ∉ kinds)
    (hts : G.holds ts) (hnone : Agree G ts m (f none) (g none))
    (hsome : ∀ t mid, ts = t :: mid → t.kind ∈ kinds → G.holds mid →
      Agree G mid (m - 1) (f (some t)) (g (some t))) :
    Agree G ts m (accept kinds >>= f) (accept kinds >>= g) := by
  have hstay (h : accept kinds ts = ⟨some none, ts, []⟩) :
      Agree G ts m (accept kinds >>= f) (accept kinds >>= g) :=
    congr (r := f none) (s := g none) (bind_of_some f h) (bind_of_some g h) hnone
  cases ts with
  | nil => exact hstay rfl
  | cons t mid =>
    by_cases h : t.kind ∈ kinds
    · have haccept : accept kinds (t :: mid) = ⟨some (some t), mid, []⟩ := by
        simp [accept, h, Parser.done]
      have hmid := G.closed hts fun ht => hkinds (ht ▸ h)
      exact imp (shift (bind_of_some f haccept) (bind_of_some g haccept) (hsome t mid rfl h hmid))
        (by omega)
    · exact hstay (by simp [accept, h, Parser.done])

/-- The next token is taken, or it is a fault that it is not of a kind. -/
theorem expecting {kind : Kind} {what : String} {f g : Token → Parser β} (hts : G.holds ts)
    (hf : ∀ t mid, ts = t :: mid → t.kind = kind → Agree G mid 0 (f t) (g t)) :
    Agree G ts 1 (expect kind what >>= f) (expect kind what >>= g) := by
  have hstay (h : expect kind what ts = Parser.fail (.expected what) ts) :
      Agree G ts 1 (expect kind what >>= f) (expect kind what >>= g) :=
    congr (r := Parser.fail (.expected what)) (s := Parser.fail (.expected what))
      (bind_of_none f h) (bind_of_none g h) (fail hts)
  cases ts with
  | nil => exact hstay rfl
  | cons t mid =>
    by_cases h : t.kind = kind
    · have hexpect : expect kind what (t :: mid) = ⟨some t, mid, []⟩ := by
        simp [expect, h, Parser.done]
      exact shift (bind_of_some f hexpect) (bind_of_some g hexpect) (hf t mid rfl h)
    · exact hstay (by simp [expect, h])

/-- A token of a kind, behind which the ground goes on. -/
theorem expectOn {kind : Kind} {what : String} (hts : G.holds ts)
    (hmid : ∀ t mid, ts = t :: mid → t.kind = kind → G.holds mid) :
    Agree G ts 1 (expect kind what) (expect kind what) := by
  cases ts with
  | nil =>
    exact congr (r := Parser.fail (.expected what)) (s := Parser.fail (.expected what)) rfl rfl
      (fail hts)
  | cons t mid =>
    by_cases h : t.kind = kind
    · have hexpect : Parser.expect kind what (t :: mid) = ⟨some t, mid, []⟩ := by
        simp [Parser.expect, h, Parser.done]
      exact success hexpect hexpect (Nat.le_refl _) (hmid t mid rfl h)
    · have hexpect : Parser.expect kind what (t :: mid) =
          Parser.fail (.expected what) (t :: mid) := by simp [Parser.expect, h]
      exact congr (r := Parser.fail (.expected what)) hexpect hexpect (fail hts)

/-- A token of a kind other than a semicolon. -/
theorem expect {kind : Kind} {what : String} (hkind : kind ≠ .semicolon) (hts : G.holds ts) :
    Agree G ts 1 (expect kind what) (expect kind what) :=
  expectOn hts fun _ _ hcons h => G.closed (hcons ▸ hts) (h ▸ hkind)

theorem expectAny {kind : Kind} {what : String} :
    Agree .everywhere ts 1 (Parser.expect kind what) (Parser.expect kind what) :=
  expectOn trivial fun _ _ _ _ => trivial

/-- Loops agree whose steps do. -/
theorem repeated {step step' : α → Parser (Option α)} {a : α} (hts : G.holds ts)
    (hstep : ∀ a mid, G.holds mid → mid.length ≤ ts.length → Agree G mid 0 (step a) (step' a)) :
    Agree G ts 0 (repeated step a) (repeated step' a) := by
  suffices h : ∀ (fuel mid : List Token) (a : α), G.holds mid → mid.length ≤ ts.length →
      Agree G mid 0 (repeatUpTo step fuel a) (repeatUpTo step' fuel a) from
    congr (r := repeatUpTo step ts a) (s := repeatUpTo step' ts a) rfl rfl
      (h ts ts a hts (Nat.le_refl _))
  intro fuel
  induction fuel with
  | nil => exact fun mid a hmid _ => done hmid
  | cons _ fuel ih =>
    intro mid a hmid hlength
    refine first (hstep a mid hmid hlength) fun b rest hrest hshorter => ?_
    cases b with
    | none => exact done hrest
    | some b => exact ih rest b hrest (Nat.le_trans hshorter hlength)

theorem collect {stop : List Token → Bool} {item item' : Parser (Option α)} (hts : G.holds ts)
    (hitem : ∀ mid, G.holds mid → mid.length ≤ ts.length → Agree G mid 0 item item') :
    Agree G ts 0 (collect stop item) (collect stop item') := by
  suffices h : ∀ fuel mid : List Token, G.holds mid → mid.length ≤ ts.length →
      Agree G mid 0 (collectUpTo stop item fuel) (collectUpTo stop item' fuel) from
    congr (r := collectUpTo stop item ts) (s := collectUpTo stop item' ts) rfl rfl
      (h ts ts hts (Nat.le_refl _))
  intro fuel
  induction fuel with
  | nil => exact fun mid hmid _ => done hmid
  | cons _ fuel ih =>
    intro mid hmid hlength
    by_cases hstop : stop mid
    · exact congr (r := Parser.done []) (s := Parser.done []) (by simp [collectUpTo, hstop])
        (by simp [collectUpTo, hstop]) (done hmid)
    · refine congr (r := item >>= fun a => collectUpTo stop item fuel >>= fun others =>
        Parser.done (a.toList ++ others)) (s := item' >>= fun a =>
        collectUpTo stop item' fuel >>= fun others => Parser.done (a.toList ++ others))
        (by simp [collectUpTo, hstop]) (by simp [collectUpTo, hstop]) ?_
      exact next (hitem mid hmid hlength) fun a rest hrest hshorter =>
        next (ih rest hrest (Nat.le_trans hshorter hlength)) fun _ _ hrest' _ => done hrest'

theorem items {what : String} {item item' : Parser α} (hts : G.holds ts)
    (hitem : ∀ mid, G.holds mid → mid.length ≤ ts.length → Agree G mid 1 item item') :
    Agree G ts 1 (items what item) (items what item') := by
  refine first (hitem ts hts (Nat.le_refl _)) fun head mid hmid hlength =>
    repeated hmid fun found now hnow hshorter => ?_
  refine accepting (by decide) hnow (done hnow) fun comma rest hcons _ hrest => ?_
  have hrest' : rest.length ≤ ts.length := by
    rw [hcons, List.length_cons] at hshorter
    omega
  by_cases hfull : mostItems ≤ found.length
  · simp only [hfull, if_true]
    exact first (note hrest) fun _ now' hnow' hlength' =>
      next (hitem now' hnow' (by omega)) fun a _ hmid' _ => done hmid'
  · simp only [hfull, if_false]
    exact next (hitem rest hrest hrest') fun a _ hmid' _ => done hmid'

theorem chain {kinds : List Kind} {node : α → Token → α → α} {operand operand' : Parser α}
    (hkinds : .semicolon ∉ kinds) (hts : G.holds ts)
    (hoperand : ∀ mid, G.holds mid → mid.length ≤ ts.length → Agree G mid 1 operand operand') :
    Agree G ts 1 (chain kinds node operand) (chain kinds node operand') := by
  refine first (hoperand ts hts (Nat.le_refl _)) fun head mid hmid hlength =>
    repeated hmid fun left now hnow hshorter => ?_
  refine accepting hkinds hnow (done hnow) fun operator rest hcons _ hrest => ?_
  rw [hcons, List.length_cons] at hshorter
  exact next (hoperand rest hrest (by omega)) fun right _ hmid' _ => done hmid'

end Agree
end Parser

namespace Parse
open Parser

/-- Two closings of the grammar agree on tokens that `d` levels suffice for: at one token a block
can open a statement and that an assignment, so each token takes three of them. -/
structure Nested.Agree (G : Ground) (k l : Nested) (d : Nat) : Prop where
  assignment : ∀ ts, G.holds ts → 3 * ts.length + 1 ≤ d →
    Parser.Agree G ts 1 k.assignment l.assignment
  block : ∀ t ts, G.holds (t :: ts) → t.kind = .leftBrace → 3 * ts.length + 3 ≤ d →
    Parser.Agree G ts 1 k.block l.block

section Expressions
variable {G : Ground} {k l : Nested} {d : Nat} {ts : List Token} (hk : k.Agree G l d)
  (hts : G.holds ts)
include hk hts

theorem expression_agree (hd : 3 * ts.length + 1 ≤ d) :
    Agree G ts 1 (expression k) (expression l) :=
  .chain (by decide) hts fun mid hmid _ => hk.assignment mid hmid (by omega)

theorem routine_agree (hd : 3 * ts.length ≤ d) (before role : String) :
    Agree G ts 1 (routine k before role) (routine l before role) := by
  refine .first (.expect (by decide) hts) fun opening mid hmid hlength => .next (.check hmid)
    fun empty now hnow hlength' => ?_
  have hrest (params mid' : List Token) (hmid' : G.holds mid')
      (hshorter : mid'.length ≤ now.length) : Agree G mid' 0 (do
        let _ ← expect .rightParen "')' after parameters"
        let _ ← expect .leftBrace ("'\x7b' before " ++ role ++ " body")
        let body ← k.block
        done (params, body)) (do
        let _ ← expect .rightParen "')' after parameters"
        let _ ← expect .leftBrace ("'\x7b' before " ++ role ++ " body")
        let body ← l.block
        done (params, body)) := by
    refine .next (.expect (by decide) hmid') fun _ mid₁ h₁ hlength₁ => ?_
    refine .imp (.expecting h₁ fun brace mid₂ hcons hbrace => ?_) (Nat.zero_le _)
    rw [hcons] at h₁
    rw [hcons, List.length_cons] at hlength₁
    exact .next (hk.block brace mid₂ h₁ hbrace (by omega)) fun _ _ h _ => .done h
  cases empty with
  | true => exact .next (.done hnow) fun params mid' hmid' h => hrest params mid' hmid' h
  | false =>
    exact .next (.items hnow fun _ h _ => .expect (by decide) h) fun params mid' hmid' h =>
      hrest params mid' hmid' (by omega)

theorem functionLiteral_agree (hd : 3 * ts.length ≤ d) :
    Agree G ts 1 (functionLiteral k) (functionLiteral l) := by
  refine .accepting (by decide) hts ?_ fun name mid hcons _ hmid => ?_
  · exact .first (routine_agree hk hts hd _ _) fun _ _ h _ => .done h
  · rw [hcons, List.length_cons] at hd
    exact .next (routine_agree hk hmid (by omega) _ _) fun _ _ h _ => .done h

theorem groupRest_agree (hd : 3 * ts.length + 1 ≤ d) : Agree G ts 1 (groupRest k) (groupRest l) :=
  .first (expression_agree hk hts hd) fun _ _ hmid _ => .next (.expect (by decide) hmid)
    fun _ _ h _ => .done h

theorem primary_agree (hd : 3 * ts.length ≤ d) : Agree G ts 1 (primary k) (primary l) := by
  cases ts with
  | nil =>
    exact .congr (r := fail (.expected "expression")) (s := fail (.expected "expression")) rfl rfl
      (.fail hts)
  | cons t ts =>
    rw [List.length_cons] at hd
    have hmid (hkind : t.kind ≠ .semicolon) : G.holds ts := G.closed hts hkind
    have hconstant (e : RawExpr) (hkind : t.kind ≠ .semicolon)
        (h : ∀ k : Nested, primary k (t :: ts) = done e ts) :
        Agree G (t :: ts) 1 (primary k) (primary l) :=
      .success (h k) (h l) (Nat.le_refl _) (hmid hkind)
    cases ht : t.kind with
    | kwFun =>
      exact .imp (.shift (by simp [primary, ht]) (by simp [primary, ht])
        (functionLiteral_agree hk (hmid (by simp [ht])) (by omega))) (by omega)
    | leftParen =>
      exact .imp (.shift (by simp [primary, ht]) (by simp [primary, ht])
        (groupRest_agree hk (hmid (by simp [ht])) (by omega))) (by omega)
    | kwFalse =>
      exact hconstant (.literal (.bool false)) (by simp [ht]) fun k => by simp [primary, ht]
    | kwTrue =>
      exact hconstant (.literal (.bool true)) (by simp [ht]) fun k => by simp [primary, ht]
    | kwNil => exact hconstant (.literal .nil) (by simp [ht]) fun k => by simp [primary, ht]
    | number | string =>
      exact hconstant (.literal t.literal) (by simp [ht]) fun k => by simp [primary, ht]
    | kwThis => exact hconstant (.this t ()) (by simp [ht]) fun k => by simp [primary, ht]
    | identifier => exact hconstant (.variable t ()) (by simp [ht]) fun k => by simp [primary, ht]
    | _ =>
      exact .congr (r := fail (.expected "expression")) (s := fail (.expected "expression"))
        (by simp [primary, ht]) (by simp [primary, ht]) (.fail hts)

theorem callRest_agree (hd : 3 * ts.length + 1 ≤ d) (callee : RawExpr) :
    Agree G ts 0 (callRest k callee) (callRest l callee) := by
  refine .next (.check hts) fun empty now hnow hlength => ?_
  have hclose (es : List RawExpr) (mid : List Token) (hmid : G.holds mid) : Agree G mid 0 (do
      let paren ← expect .rightParen "')' after arguments"
      done (Expr.call callee paren es)) (do
      let paren ← expect .rightParen "')' after arguments"
      done (Expr.call callee paren es)) :=
    .next (.expect (by decide) hmid) fun _ _ h _ => .done h
  cases empty with
  | true => exact .next (.done hnow) fun es mid hmid _ => hclose es mid hmid
  | false =>
    exact .next (.items hnow fun mid hmid hshorter => hk.assignment mid hmid (by omega))
      fun es mid hmid _ => hclose es mid hmid

theorem suffix?_agree (hd : 3 * ts.length ≤ d) (left : RawExpr) :
    Agree G ts 0 (suffix? k left) (suffix? l left) := by
  cases ts with
  | nil => exact .success rfl rfl (Nat.le_refl _) hts
  | cons t ts =>
    rw [List.length_cons] at hd
    have hmid (hkind : t.kind ≠ .semicolon) : G.holds ts := G.closed hts hkind
    cases ht : t.kind with
    | leftParen =>
      exact .imp (.shift (r := some <$> callRest k left) (s := some <$> callRest l left)
        (by simp [suffix?, ht]) (by simp [suffix?, ht])
        (.map (callRest_agree hk (hmid (by simp [ht])) (by omega) left))) (Nat.zero_le _)
    | dot =>
      have hfield : Agree G ts 0 (do
          let name ← expect .identifier "property name after '.'"
          done (some (Expr.get left name))) (do
          let name ← expect .identifier "property name after '.'"
          done (some (Expr.get left name))) :=
        .next (.expect (by decide) (hmid (by simp [ht]))) fun _ _ h _ => .done h
      exact .imp (.shift (by simp [suffix?, ht]) (by simp [suffix?, ht]) hfield) (Nat.zero_le _)
    | _ =>
      exact .congr (r := done none) (s := done none) (by simp [suffix?, ht])
        (by simp [suffix?, ht]) (.done hts)

theorem call_agree (hd : 3 * ts.length ≤ d) : Agree G ts 1 (call k) (call l) :=
  .first (primary_agree hk hts hd) fun _ _ hmid _ => .repeated hmid fun left _ hnow _ =>
    suffix?_agree hk hnow (by omega) left

theorem unary_agree (hd : 3 * ts.length ≤ d) : Agree G ts 1 (unary k) (unary l) := by
  induction ts with
  | nil => exact .congr (r := call k) (s := call l) rfl rfl (call_agree hk hts hd)
  | cons t ts ih =>
    by_cases ht : t.kind = .bang ∨ t.kind = .minus
    · have hmid : G.holds ts := G.closed hts (by rintro h; simp [h] at ht)
      rw [List.length_cons] at hd
      exact .imp (.shift (by simp [unary, ht]) (by simp [unary, ht])
        (.mapped (f := Expr.unary t) (ih hmid (by omega)))) (by omega)
    · exact .congr (r := call k) (s := call l) (by simp [unary, ht]) (by simp [unary, ht])
        (call_agree hk hts hd)

theorem operation_agree (hd : 3 * ts.length ≤ d) : Agree G ts 1 (operation k) (operation l) := by
  have hlevels (levels : List Level) (hsigns : ∀ level ∈ levels, .semicolon ∉ level.kinds) :
      ∀ mid, G.holds mid → mid.length ≤ ts.length → Agree G mid 1
        (levels.foldr (fun level operand => chain level.kinds level.node operand) (unary k))
        (levels.foldr (fun level operand => chain level.kinds level.node operand) (unary l)) := by
    induction levels with
    | nil => exact fun mid hmid _ => unary_agree hk hmid (by omega)
    | cons level levels ih =>
      obtain ⟨hlevel, hothers⟩ := List.forall_mem_cons.mp hsigns
      exact fun mid hmid hlength => .chain hlevel hmid fun now hnow hshorter =>
        ih hothers now hnow (Nat.le_trans hshorter hlength)
  exact hlevels levels (by decide) ts hts (Nat.le_refl _)

theorem assignment_agree (hd : 3 * ts.length ≤ d) : Agree G ts 1 (assignment k) (assignment l) := by
  refine .first (operation_agree hk hts hd) fun left mid hmid hlength =>
    .accepting (by decide) hmid (.done hmid) fun sign mid' hcons _ hmid' => ?_
  rw [hcons] at hmid
  rw [hcons, List.length_cons] at hlength
  refine .next (hk.assignment mid' hmid' (by omega)) fun value rest hrest _ => ?_
  cases left with
  | get object name => exact .done hrest
  | «variable» name mark => exact .done hrest
  | _ => exact .next (.noteAt hrest hmid) fun _ _ h _ => .done h

end Expressions

theorem loopExitRest_agree {ts : List Token} (keyword : Token) (make : Token → RawStmt) :
    Agree .everywhere ts 1 (loopExitRest keyword make) (loopExitRest keyword make) :=
  .first .expectAny fun _ _ h _ => .done h

section Statements
variable {k l : Nested} {d : Nat} {ts : List Token} (hk : k.Agree .everywhere l d)
include hk

theorem expressionStatement_agree (hd : 3 * ts.length + 1 ≤ d) :
    Agree .everywhere ts 1 (expressionStatement k) (expressionStatement l) :=
  .first (expression_agree hk trivial hd) fun _ _ _ _ => .next .expectAny fun _ _ h _ => .done h

theorem varRest_agree (hd : 3 * ts.length + 1 ≤ d) :
    Agree .everywhere ts 1 (varRest k) (varRest l) := by
  have hend (name : Token) (initializer : Option RawExpr) (mid : List Token) :
      Agree .everywhere mid 0 (do
        let _ ← expect .semicolon "';' after variable declaration"
        done (.varDecl name initializer)) (do
        let _ ← expect .semicolon "';' after variable declaration"
        done (Stmt.varDecl name initializer)) :=
    .next .expectAny fun _ _ h _ => .done h
  refine .first .expectAny fun name mid hmid hlength =>
    .accepting (by decide) hmid ?_ fun equal mid' hcons _ hmid' => ?_
  · exact .next (.done hmid) fun initializer now _ _ => hend name initializer now
  · rw [hcons, List.length_cons] at hlength
    exact .next (.map (expression_agree hk hmid' (by omega))) fun initializer now _ _ =>
      hend name initializer now

theorem printRest_agree (hd : 3 * ts.length + 1 ≤ d) :
    Agree .everywhere ts 1 (printRest k) (printRest l) :=
  .first (expression_agree hk trivial hd) fun _ _ _ _ => .next .expectAny fun _ _ h _ => .done h

/-- An expression that can be missing. -/
theorem unless_agree (hd : 3 * ts.length + 1 ≤ d) (missing : Bool) : Agree .everywhere ts 0
    (if missing then done none else some <$> expression k)
    (if missing then done none else some <$> expression l) := by
  cases missing with
  | true => exact .done trivial
  | false => exact .imp (.map (expression_agree hk trivial hd)) (Nat.zero_le _)

theorem expressionUnless_agree (hd : 3 * ts.length + 1 ≤ d) (kind : Kind) :
    Agree .everywhere ts 0 (expressionUnless k kind) (expressionUnless l kind) :=
  .next (.check trivial) fun missing _ _ _ => unless_agree hk (by omega) missing

theorem returnRest_agree (hd : 3 * ts.length + 1 ≤ d) (keyword : Token) :
    Agree .everywhere ts 0 (returnRest k keyword) (returnRest l keyword) := by
  refine .next (.check trivial) fun bare now _ hlength => ?_
  have hend (value : Option RawExpr) (mid : List Token) : Agree .everywhere mid 0 (do
      let _ ← expect .semicolon "';' after return value"
      done (.returnFrom keyword value)) (do
      let _ ← expect .semicolon "';' after return value"
      done (Stmt.returnFrom keyword value)) := .next .expectAny fun _ _ h _ => .done h
  cases bare with
  | true => exact .next (.done trivial) fun value mid _ _ => hend value mid
  | false =>
    exact .next (.map (expression_agree hk trivial (by omega))) fun value mid _ _ => hend value mid

theorem forInitializer_agree (hd : 3 * ts.length + 1 ≤ d) :
    Agree .everywhere ts 0 (forInitializer k) (forInitializer l) := by
  cases ts with
  | nil =>
    exact .congr (r := some <$> expressionStatement k) (s := some <$> expressionStatement l) rfl
      rfl (.imp (.map (expressionStatement_agree hk hd)) (Nat.zero_le _))
  | cons t ts =>
    have hd' : 3 * ts.length + 1 ≤ d := by
      rw [List.length_cons] at hd
      omega
    cases ht : t.kind with
    | semicolon =>
      exact .imp (.shift (r := done none) (s := done none) (by simp [forInitializer, ht])
        (by simp [forInitializer, ht]) (.done trivial)) (Nat.zero_le _)
    | kwVar =>
      exact .imp (.shift (r := some <$> varRest k) (s := some <$> varRest l)
        (by simp [forInitializer, ht]) (by simp [forInitializer, ht]) (.map (varRest_agree hk hd')))
        (Nat.zero_le _)
    | _ =>
      exact .congr (r := some <$> expressionStatement k) (s := some <$> expressionStatement l)
        (by simp [forInitializer, ht]) (by simp [forInitializer, ht])
        (.imp (.map (expressionStatement_agree hk hd)) (Nat.zero_le _))

theorem method_agree (hd : 3 * ts.length ≤ d) : Agree .everywhere ts 1 (method k) (method l) :=
  .first .expectAny fun _ _ hmid _ => .next (routine_agree hk hmid (by omega) _ _)
    fun _ _ h _ => .done h

theorem classRest_agree (hd : 3 * ts.length ≤ d) :
    Agree .everywhere ts 1 (classRest k) (classRest l) :=
  .first .expectAny fun _ _ _ _ => .next .expectAny fun _ _ hmid _ =>
    .next (.collect hmid fun _ _ _ => .imp (.map (method_agree hk (by omega))) (Nat.zero_le _))
      fun _ _ _ _ => .next .expectAny fun _ _ h _ => .done h

theorem functionRest_agree (hd : 3 * ts.length ≤ d) :
    Agree .everywhere ts 1 (functionRest k) (functionRest l) :=
  .first .expectAny fun _ _ hmid _ => .next (routine_agree hk hmid (by omega) _ _)
    fun _ _ h _ => .done h

section
variable (hs : ∀ ts, 3 * ts.length + 2 ≤ d → Agree .everywhere ts 1 k.statement l.statement)
include hs

theorem ifRest_agree (hd : 3 * ts.length + 1 ≤ d) :
    Agree .everywhere ts 1 (ifRest k) (ifRest l) := by
  refine .first .expectAny fun _ mid hmid hlength => ?_
  refine .next (expression_agree hk hmid (by omega)) fun condition mid₁ _ h₁ => ?_
  refine .next .expectAny fun _ mid₂ _ h₂ => ?_
  refine .next (hs mid₂ (by omega)) fun yes mid₃ _ h₃ => ?_
  refine .accepting (by decide) trivial ?_ fun other mid₄ hcons _ _ => ?_
  · exact .next (.done trivial) fun _ _ h _ => .done h
  · rw [hcons, List.length_cons] at h₃
    exact .next (.map (hs mid₄ (by omega))) fun _ _ h _ => .done h

theorem whileRest_agree (hd : 3 * ts.length + 1 ≤ d) :
    Agree .everywhere ts 1 (whileRest k) (whileRest l) := by
  refine .first .expectAny fun _ mid hmid hlength => ?_
  refine .next (expression_agree hk hmid (by omega)) fun condition mid₁ _ h₁ => ?_
  refine .next .expectAny fun _ mid₂ _ h₂ => ?_
  exact .next (hs mid₂ (by omega)) fun _ _ h _ => .done h

theorem forRest_agree (hd : 3 * ts.length + 1 ≤ d) :
    Agree .everywhere ts 1 (forRest k) (forRest l) := by
  refine .first .expectAny fun _ mid hmid hlength => ?_
  refine .next (forInitializer_agree hk (by omega)) fun initializer mid₁ _ h₁ => ?_
  refine .next (expressionUnless_agree hk (by omega) _) fun condition mid₂ _ h₂ => ?_
  refine .next .expectAny fun _ mid₃ _ h₃ => ?_
  refine .next (expressionUnless_agree hk (by omega) _) fun increment mid₄ _ h₄ => ?_
  refine .next .expectAny fun _ mid₅ _ h₅ => ?_
  refine .next (hs mid₅ (by omega)) fun body rest _ _ => ?_
  cases initializer with
  | none => exact .done trivial
  | some first => exact .done trivial

theorem statement_agree (hd : 3 * ts.length + 1 ≤ d) :
    Agree .everywhere ts 1 (statement k) (statement l) := by
  cases ts with
  | nil =>
    exact .congr (r := expressionStatement k) (s := expressionStatement l) rfl rfl
      (expressionStatement_agree hk hd)
  | cons t ts =>
    have hd' : 3 * ts.length + 1 ≤ d := by
      rw [List.length_cons] at hd
      omega
    have hkeyword {p q : Parser RawStmt} {n : Nat} (hp : statement k (t :: ts) = p ts)
        (hq : statement l (t :: ts) = q ts) (h : Agree .everywhere ts n p q) :
        Agree .everywhere (t :: ts) 1 (statement k) (statement l) :=
      .imp (.shift hp hq h) (Nat.succ_le_succ (Nat.zero_le _))
    cases ht : t.kind with
    | kwFor =>
      exact hkeyword (by simp [statement, ht]) (by simp [statement, ht]) (forRest_agree hk hs hd')
    | kwIf =>
      exact hkeyword (by simp [statement, ht]) (by simp [statement, ht]) (ifRest_agree hk hs hd')
    | kwWhile =>
      exact hkeyword (by simp [statement, ht]) (by simp [statement, ht]) (whileRest_agree hk hs hd')
    | kwPrint =>
      exact hkeyword (by simp [statement, ht]) (by simp [statement, ht]) (printRest_agree hk hd')
    | kwReturn =>
      exact hkeyword (by simp [statement, ht]) (by simp [statement, ht]) (returnRest_agree hk hd' t)
    | kwBreak =>
      exact hkeyword (by simp [statement, ht]) (by simp [statement, ht])
        (loopExitRest_agree t .breakLoop)
    | kwContinue =>
      exact hkeyword (by simp [statement, ht]) (by simp [statement, ht])
        (loopExitRest_agree t .continueLoop)
    | leftBrace =>
      rw [List.length_cons] at hd
      exact hkeyword (p := fun ts => (k.block ts).map .block)
        (q := fun ts => (l.block ts).map .block) (by simp [statement, ht]) (by simp [statement, ht])
        (.mapped (hk.block t ts trivial ht (by omega)))
    | _ =>
      exact .congr (r := expressionStatement k) (s := expressionStatement l)
        (by simp [statement, ht]) (by simp [statement, ht]) (expressionStatement_agree hk hd)

theorem declarationBody_agree (hd : 3 * ts.length + 2 ≤ d) :
    Agree .everywhere ts 1 (declarationBody k) (declarationBody l) := by
  cases ts with
  | nil => exact .congr (r := k.statement) (s := l.statement) rfl rfl (hs [] hd)
  | cons t ts =>
    have hd' : 3 * ts.length + 1 ≤ d := by
      rw [List.length_cons] at hd
      omega
    have hkeyword {p q : Parser RawStmt} (hp : declarationBody k (t :: ts) = p ts)
        (hq : declarationBody l (t :: ts) = q ts) (h : Agree .everywhere ts 1 p q) :
        Agree .everywhere (t :: ts) 1 (declarationBody k) (declarationBody l) :=
      .imp (.shift hp hq h) (Nat.le_succ _)
    cases ht : t.kind with
    | kwClass =>
      exact hkeyword (by simp [declarationBody, ht]) (by simp [declarationBody, ht])
        (classRest_agree hk (by omega))
    | kwVar =>
      exact hkeyword (by simp [declarationBody, ht]) (by simp [declarationBody, ht])
        (varRest_agree hk hd')
    | kwFun =>
      by_cases hnext : nextIs [.identifier] ts
      · exact hkeyword (by simp [declarationBody, ht, hnext]) (by simp [declarationBody, ht, hnext])
          (functionRest_agree hk (by omega))
      · exact .congr (r := k.statement) (s := l.statement) (by simp [declarationBody, ht, hnext])
          (by simp [declarationBody, ht, hnext]) (hs _ hd)
    | _ =>
      exact .congr (r := k.statement) (s := l.statement) (by simp [declarationBody, ht])
        (by simp [declarationBody, ht]) (hs _ hd)

theorem declaration_agree (hd : 3 * ts.length + 2 ≤ d) :
    Agree .everywhere ts 0 (declaration k) (declaration l) := by
  obtain ⟨hsame, hshorter, -, -, -⟩ := declarationBody_agree hk hs hd
  have hrest : (declaration k ts).rest.length ≤ (declarationBody k ts).rest.length := by
    cases hvalue : (declarationBody k ts).value with
    | some s => simp [declaration, hvalue]
    | none =>
      cases hleft : (declarationBody k ts).rest with
      | nil => simp [declaration, hvalue, hleft, recover]
      | cons t rest =>
        have hskip : (declaration k ts).rest = skipFrom t rest := by
          simp [declaration, hvalue, hleft, recover]
        rw [hskip]
        exact Nat.le_succ_of_le (length_skipFrom t rest)
  have hend := Nat.le_trans hrest hshorter
  refine ⟨?_, hend, fun _ => hend, trivial, fun f hf => ⟨f.token.toList, trivial, ?_⟩⟩
  · unfold declaration
    rw [hsame]
  · cases f.token <;> rfl

theorem block_agree (hd : 3 * ts.length + 2 ≤ d) : Agree .everywhere ts 1 (block k) (block l) := by
  have hbody : Agree .everywhere ts 0 (Parser.collect atClose (declaration k))
      (Parser.collect atClose (declaration l)) :=
    .collect trivial fun mid _ hlength => declaration_agree hk hs (by omega)
  exact (hbody.bind (m := 1) fun _ _ _ _ => .first .expectAny fun _ _ h _ => .done h).imp
    (Nat.le_add_left _ _)

end
end Statements

/-- Both closings of the grammar, where they are deep enough for the tokens, read them alike. -/
theorem nested_agree {d e : Nat} (h : d ≤ e) : (nested d).Agree .everywhere (nested e) d ∧
    ∀ ts, 3 * ts.length + 2 ≤ d →
      Agree .everywhere ts 1 (nested d).statement (nested e).statement := by
  induction d generalizing e with
  | zero => exact ⟨⟨fun ts _ hd => by omega, fun t ts _ _ hd => by omega⟩, fun ts hd => by omega⟩
  | succ d ih =>
    cases e with
    | zero => omega
    | succ e =>
      obtain ⟨hk, hs⟩ := ih (Nat.le_of_succ_le_succ h)
      exact ⟨⟨fun ts hts hd => assignment_agree hk hts (by omega),
        fun t ts _ _ hd => block_agree hk hs (by omega)⟩, fun ts hd =>
          statement_agree hk hs (by omega)⟩

end Parse
end LoxScript
