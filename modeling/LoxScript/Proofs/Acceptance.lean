import LoxScript.Proofs.Grammar

/-!
Parsers that accept tokens.

A parser accepts tokens up to a rest if it answers there without a fault. One parser behind another
accepts what both accept. A loop accepts what some steps of it come to, if its step has nothing to
add behind them; so an operand or an item more is one step more.
-/
namespace LoxScript

open Grammar Parser

namespace Parser

/-- A parser accepts tokens up to a rest, without a fault. -/
def Accepts {α : Type} (p : Parser α) (ts : List Token) (a : α) (rest : List Token) : Prop :=
  p ts = ⟨some a, rest, []⟩

/-- The next token has none of some kinds. -/
def Stops (kinds : List Kind) (ts : List Token) : Prop := nextIs kinds ts = false

theorem Stops.cons {kinds : List Kind} {t : Token} {ts : List Token} (h : t.kind ∉ kinds) :
    Stops kinds (t :: ts) := by
  simp [Stops, nextIs, h]

theorem Stops.mono {kinds others : List Kind} {ts : List Token} (h : Stops kinds ts)
    (hsub : others ⊆ kinds) : Stops others ts := by
  cases ts with
  | nil => rfl
  | cons t ts =>
    refine .cons fun ht => ?_
    simp only [Stops, nextIs, List.contains_eq_mem, decide_eq_false_iff_not] at h
    exact h (hsub ht)

namespace Accepts
variable {α β : Type} {p : Parser α} {ts mid rest : List Token} {a : α} {b : β}

theorem done (a : α) (ts : List Token) : Accepts (done a) ts a ts := rfl

theorem bind {f : α → Parser β} (h : Accepts p ts a mid) (hf : Accepts (f a) mid b rest) :
    Accepts (p >>= f) ts b rest := by
  unfold Accepts at h hf ⊢
  have hrun : (p >>= f) ts = andThen p f ts := rfl
  simp only [hrun, andThen, h, hf, List.append_nil]

/-- One of two parsers and then another. -/
theorem either {c : Bool} {q : Parser α} {f : α → Parser β}
    (h : Accepts (if c then p else q) ts a mid) (hf : Accepts (f a) mid b rest) :
    Accepts (if c then p >>= f else q >>= f) ts b rest := by
  cases c with
  | true => exact bind h hf
  | false => exact bind h hf

theorem map {f : α → β} (h : Accepts p ts a rest) : Accepts (f <$> p) ts (f a) rest :=
  bind (f := fun a => Parser.done (f a)) h (done (f a) rest)

theorem expect {kind : Kind} {what : String} {t : Token} (h : t.kind = kind) :
    Accepts (expect kind what) (t :: rest) t rest := by
  simp [Accepts, Parser.expect, h, Parser.done]

theorem check (kind : Kind) (ts : List Token) : Accepts (check kind) ts (nextIs [kind] ts) ts := rfl

theorem accept {kinds : List Kind} {t : Token} (h : t.kind ∈ kinds) :
    Accepts (accept kinds) (t :: rest) (some t) rest := by
  simp [Accepts, Parser.accept, h, Parser.done]

theorem accept_none {kinds : List Kind} (h : Stops kinds ts) :
    Accepts (Parser.accept kinds) ts none ts := by
  cases ts with
  | nil => rfl
  | cons t ts =>
    have hno : t.kind ∉ kinds := by simpa [Stops, nextIs] using h
    simp [Accepts, Parser.accept, hno, Parser.done]

end Accepts

/-- Some steps of a loop, each of which takes a token. -/
inductive Steps {α : Type} (step : α → Parser (Option α)) :
    α → List Token → α → List Token → Prop
  | refl {a ts} : Steps step a ts a ts
  | snoc {a ts b mid c rest} (front : Steps step a ts b mid)
      (last : (step b).Accepts mid (some c) rest) (shorter : rest.length < mid.length) :
      Steps step a ts c rest

theorem Steps.head {α : Type} {step : α → Parser (Option α)} {a c : α} {ts rest : List Token}
    (h : Steps step a ts c rest) : (a = c ∧ ts = rest) ∨ ∃ b mid,
      (step a).Accepts ts (some b) mid ∧ mid.length < ts.length ∧ Steps step b mid c rest := by
  induction h with
  | refl => exact .inl ⟨rfl, rfl⟩
  | snoc front last shorter ih =>
    rcases ih with ⟨rfl, rfl⟩ | ⟨b, mid, hfirst, hlt, hsteps⟩
    · exact .inr ⟨_, _, last, shorter, .refl⟩
    · exact .inr ⟨b, mid, hfirst, hlt, .snoc hsteps last shorter⟩

/-- A loop ends where its step has nothing to add. -/
theorem Accepts.repeated {α : Type} {step : α → Parser (Option α)} {a c : α}
    {ts rest : List Token} (h : Steps step a ts c rest) (hend : (step c).Accepts rest none rest) :
    (repeated step a).Accepts ts c rest := by
  suffices hfuel : ∀ (fuel : List Token) (a : α) (ts : List Token), ts.length ≤ fuel.length →
      Steps step a ts c rest → (repeatUpTo step fuel a).Accepts ts c rest from
    hfuel ts a ts (Nat.le_refl _) h
  intro fuel
  induction fuel with
  | nil =>
    intro a ts hts hsteps
    rcases hsteps.head with ⟨rfl, rfl⟩ | ⟨b, mid, -, hlt, -⟩
    · exact .done a ts
    · simp only [List.length_nil] at hts
      omega
  | cons _ fuel ih =>
    intro a ts hts hsteps
    rcases hsteps.head with ⟨rfl, rfl⟩ | ⟨b, mid, hfirst, hlt, hmore⟩
    · exact .bind hend (.done a ts)
    · rw [List.length_cons] at hts
      exact .bind hfirst (ih b mid (by omega) hmore)

/-- A parser and then steps of a loop. -/
def Loops {α β : Type} (first : Parser β) (start : β → α) (step : α → Parser (Option α))
    (ts : List Token) (c : α) (rest : List Token) : Prop :=
  ∃ b mid, first.Accepts ts b mid ∧ Steps step (start b) mid c rest

namespace Loops
variable {α β : Type} {first : Parser β} {start : β → α} {step : α → Parser (Option α)}
  {ts mid rest : List Token}

theorem once {b : β} (h : first.Accepts ts b rest) : Loops first start step ts (start b) rest :=
  ⟨b, rest, h, .refl⟩

theorem more {b c : α} (h : Loops first start step ts b mid)
    (hstep : (step b).Accepts mid (some c) rest) (hlt : rest.length < mid.length) :
    Loops first start step ts c rest := by
  obtain ⟨a, front, hfirst, hsteps⟩ := h
  exact ⟨a, front, hfirst, .snoc hsteps hstep hlt⟩

theorem accepts {c : α} (h : Loops first start step ts c rest)
    (hend : (step c).Accepts rest none rest) :
    (first >>= fun b => repeated step (start b)).Accepts ts c rest := by
  obtain ⟨b, mid, hfirst, hsteps⟩ := h
  exact .bind hfirst (.repeated hsteps hend)

end Loops

section Chains
variable {kinds : List Kind} {node : RawExpr → Token → RawExpr → RawExpr} {operand : Parser RawExpr}
  {ts mid rest : List Token}

/-- Operands with operators between them. -/
theorem Accepts.chain {e : RawExpr} (h : Loops operand id (nextOperand? kinds node operand) ts e rest)
    (hstop : Stops kinds rest) : (chain kinds node operand).Accepts ts e rest :=
  h.accepts (.bind (.accept_none hstop) (.done none rest))

theorem Accepts.nextOperand {left right : RawExpr} {operator : Token}
    (hsign : operator.kind ∈ kinds) (hright : operand.Accepts mid right rest) :
    (nextOperand? kinds node operand left).Accepts (operator :: mid)
      (some (node left operator right)) rest :=
  .bind (.accept hsign) (.bind hright (.done _ rest))

end Chains

section Items
variable {α : Type} {what : String} {item : Parser α} {ts mid rest : List Token}

/-- Items with commas between them. -/
theorem Accepts.items {found : List α}
    (h : Loops item (fun a => [a]) (nextItem? what item) ts found rest)
    (hstop : Stops [.comma] rest) : (items what item).Accepts ts found rest :=
  h.accepts (.bind (.accept_none hstop) (.done none rest))

theorem Accepts.nextItem {found : List α} {a : α} {comma : Token} (hcomma : comma.kind = .comma)
    (hfew : found.length < most) (hitem : item.Accepts mid a rest) :
    (nextItem? what item found).Accepts (comma :: mid) (some (found ++ [a])) rest := by
  have hroom : ¬ Parse.mostItems ≤ found.length := Nat.not_le.mpr hfew
  refine .bind (.accept (by simp [hcomma])) ?_
  simp only [hroom]
  exact .bind hitem (.done _ rest)

end Items

/-- Items are collected up to where the collection stops, if there is enough fuel. -/
def Collects {α : Type} (stop : List Token → Bool) (item : Parser (Option α)) (ts : List Token)
    (found : List α) (rest : List Token) : Prop :=
  ∀ fuel : List Token, ts.length ≤ fuel.length → (collectUpTo stop item fuel).Accepts ts found rest

namespace Collects
variable {α : Type} {stop : List Token → Bool} {item : Parser (Option α)} {ts mid rest : List Token}
  {found : List α}

theorem accepts (h : Collects stop item ts found rest) : (collect stop item).Accepts ts found rest :=
  h ts (Nat.le_refl _)

theorem nothing (hstop : stop ts = true) : Collects stop item ts [] ts := by
  intro fuel _
  cases fuel with
  | nil => rfl
  | cons _ fuel => simp [Accepts, collectUpTo, hstop, done]

theorem cons {a : α} (hgo : stop ts = false) (hitem : item.Accepts ts (some a) mid)
    (hlt : mid.length < ts.length) (h : Collects stop item mid found rest) :
    Collects stop item ts (a :: found) rest := by
  intro fuel hfuel
  cases fuel with
  | nil =>
    simp only [List.length_nil] at hfuel
    omega
  | cons _ fuel =>
    rw [List.length_cons] at hfuel
    have hmore := h fuel (by omega)
    have hboth : (item >>= fun a => collectUpTo stop item fuel >>= fun others =>
        Parser.done (a.toList ++ others)).Accepts ts (a :: found) rest :=
      .bind hitem (.bind hmore (.done _ rest))
    simp only [Accepts, collectUpTo, hgo] at hboth ⊢
    exact hboth

end Collects
end Parser

end LoxScript
