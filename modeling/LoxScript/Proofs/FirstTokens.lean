import LoxScript.Proofs.Acceptance

/-!
The tokens that phrases start with, and those that go on with them.

A phrase that cannot be empty starts with one of a few kinds of tokens, and takes a token at least.
What goes on with an expression are the operators of its own kind and of the tighter ones.
-/
namespace LoxScript

open Parser

namespace Grammar

/-- The kinds of the tokens that go on with an expression, from those of the loosest. -/
def goings : List Kind :=
  [.comma] ++ signs ++ [.kwOr, .kwAnd, .bangEqual, .equalEqual, .greater, .greaterEqual, .less,
    .lessEqual, .minus, .plus, .slash, .star, .percent, .hat, .leftParen, .dot]

namespace Tier

/-- The kinds of the tokens that go on with an expression of some kind or of a tighter one. -/
def goings : Tier → List Kind
  | comma => Grammar.goings
  | assignment => Grammar.goings.drop 1
  | or => Grammar.goings.drop 6
  | and => Grammar.goings.drop 7
  | equality => Grammar.goings.drop 8
  | comparison => Grammar.goings.drop 10
  | addition => Grammar.goings.drop 14
  | multiplication => Grammar.goings.drop 16
  | modulo => Grammar.goings.drop 18
  | exponent => Grammar.goings.drop 19
  | unary => Grammar.goings.drop 20
  | call => Grammar.goings.drop 20
  | primary => []

theorem goings_tighter (l : Tier) : l.tighter.goings ⊆ l.goings := by
  cases l <;> decide

theorem operators_goings (l : Tier) : l.operators ⊆ l.goings := by
  cases l <;> decide

/-- No operator of a chain goes on with its operands. -/
theorem operators_not_goings (l : Tier) : ∀ kind ∈ l.operators, kind ∉ l.tighter.goings := by
  cases l <;> decide

theorem signs_not_goings : ∀ kind ∈ signs, kind ∉ Tier.or.goings := by
  decide

/-- The kinds of the tokens that start an expression of some kind. -/
def firsts : Tier → List Kind
  | call | primary => [.kwTrue, .kwFalse, .kwNil, .number, .string, .kwThis, .identifier,
      .leftParen, .kwFun]
  | _ => [.bang, .minus, .kwTrue, .kwFalse, .kwNil, .number, .string, .kwThis, .identifier,
      .leftParen, .kwFun]

theorem firsts_tighter (l : Tier) : l.tighter.firsts ⊆ l.firsts := by
  cases l <;> decide

end Tier

namespace Symbol

/-- The kinds of the tokens that start a phrase, if it cannot be empty. -/
def firsts : Symbol → Option (List Kind)
  | expr l => some l.firsts
  | argumentList => some Tier.comma.firsts
  | parameterList => some [.identifier]
  | block => some [.leftBrace]
  | routine => some [.leftParen]
  | varDecl => some [.kwVar]
  | exprStmt => some Tier.comma.firsts
  | forStart => some (.semicolon :: .kwVar :: Tier.comma.firsts)
  | statement _ => some ([.leftBrace, .kwPrint, .kwReturn, .kwBreak, .kwContinue, .kwWhile, .kwFor,
      .kwIf] ++ Tier.comma.firsts)
  | declaration => some ([.kwClass, .kwFun, .kwVar, .leftBrace, .kwPrint, .kwReturn, .kwBreak,
      .kwContinue, .kwWhile, .kwFor, .kwIf] ++ Tier.comma.firsts)
  | _ => none

end Symbol

/-- A phrase starts with one of the tokens that can start it. -/
def Starts (s : Symbol) (ts : List Token) : Prop :=
  ∀ kinds, s.firsts = some kinds → nextIs kinds ts = true

theorem Starts.cons {s : Symbol} {t : Token} {ts : List Token} {kinds : List Kind}
    (hs : s.firsts = some kinds) (ht : t.kind ∈ kinds) : Starts s (t :: ts) := by
  intro kinds' hkinds
  cases hs.symm.trans hkinds
  simp [nextIs, ht]

theorem Starts.token {s : Symbol} {t : Token} {ts : List Token} {kind : Kind} {kinds : List Kind}
    (ht : t.kind = kind) (hs : s.firsts = some kinds) (hkind : kind ∈ kinds) : Starts s (t :: ts) :=
  .cons hs (ht ▸ hkind)

theorem Starts.mono {s s' : Symbol} {ts : List Token} {kinds kinds' : List Kind}
    (h : Starts s ts) (hs : s.firsts = some kinds) (hs' : s'.firsts = some kinds')
    (hsub : kinds ⊆ kinds') : Starts s' ts := by
  cases ts with
  | nil => exact Bool.noConfusion (h kinds hs)
  | cons t ts =>
    have ht : t.kind ∈ kinds := by simpa [nextIs] using h kinds hs
    exact .cons hs' (hsub ht)

theorem Starts.stops {s : Symbol} {ts : List Token} {kinds others : List Kind}
    (h : Starts s ts) (hs : s.firsts = some kinds) (hno : ∀ kind ∈ kinds, kind ∉ others) :
    Stops others ts := by
  cases ts with
  | nil => rfl
  | cons t ts =>
    have ht : t.kind ∈ kinds := by simpa [nextIs] using h kinds hs
    exact .cons (hno _ ht)

theorem constant?_kind {t : Token} {value : Literal} (h : constant? t = some value) :
    t.kind ∈ Tier.primary.firsts := by
  unfold constant? at h
  split at h <;> simp_all [Tier.firsts]

theorem Derives.starts {s : Symbol} {ts rest : List Token} {tree : s.Tree}
    (h : Derives s ts tree rest) : Starts s ts := by
  induction h with
  | pass _ _ ih => exact ih.mono rfl rfl (Tier.firsts_tighter _)
  | chain _ _ _ ih => exact ih
  | assignName named => exact .token named rfl (by decide)
  | assignField _ _ _ _ _ ih => exact ih.mono rfl rfl (by decide)
  | unary signed => exact .cons rfl ((by decide : [Kind.bang, .minus] ⊆ Tier.unary.firsts) signed)
  | call _ _ _ _ ih => exact ih
  | get _ _ _ ih => exact ih
  | constant value => exact .cons rfl (constant?_kind value)
  | this keyword => exact .token keyword rfl (by decide)
  | name named => exact .token named rfl (by decide)
  | grouping opens => exact .token opens rfl (by decide)
  | function keyed => exact .token keyed rfl (by decide)
  | namedFunction keyed => exact .token keyed rfl (by decide)
  | argument _ ih => exact ih.mono rfl rfl (by decide)
  | moreArguments _ _ _ ih => exact ih
  | parameter named => exact .token named rfl (by decide)
  | moreParameters _ _ _ ih => exact ih
  | block opens => exact .token opens rfl (by decide)
  | routine opens => exact .token opens rfl (by decide)
  | exprStmt _ _ ih => exact ih.mono rfl rfl (by decide)
  | varDecl keyed => exact .token keyed rfl (by decide)
  | varDeclWith keyed => exact .token keyed rfl (by decide)
  | forNothing ends => exact .token ends rfl (by decide)
  | forVar _ ih => exact ih.mono rfl rfl (by decide)
  | forExpr _ ih => exact ih.mono rfl rfl (by decide)
  | expression _ ih => exact ih.mono rfl rfl (by decide)
  | blockStmt _ ih => exact ih.mono rfl rfl (by decide)
  | print keyed => exact .token keyed rfl (by decide)
  | returnStmt keyed => exact .token keyed rfl (by decide)
  | breakStmt keyed => exact .token keyed rfl (by decide)
  | continueStmt keyed => exact .token keyed rfl (by decide)
  | whileStmt keyed => exact .token keyed rfl (by decide)
  | forStmt keyed => exact .token keyed rfl (by decide)
  | ifStmt keyed => exact .token keyed rfl (by decide)
  | ifElseStmt keyed => exact .token keyed rfl (by decide)
  | classDecl keyed => exact .token keyed rfl (by decide)
  | funDecl keyed => exact .token keyed rfl (by decide)
  | variableDecl _ ih => exact ih.mono rfl rfl (by decide)
  | statement _ _ ih => exact ih.mono rfl rfl (by decide)
  | _ =>
    intro kinds hkinds
    cases hkinds

/-- A phrase that cannot be empty takes a token. -/
theorem Derives.length {s : Symbol} {ts rest : List Token} {tree : s.Tree}
    (h : Derives s ts tree rest) :
    rest.length ≤ ts.length ∧ (s.firsts.isSome → rest.length < ts.length) := by
  induction h <;> simp_all [Symbol.firsts] <;> omega

/-- In front of a token, a phrase leaves fewer tokens behind that one. -/
theorem Derives.shorter {s : Symbol} {t : Token} {ts rest : List Token} {tree : s.Tree}
    (h : Derives s ts tree (t :: rest)) : rest.length < ts.length :=
  h.length.1

end Grammar

end LoxScript
