import LoxScript.Proofs.FirstTokens
import LoxScript.Proofs.ParserSoundness

/-!
What the grammar derives the parser accepts, with the tree of the derivation.

A phrase is accepted in front of tokens that cannot go on with it. Chains are derived from the
left, and their loops are read from the left; so of a chain it is shown that its loop comes to the
end of the phrase, from which on the same loop goes on if the phrase is the front of a longer one.
-/
namespace LoxScript

open Grammar Parser

namespace Parse

/-- The levels of binary operators from some level on. -/
def operationFrom (k : Nested) (level : Nat) : Parser RawExpr :=
  (levels.drop level).foldr (fun level operand => chain level.kinds level.node operand) (unary k)

/-- The parser of a kind of expressions, closed `d` levels deep behind its first token. -/
def tier (d : Nat) : Tier → Parser RawExpr
  | .comma => expression (nested (d + 1))
  | .assignment => assignment (nested d)
  | .or => operationFrom (nested d) 0
  | .and => operationFrom (nested d) 1
  | .equality => operationFrom (nested d) 2
  | .comparison => operationFrom (nested d) 3
  | .addition => operationFrom (nested d) 4
  | .multiplication => operationFrom (nested d) 5
  | .modulo => operationFrom (nested d) 6
  | .exponent => operationFrom (nested d) 7
  | .unary => unary (nested d)
  | .call => call (nested d)
  | .primary => primary (nested d)

theorem tier_chain (d : Nat) {l : Tier} (h : l.operators ≠ []) :
    tier d l = chain l.operators l.node (tier d l.tighter) := by
  cases l <;> first | rfl | exact absurd rfl h

/-- How far the parser of a kind of expressions comes with a phrase of that kind. A chain comes to
the end of the phrase in its loop, and may go on from there. -/
def Reaches (d : Nat) (l : Tier) (ts : List Token) (e : RawExpr) (rest : List Token) : Prop :=
  match l with
  | .primary => (primary (nested d)).Accepts ts e rest
  | .call => Loops (primary (nested d)) id (suffix? (nested d)) ts e rest
  | .unary => Stops Tier.unary.goings rest → (unary (nested d)).Accepts ts e rest
  | .assignment => Stops Tier.assignment.goings rest → (assignment (nested d)).Accepts ts e rest
  | l => Stops l.tighter.goings rest →
      Loops (tier d l.tighter) id (nextOperand? l.operators l.node (tier d l.tighter)) ts e rest

namespace Reaches
variable {d : Nat} {l : Tier} {ts rest : List Token} {e : RawExpr}

theorem iff_chain (h : l.operators ≠ []) : Reaches d l ts e rest ↔ (Stops l.tighter.goings rest →
    Loops (tier d l.tighter) id (nextOperand? l.operators l.node (tier d l.tighter)) ts e rest) := by
  cases l <;> first | exact Iff.rfl | exact absurd rfl h

theorem suffix_none (hstop : Stops Tier.call.goings ts) (k : Nested) (left : RawExpr) :
    (suffix? k left).Accepts ts none ts := by
  cases ts with
  | nil => rfl
  | cons t ts =>
    simp only [Stops, nextIs, List.contains_eq_mem, decide_eq_false_iff_not] at hstop
    simp only [Accepts, suffix?]
    split
    next hkind => exact absurd (hkind ▸ by decide) hstop
    next hkind => exact absurd (hkind ▸ by decide) hstop
    next => rfl

/-- In front of a token that does not go on with the phrase the parser accepts it. -/
theorem accepts (h : Reaches d l ts e rest) (hstop : Stops l.goings rest) :
    (tier d l).Accepts ts e rest := by
  by_cases hchain : l.operators = []
  · cases l with
    | primary => exact h
    | call => exact Loops.accepts h (suffix_none hstop _ _)
    | unary => exact h hstop
    | assignment => exact h hstop
    | _ => cases hchain
  · rw [tier_chain d hchain]
    exact .chain ((iff_chain hchain).mp h (hstop.mono l.goings_tighter))
      (hstop.mono l.operators_goings)

theorem unary_call (k : Nested) (hhead : Stops [.bang, .minus] ts) : unary k ts = call k ts := by
  cases ts with
  | nil => rfl
  | cons t ts =>
    have hno : ¬ (t.kind = .bang ∨ t.kind = .minus) := by simpa [Stops, nextIs] using hhead
    simp only [unary, hno, if_false]

/-- What the parser of the operands accepts, the parser of the chain accepts. -/
theorem pass (hl : l ≠ .primary) (hhead : l = .unary → Stops [.bang, .minus] ts)
    (h : Reaches d l.tighter ts e rest) : Reaches d l ts e rest := by
  by_cases hchain : l.operators = []
  · cases l with
    | primary => exact absurd rfl hl
    | call => exact .once h
    | unary =>
      intro hstop
      have hcall : (call (nested d)).Accepts ts e rest := h.accepts hstop
      unfold Accepts at hcall ⊢
      rw [unary_call _ (hhead rfl), hcall]
    | assignment =>
      intro hstop
      have hor : (operation (nested d)).Accepts ts e rest :=
        h.accepts (hstop.mono (Tier.goings_tighter .assignment))
      exact .bind hor (.bind (.accept_none (hstop.mono (by decide))) (.done e rest))
    | _ => cases hchain
  · exact (iff_chain hchain).mpr fun hstop => .once (h.accepts hstop)

/-- One more operator and operand behind a chain. -/
theorem chain {left right : RawExpr} {operator : Token} {mid : List Token}
    (hsign : operator.kind ∈ l.operators) (hlt : rest.length ≤ mid.length)
    (hleft : Reaches d l ts left (operator :: mid)) (hright : Reaches d l.tighter mid right rest) :
    Reaches d l ts (l.node left operator right) rest := by
  have hchain : l.operators ≠ [] := List.ne_nil_of_mem hsign
  refine (iff_chain hchain).mpr fun hstop => ?_
  have hfront := (iff_chain hchain).mp hleft (.cons (l.operators_not_goings _ hsign))
  exact hfront.more (.nextOperand hsign (hright.accepts hstop)) (Nat.lt_succ_of_le hlt)

theorem unary {operator : Token} (hsign : operator.kind ∈ [Kind.bang, .minus])
    (h : Reaches d .unary ts e rest) : Reaches d .unary (operator :: ts) (.unary operator e) rest := by
  intro hstop
  have hkind : operator.kind = .bang ∨ operator.kind = .minus := by simpa using hsign
  have hoperand : Parse.unary (nested d) ts = ⟨some e, rest, []⟩ := h hstop
  simp only [Accepts, Parse.unary, hkind, if_true, hoperand]
  rfl

/-- One more call behind an operand. -/
theorem call {callee : RawExpr} {opening closing : Token} {mid : List Token} {es : List RawExpr}
    (h : Reaches d .call ts callee (opening :: mid)) (hopen : opening.kind = .leftParen)
    (hgiven : (if nextIs [.rightParen] mid then done [] else
      items "arguments" (nested d).assignment).Accepts mid es (closing :: rest))
    (hlt : rest.length < mid.length) (hclose : closing.kind = .rightParen) :
    Reaches d .call ts (.call callee closing es) rest := by
  have hcall : (some <$> callRest (nested d) callee).Accepts mid (some (.call callee closing es))
      rest := .map (.bind (.check _ _) (.either hgiven (.bind (.expect hclose) (.done _ rest))))
  refine h.more ?_ (Nat.lt_succ_of_lt hlt)
  simpa only [Accepts, suffix?, hopen] using hcall

/-- One more field behind an operand. -/
theorem get {object : RawExpr} {dot name : Token} (h : Reaches d .call ts object (dot :: name :: rest))
    (hdot : dot.kind = .dot) (hname : name.kind = .identifier) :
    Reaches d .call ts (.get object name) rest := by
  have hget : (do
      let name ← expect .identifier "property name after '.'"
      done (some (Expr.get object name)) : Parser (Option RawExpr)).Accepts (name :: rest)
        (some (.get object name)) rest := .bind (.expect hname) (.done _ rest)
  refine Loops.more h ?_ (Nat.lt_succ_of_lt (Nat.lt_succ_self _))
  simpa only [Accepts, suffix?, hdot] using hget

/-- What is called is an operation in front of a sign of an assignment. -/
theorem operation {sign : Token} (h : Reaches d .call ts e (sign :: rest))
    (hhead : Stops [.bang, .minus] ts) (hsign : sign.kind ∈ signs) :
    (Parse.operation (nested d)).Accepts ts e (sign :: rest) := by
  have hunary : Reaches d .unary ts e (sign :: rest) := .pass (by decide) (fun _ => hhead) h
  have hexponent : Reaches d .exponent ts e (sign :: rest) := .pass (by decide) (by simp) hunary
  have hmodulo : Reaches d .modulo ts e (sign :: rest) := .pass (by decide) (by simp) hexponent
  have hproduct : Reaches d .multiplication ts e (sign :: rest) :=
    .pass (by decide) (by simp) hmodulo
  have hsum : Reaches d .addition ts e (sign :: rest) := .pass (by decide) (by simp) hproduct
  have hcomparison : Reaches d .comparison ts e (sign :: rest) := .pass (by decide) (by simp) hsum
  have hequality : Reaches d .equality ts e (sign :: rest) :=
    .pass (by decide) (by simp) hcomparison
  have hand : Reaches d .and ts e (sign :: rest) := .pass (by decide) (by simp) hequality
  have hor : Reaches d .or ts e (sign :: rest) := .pass (by decide) (by simp) hand
  exact hor.accepts (.cons (Tier.signs_not_goings _ hsign))

theorem assignName {name sign : Token} {value : RawExpr} (hname : name.kind = .identifier)
    (hsign : sign.kind ∈ signs)
    (hvalue : Stops Tier.assignment.goings rest → (nested d).assignment.Accepts ts value rest) :
    Reaches d .assignment (name :: sign :: ts) (.assign name (compound sign) value ()) rest := by
  intro hstop
  have hprimary : (primary (nested d)).Accepts (name :: sign :: ts) (.variable name ())
      (sign :: ts) := by simp [Accepts, primary, hname, done]
  have htarget : Reaches d .call (name :: sign :: ts) (.variable name ()) (sign :: ts) :=
    .once hprimary
  have hleft := htarget.operation (.cons (by simp [hname])) hsign
  rw [← compoundOperator_eq]
  exact .bind hleft (.bind (.accept hsign) (.bind (hvalue hstop) (.done _ rest)))

theorem assignField {object value : RawExpr} {dot name sign : Token} {mid : List Token}
    (h : Reaches d .call ts object (dot :: name :: sign :: mid)) (hdot : dot.kind = .dot)
    (hname : name.kind = .identifier) (hsign : sign.kind ∈ signs)
    (hhead : Stops [.bang, .minus] ts)
    (hvalue : Stops Tier.assignment.goings rest → (nested d).assignment.Accepts mid value rest) :
    Reaches d .assignment ts (.set object name (compound sign) value) rest := by
  intro hstop
  have hleft := (h.get hdot hname).operation hhead hsign
  rw [← compoundOperator_eq]
  exact .bind hleft (.bind (.accept hsign) (.bind (hvalue hstop) (.done _ rest)))

end Reaches

section Rest
variable {k : Nested} {ts mid rest : List Token}

theorem routine_accepts {before role : String} {opening closing brace : Token}
    {params : List Token} {body : List RawStmt} (hopen : opening.kind = .leftParen)
    (hparams : (if nextIs [.rightParen] ts then done [] else
      items "parameters" (expect .identifier "parameter name")).Accepts ts params
        (closing :: brace :: mid)) (hclose : closing.kind = .rightParen)
    (hbrace : brace.kind = .leftBrace) (hbody : k.block.Accepts mid body rest) :
    (routine k before role).Accepts (opening :: ts) (params, body) rest :=
  .bind (.expect hopen) (.bind (.check _ _) (.either hparams (.bind (.expect hclose)
    (.bind (.expect hbrace) (.bind hbody (.done _ rest))))))

theorem varRest_accepts {name equal semicolon : Token} {e : RawExpr}
    (hname : name.kind = .identifier) (hequal : equal.kind = .equal)
    (hvalue : (expression k).Accepts ts e (semicolon :: rest))
    (hend : semicolon.kind = .semicolon) :
    (varRest k).Accepts (name :: equal :: ts) (.varDecl name (some e)) rest :=
  .bind (.expect hname) (.bind (.accept (by simp [hequal])) (.either (c := true) (.map hvalue)
    (.bind (.expect hend) (.done _ rest))))

theorem varRest_accepts_none {name semicolon : Token} (hname : name.kind = .identifier)
    (hend : semicolon.kind = .semicolon) :
    (varRest k).Accepts (name :: semicolon :: rest) (.varDecl name none) rest :=
  .bind (.expect hname) (.bind (.accept_none (.cons (by simp [hend]))) (.either (c := false)
    (.done none _) (.bind (.expect hend) (.done _ rest))))

theorem ifRest_accepts {opening closing other : Token} {e : RawExpr} {yes no : RawStmt}
    {mid' : List Token} (hopen : opening.kind = .leftParen)
    (hcondition : (expression k).Accepts ts e (closing :: mid))
    (hclose : closing.kind = .rightParen) (hyes : k.statement.Accepts mid yes (other :: mid'))
    (hother : other.kind = .kwElse) (hno : k.statement.Accepts mid' no rest) :
    (ifRest k).Accepts (opening :: ts) (.ifElse e yes (some no)) rest :=
  .bind (.expect hopen) (.bind hcondition (.bind (.expect hclose) (.bind hyes
    (.bind (.accept (by simp [hother])) (.either (c := true) (.map hno) (.done _ rest))))))

theorem ifRest_accepts_none {opening closing : Token} {e : RawExpr} {yes : RawStmt}
    (hopen : opening.kind = .leftParen)
    (hcondition : (expression k).Accepts ts e (closing :: mid))
    (hclose : closing.kind = .rightParen) (hyes : k.statement.Accepts mid yes rest)
    (hstop : Stops [.kwElse] rest) :
    (ifRest k).Accepts (opening :: ts) (.ifElse e yes none) rest :=
  .bind (.expect hopen) (.bind hcondition (.bind (.expect hclose) (.bind hyes
    (.bind (.accept_none hstop) (.either (c := false) (.done none rest) (.done _ rest))))))

theorem whileRest_accepts {opening closing : Token} {e : RawExpr} {body : RawStmt}
    (hopen : opening.kind = .leftParen)
    (hcondition : (expression k).Accepts ts e (closing :: mid))
    (hclose : closing.kind = .rightParen) (hbody : k.statement.Accepts mid body rest) :
    (whileRest k).Accepts (opening :: ts) (.loop e body none) rest :=
  .bind (.expect hopen) (.bind hcondition (.bind (.expect hclose) (.bind hbody (.done _ rest))))

theorem forRest_accepts {opening semicolon closing : Token} {initializer : Option RawStmt}
    {condition increment : Option RawExpr} {body : RawStmt} {mid' mid'' : List Token}
    (hopen : opening.kind = .leftParen) (hstart : (forInitializer k).Accepts ts initializer mid)
    (htest : (expressionUnless k .semicolon).Accepts mid condition (semicolon :: mid'))
    (hend : semicolon.kind = .semicolon)
    (hstep : (expressionUnless k .rightParen).Accepts mid' increment (closing :: mid''))
    (hclose : closing.kind = .rightParen) (hbody : k.statement.Accepts mid'' body rest) :
    (forRest k).Accepts (opening :: ts) (forTree initializer condition increment body) rest := by
  refine .bind (.expect hopen) (.bind hstart (.bind htest (.bind (.expect hend)
    (.bind hstep (.bind (.expect hclose) (.bind hbody ?_))))))
  cases initializer with
  | none => exact .done _ rest
  | some first => exact .done _ rest

theorem expressionStatement_accepts {semicolon : Token} {e : RawExpr}
    (hvalue : (expression k).Accepts ts e (semicolon :: rest))
    (hend : semicolon.kind = .semicolon) :
    (expressionStatement k).Accepts ts (.expression e) rest :=
  .bind hvalue (.bind (.expect hend) (.done _ rest))

theorem printRest_accepts {semicolon : Token} {e : RawExpr}
    (hvalue : (expression k).Accepts ts e (semicolon :: rest))
    (hend : semicolon.kind = .semicolon) : (printRest k).Accepts ts (.print e) rest :=
  .bind hvalue (.bind (.expect hend) (.done _ rest))

theorem groupRest_accepts {closing : Token} {e : RawExpr}
    (hinner : (expression k).Accepts ts e (closing :: rest))
    (hclose : closing.kind = .rightParen) : (groupRest k).Accepts ts (.grouping e) rest :=
  .bind hinner (.bind (.expect hclose) (.done _ rest))

theorem returnRest_accepts {keyword semicolon : Token} {value : Option RawExpr}
    (hvalue : (if nextIs [.semicolon] ts then done none else some <$> expression k).Accepts ts value
      (semicolon :: rest)) (hend : semicolon.kind = .semicolon) :
    (returnRest k keyword).Accepts ts (.returnFrom keyword value) rest :=
  .bind (.check _ _) (.either hvalue (.bind (.expect hend) (.done _ rest)))

theorem loopExitRest_accepts {keyword semicolon : Token} {make : Token → RawStmt}
    (hend : semicolon.kind = .semicolon) :
    (loopExitRest keyword make).Accepts (semicolon :: rest) (make keyword) rest :=
  .bind (.expect hend) (.done _ rest)

theorem functionLiteral_accepts {name : Token} {params : List Token} {body : List RawStmt}
    (hname : name.kind = .identifier)
    (hroutine : (routine k "function name" "function").Accepts ts (params, body) rest) :
    (functionLiteral k).Accepts (name :: ts) (.function (some name) params body) rest :=
  .bind (.accept (List.mem_singleton.mpr hname)) (.bind hroutine (.done _ rest))

theorem functionLiteral_accepts_none {params : List Token} {body : List RawStmt}
    (hhead : Stops [.identifier] ts)
    (hroutine : (routine k "'fun'" "function").Accepts ts (params, body) rest) :
    (functionLiteral k).Accepts ts (.function none params body) rest :=
  .bind (.accept_none hhead) (.bind hroutine (.done _ rest))

theorem functionRest_accepts {name : Token} {params : List Token} {body : List RawStmt}
    (hname : name.kind = .identifier)
    (hroutine : (routine k "function name" "function").Accepts ts (params, body) rest) :
    (functionRest k).Accepts (name :: ts) (.functionDecl name params body) rest :=
  .bind (.expect hname) (.bind hroutine (.done _ rest))

theorem method_accepts {name : Token} {params : List Token} {body : List RawStmt}
    (hname : name.kind = .identifier)
    (hroutine : (routine k "method name" "method").Accepts ts (params, body) rest) :
    (method k).Accepts (name :: ts) (.mk name params body) rest :=
  .bind (.expect hname) (.bind hroutine (.done _ rest))

theorem classRest_accepts {name opening closing : Token} {methods : List RawMethod}
    (hname : name.kind = .identifier) (hopen : opening.kind = .leftBrace)
    (hmethods : (collect atClose (some <$> method k)).Accepts ts methods (closing :: rest))
    (hclose : closing.kind = .rightBrace) :
    (classRest k).Accepts (name :: opening :: ts) (.classDecl name methods) rest :=
  .bind (.expect hname) (.bind (.expect hopen) (.bind hmethods
    (.bind (.expect hclose) (.done _ rest))))

theorem expressionUnless_accepts {kind : Kind} {value : Option RawExpr}
    (h : (if nextIs [kind] ts then done none else some <$> expression k).Accepts ts value rest) :
    (expressionUnless k kind).Accepts ts value rest :=
  .bind (.check kind ts) h

theorem mem_firsts_comma {t : Token} (h : Starts .exprStmt (t :: ts)) :
    t.kind ∈ Tier.comma.firsts := by
  simpa [nextIs] using h _ rfl

theorem statement_expression (h : Starts .exprStmt ts) : statement k ts = expressionStatement k ts := by
  cases ts with
  | nil => rfl
  | cons t ts =>
    have ht := mem_firsts_comma h
    simp only [statement]
    split
    next hkind => exact absurd (hkind ▸ ht) (by decide)
    next hkind => exact absurd (hkind ▸ ht) (by decide)
    next hkind => exact absurd (hkind ▸ ht) (by decide)
    next hkind => exact absurd (hkind ▸ ht) (by decide)
    next hkind => exact absurd (hkind ▸ ht) (by decide)
    next hkind => exact absurd (hkind ▸ ht) (by decide)
    next hkind => exact absurd (hkind ▸ ht) (by decide)
    next hkind => exact absurd (hkind ▸ ht) (by decide)
    next => rfl

theorem forInitializer_expression (h : Starts .exprStmt ts) :
    forInitializer k ts = (some <$> expressionStatement k) ts := by
  cases ts with
  | nil => rfl
  | cons t ts =>
    have ht := mem_firsts_comma h
    simp only [forInitializer]
    split
    next hkind => exact absurd (hkind ▸ ht) (by decide)
    next hkind => exact absurd (hkind ▸ ht) (by decide)
    next => rfl

theorem declarationBody_statement (h : Starts (.statement false) ts) (hother : ¬ StartsFunction ts) :
    declarationBody k ts = k.statement ts := by
  cases ts with
  | nil => rfl
  | cons t ts =>
    have ht : t.kind ∈ [Kind.leftBrace, .kwPrint, .kwReturn, .kwBreak, .kwContinue, .kwWhile,
      .kwFor, .kwIf] ++ Tier.comma.firsts := by simpa [nextIs] using h _ rfl
    simp only [declarationBody]
    split
    next hkind => exact absurd (hkind ▸ ht) (by decide)
    next hkind =>
      cases ts with
      | nil => rfl
      | cons name ts =>
        have hname : name.kind ≠ .identifier := fun hname => hother ⟨t, name, ts, rfl, hkind, hname⟩
        simp [nextIs, hname]
    next hkind => exact absurd (hkind ▸ ht) (by decide)
    next => rfl

end Rest

/-- How far the parser comes with a phrase, closed deeply enough for it. -/
def Fits (d : Nat) : (s : Symbol) → List Token → s.Tree → List Token → Prop
  | .expr l, ts, e, rest => Reaches d l ts e rest
  | .option, ts, value, rest => ∀ kind ∈ [Kind.semicolon, .rightParen], nextIs [kind] rest = true →
      (if nextIs [kind] ts then done none else some <$> expression (nested (d + 1))).Accepts ts value
        rest
  | .argumentList, ts, es, rest => es.length ≤ most → Stops Tier.assignment.goings rest →
      Loops (assignment (nested d)) (fun e => [e]) (nextItem? "arguments" (assignment (nested d)))
        ts es rest
  | .arguments, ts, es, rest => nextIs [.rightParen] rest = true →
      (if nextIs [.rightParen] ts then done [] else
        items "arguments" (assignment (nested d))).Accepts ts es rest
  | .parameterList, ts, params, rest => params.length ≤ most →
      Loops (expect .identifier "parameter name") (fun t => [t])
        (nextItem? "parameters" (expect .identifier "parameter name")) ts params rest
  | .parameters, ts, params, rest => nextIs [.rightParen] rest = true →
      (if nextIs [.rightParen] ts then done [] else
        items "parameters" (expect .identifier "parameter name")).Accepts ts params rest
  | .block, ts, body, rest => ∃ opening after, ts = opening :: after ∧ opening.kind = .leftBrace ∧
      (nested d).block.Accepts after body rest
  | .routine, ts, tree, rest => ∀ before role, (routine (nested d) before role).Accepts ts tree rest
  | .methods, ts, methods, rest => nextIs [.rightBrace] rest = true →
      Collects atClose (some <$> method (nested d)) ts methods rest
  | .varDecl, ts, s, rest => ∃ keyword after, ts = keyword :: after ∧ keyword.kind = .kwVar ∧
      (varRest (nested d)).Accepts after s rest
  | .exprStmt, ts, s, rest => (expressionStatement (nested d)).Accepts ts s rest
  | .forStart, ts, s, rest => (forInitializer (nested d)).Accepts ts s rest
  | .statement closed, ts, s, rest => (closed = false → Stops [.kwElse] rest) →
      (statement (nested d)).Accepts ts s rest
  | .declaration, ts, s, rest => Stops [.kwElse] rest →
      (declarationBody (nested (d + 1))).Accepts ts s rest
  | .declarations, ts, body, rest => ∀ stop : List Token → Bool,
      (∀ now, Starts .declaration now → stop now = false) → stop rest = true →
      Stops [.kwElse] rest → Collects stop (declaration (nested (d + 1))) ts body rest

theorem stops_of_nextIs {kind : Kind} {kinds : List Kind} {ts : List Token}
    (h : nextIs [kind] ts = true) (hkind : kind ∉ kinds) : Stops kinds ts := by
  cases ts with
  | nil => rfl
  | cons t ts =>
    have ht : t.kind = kind := by simpa [nextIs] using h
    exact .cons (ht ▸ hkind)

theorem declaration_accepts {k : Nested} {ts rest : List Token} {s : RawStmt}
    (h : (declarationBody k).Accepts ts s rest) :
    (declaration k).Accepts ts (some s) rest := by
  simp only [Accepts, declaration] at h ⊢
  rw [h]

theorem enders_not_firsts : ∀ kind ∈ [Kind.semicolon, .rightParen],
    ∀ first ∈ Tier.comma.firsts, first ∉ [kind] := by
  decide

theorem enders_not_goings : ∀ kind ∈ [Kind.semicolon, .rightParen], kind ∉ Tier.comma.goings := by
  decide

theorem atClose_of_starts {ts : List Token} (h : Starts .declaration ts) : atClose ts = false := by
  have hbrace : nextIs [.rightBrace] ts = false := h.stops rfl (by decide)
  cases ts with
  | nil => exact Bool.noConfusion (h _ rfl)
  | cons t ts => simp [atClose, hbrace]

/-- No declaration starts with `else`. -/
theorem stops_else_of_declarations {ts rest : List Token} {body : List RawStmt}
    (h : Derives .declarations ts body rest) (hrest : Stops [.kwElse] rest) :
    Stops [.kwElse] ts := by
  cases h with
  | noDeclarations => exact hrest
  | moreDeclarations first _ => exact first.starts.stops rfl (by decide)

theorem primary_constant {k : Nested} {t : Token} {value : Literal} {ts : List Token}
    (h : constant? t = some value) : (primary k).Accepts (t :: ts) (.literal value) ts := by
  simp only [Accepts, primary]
  unfold constant? at h
  split at h <;> cases h <;> simp_all [done]

section Closed
variable {d : Nat} {ts rest : List Token} {closing : Token} {kind : Kind}

/-- What stands in front of a token that closes it is read one level further in: that token makes
room for the level. -/
theorem exists_deeper {s : Symbol} {tree : s.Tree} (h : Derives s ts tree (closing :: rest))
    (hd : ts.length ≤ rest.length + d) :
    ∃ d', d = d' + 1 ∧ ts.length ≤ (closing :: rest).length + d' := by
  have hshorter := h.shorter
  refine ⟨d - 1, by omega, ?_⟩
  rw [List.length_cons]
  omega

theorem expression_accepts {e : RawExpr} (h : Derives (.expr .comma) ts e (closing :: rest))
    (hfits : ∀ d, ts.length ≤ (closing :: rest).length + d →
      Fits d (.expr .comma) ts e (closing :: rest))
    (hd : ts.length ≤ rest.length + d) (hclosing : closing.kind = kind)
    (hkind : kind ∉ Tier.comma.goings) :
    (expression (nested d)).Accepts ts e (closing :: rest) := by
  obtain ⟨d, rfl, hdeep⟩ := exists_deeper h hd
  have hreaches : Reaches d .comma ts e (closing :: rest) := hfits d hdeep
  exact hreaches.accepts (.cons (hclosing ▸ hkind))

theorem option_accepts {value : Option RawExpr} (h : Derives .option ts value (closing :: rest))
    (hfits : ∀ d, ts.length ≤ (closing :: rest).length + d →
      Fits d .option ts value (closing :: rest))
    (hd : ts.length ≤ rest.length + d) (hclosing : closing.kind = kind)
    (hkind : kind ∈ [Kind.semicolon, .rightParen]) :
    (if nextIs [kind] ts then done none else some <$> expression (nested d)).Accepts ts value
      (closing :: rest) := by
  obtain ⟨d, rfl, hdeep⟩ := exists_deeper h hd
  exact hfits d hdeep kind hkind (by simp [nextIs, hclosing])

end Closed

/-- A phrase is accepted if the parsers are closed as deeply as it has tokens. -/
theorem fits_of_derives {s : Symbol} {ts rest : List Token} {tree : s.Tree}
    (h : Derives s ts tree rest) : ∀ d, ts.length ≤ rest.length + d → Fits d s ts tree rest := by
  induction h with
  | pass inner operand ih =>
    intro d hd
    refine .pass inner ?_ (ih d hd)
    rintro rfl
    exact operand.starts.stops rfl (by decide)
  | chain first sign second ihfirst ihsecond =>
    intro d hd
    have hfirst := first.shorter
    have hsecond := second.length.1
    exact .chain sign hsecond (ihfirst d (by rw [List.length_cons]; omega)) (ihsecond d (by omega))
  | assignName named signed assigned ih =>
    intro d hd
    have hassigned := assigned.length.1
    simp only [List.length_cons] at hd
    obtain ⟨d, rfl⟩ : ∃ d', d = d' + 1 := ⟨d - 1, by omega⟩
    exact .assignName named signed (ih d (by omega))
  | assignField target dotted named signed assigned ihtarget ih =>
    intro d hd
    have hhead : Stops [.bang, .minus] _ := target.starts.stops rfl (by decide)
    have htarget := target.length.1
    have hassigned := assigned.length.1
    simp only [List.length_cons] at htarget
    have hobject := ihtarget d (by simp only [List.length_cons]; omega)
    obtain ⟨d, rfl⟩ : ∃ d', d = d' + 1 := ⟨d - 1, by omega⟩
    exact .assignField hobject dotted named signed hhead (ih d (by omega))
  | unary signed operand ih =>
    intro d hd
    rw [List.length_cons] at hd
    exact .unary signed (ih d (by omega))
  | call called opens given closes ihcalled ihgiven =>
    intro d hd
    have hcalled := called.shorter
    have hgiven := given.shorter
    have hcallee := ihcalled d (by rw [List.length_cons]; omega)
    obtain ⟨d, rfl, hdeep⟩ := exists_deeper given (d := d) (by omega)
    exact .call hcallee opens (ihgiven d hdeep (by simp [nextIs, closes])) hgiven closes
  | get owner dotted named ih =>
    intro d hd
    exact .get (ih d (by simp only [List.length_cons]; omega)) dotted named
  | constant value => exact fun d hd => primary_constant value
  | this keyword =>
    intro d hd
    simp [Fits, Reaches, Accepts, primary, keyword, done]
  | name named =>
    intro d hd
    simp [Fits, Reaches, Accepts, primary, named, done]
  | grouping opens inner closes ih =>
    intro d hd
    rw [List.length_cons] at hd
    have hinner := expression_accepts inner ih (d := d) (by omega) closes (by decide)
    simpa only [Fits, Reaches, Accepts, primary, opens] using groupRest_accepts hinner closes
  | function keyed inner ih =>
    intro d hd
    rw [List.length_cons] at hd
    have hliteral := functionLiteral_accepts_none (k := nested d)
      (inner.starts.stops rfl (by decide)) (ih d (by omega) _ _)
    simpa only [Fits, Reaches, Accepts, primary, keyed] using hliteral
  | namedFunction keyed named inner ih =>
    intro d hd
    simp only [List.length_cons] at hd
    have hliteral := functionLiteral_accepts (k := nested d) named (ih d (by omega) _ _)
    simpa only [Fits, Reaches, Accepts, primary, keyed] using hliteral
  | noExpr =>
    intro d hd kind hkind hnext
    simp [Accepts, hnext, done]
  | someExpr given ih =>
    intro d hd kind hkind hnext
    have hgo : nextIs [kind] _ = false := given.starts.stops rfl (enders_not_firsts kind hkind)
    have hreaches : Reaches d .comma _ _ _ := ih d hd
    have hvalue : (expression (nested (d + 1))).Accepts _ _ _ :=
      hreaches.accepts (stops_of_nextIs hnext (enders_not_goings kind hkind))
    rw [hgo]
    exact hvalue.map
  | argument given ih => exact fun d hd _ hstop => .once (ih d hd hstop)
  | moreArguments front separated last ihfront ihlast =>
    intro d hd hfew hstop
    have hfront := front.shorter
    have hlast := last.length.1
    rw [List.length_append, List.length_singleton] at hfew
    have hitems := ihfront d (by rw [List.length_cons]; omega) (by omega)
      (.cons (separated ▸ by decide))
    exact hitems.more (.nextItem separated hfew (ihlast d (by omega) hstop))
      (Nat.lt_succ_of_le hlast)
  | noArguments =>
    intro d hd hnext
    simp [Accepts, hnext, done]
  | someArguments given few ih =>
    intro d hd hnext
    have hgo : nextIs [.rightParen] _ = false := given.starts.stops rfl (by decide)
    rw [hgo]
    exact .items (ih d hd few (stops_of_nextIs hnext (by decide)))
      (stops_of_nextIs hnext (by decide))
  | parameter named => exact fun d hd _ => .once (.expect named)
  | moreParameters front separated named ih =>
    intro d hd hfew
    rw [List.length_append, List.length_singleton] at hfew
    have hitems := ih d (by simp only [List.length_cons]; omega) (by omega)
    exact hitems.more (.nextItem separated hfew (.expect named)) (by simp only [List.length_cons]; omega)
  | noParameters =>
    intro d hd hnext
    simp [Accepts, hnext, done]
  | someParameters given few ih =>
    intro d hd hnext
    have hgo : nextIs [.rightParen] _ = false := given.starts.stops rfl (by decide)
    rw [hgo]
    exact .items (ih d hd few) (stops_of_nextIs hnext (by decide))
  | block opens inner closes ih =>
    intro d hd
    have hinner := inner.shorter
    rw [List.length_cons] at hd
    obtain ⟨d, rfl⟩ : ∃ d', d = d' + 2 := ⟨d - 2, by omega⟩
    have hbody := ih d (by rw [List.length_cons]; omega) atClose
      (fun now hnow => atClose_of_starts hnow) (by simp [atClose, nextIs, closes])
      (.cons (closes ▸ by decide))
    exact ⟨_, _, rfl, opens, .bind hbody.accepts (.bind (.expect closes) (.done _ _))⟩
  | routine opens given closes inner ihgiven ihinner =>
    intro d hd before role
    have hgiven := given.shorter
    have hinner := inner.length.1
    rw [List.length_cons] at hd
    obtain ⟨brace, after, rfl, hbrace, hbody⟩ := ihinner d (by omega)
    have hparams := ihgiven d (by rw [List.length_cons]; omega) (by simp [nextIs, closes])
    exact routine_accepts opens hparams closes hbrace hbody
  | noMethods => exact fun d hd hnext => .nothing (by simp [atClose, hnext])
  | moreMethods named first others ihfirst ihothers =>
    intro d hd hnext
    have hfirst := first.length.1
    have hothers := others.length.1
    rw [List.length_cons] at hd
    have hmethod := method_accepts (k := nested d) named (ihfirst d (by omega) _ _)
    exact .cons (by simp [atClose, nextIs, named]) hmethod.map (Nat.lt_succ_of_le hfirst)
      (ihothers d (by omega) hnext)
  | exprStmt inner ends ih =>
    intro d hd
    exact expressionStatement_accepts (expression_accepts inner ih hd ends (by decide)) ends
  | varDecl keyed named ends => exact fun d hd => ⟨_, _, rfl, keyed, varRest_accepts_none named ends⟩
  | varDeclWith keyed named equals value ends ih =>
    intro d hd
    simp only [List.length_cons] at hd
    have hvalue := expression_accepts value ih (d := d) (by omega) ends (by decide)
    exact ⟨_, _, rfl, keyed, varRest_accepts named equals hvalue ends⟩
  | forNothing ends =>
    intro d hd
    simp [Fits, Accepts, forInitializer, ends, done]
  | forVar start ih =>
    intro d hd
    obtain ⟨keyword, after, rfl, hkeyword, hstart⟩ := ih d hd
    simpa only [Fits, Accepts, forInitializer, hkeyword] using hstart.map
  | forExpr start ih =>
    intro d hd
    have hstart := (ih d hd).map (f := some)
    simpa only [Fits, Accepts, forInitializer_expression start.starts] using hstart
  | expression inner ih =>
    intro d hd _
    have hinner := ih d hd
    simpa only [Fits, Accepts, statement_expression inner.starts] using hinner
  | blockStmt inner ih =>
    intro d hd _
    obtain ⟨opening, after, rfl, hopening, hbody⟩ := ih d hd
    simp only [Accepts] at hbody
    simp only [Accepts, statement, hopening, hbody]
    rfl
  | print keyed value ends ih =>
    intro d hd _
    rw [List.length_cons] at hd
    have hvalue := expression_accepts value ih (d := d) (by omega) ends (by decide)
    simpa only [Accepts, statement, keyed] using printRest_accepts hvalue ends
  | returnStmt keyed given ends ih =>
    intro d hd _
    rw [List.length_cons] at hd
    have hvalue := option_accepts given ih (d := d) (by omega) ends (by decide)
    simpa only [Accepts, statement, keyed] using returnRest_accepts hvalue ends
  | breakStmt keyed ends =>
    intro d hd _
    simpa only [Accepts, statement, keyed] using loopExitRest_accepts ends
  | continueStmt keyed ends =>
    intro d hd _
    simpa only [Accepts, statement, keyed] using loopExitRest_accepts ends
  | whileStmt keyed opens condition closes body ihcondition ihbody =>
    intro d hd hstop
    have hcondition := condition.shorter
    have hbody := body.length.1
    simp only [List.length_cons] at hd
    obtain ⟨d, rfl⟩ : ∃ d', d = d' + 1 := ⟨d - 1, by omega⟩
    have htest := expression_accepts condition ihcondition (d := d + 1) (by omega) closes (by decide)
    have hwhile := whileRest_accepts opens htest closes (ihbody d (by omega) hstop)
    simpa only [Accepts, statement, keyed] using hwhile
  | forStmt keyed opens start test ends step closes body ihstart ihtest ihstep ihbody =>
    intro d hd hstop
    have hstart := start.length.1
    have htest := test.shorter
    have hstep := step.shorter
    have hbody := body.length.1
    simp only [List.length_cons] at hd
    obtain ⟨d, rfl⟩ : ∃ d', d = d' + 1 := ⟨d - 1, by omega⟩
    have hcondition := option_accepts test ihtest (d := d + 1) (by omega) ends (by decide)
    have hincrement := option_accepts step ihstep (d := d + 1) (by omega) closes (by decide)
    have hfor := forRest_accepts opens (ihstart (d + 1) (by omega))
      (expressionUnless_accepts hcondition) ends (expressionUnless_accepts hincrement) closes
      (ihbody d (by omega) hstop)
    simpa only [Accepts, statement, keyed] using hfor
  | ifStmt keyed opens condition closes yes ihcondition ihyes =>
    intro d hd hstop
    have hcondition := condition.shorter
    have hyes := yes.length.1
    simp only [List.length_cons] at hd
    obtain ⟨d, rfl⟩ : ∃ d', d = d' + 1 := ⟨d - 1, by omega⟩
    have htest := expression_accepts condition ihcondition (d := d + 1) (by omega) closes (by decide)
    have hif := ifRest_accepts_none opens htest closes (ihyes d (by omega) hstop) (hstop rfl)
    simpa only [Accepts, statement, keyed] using hif
  | ifElseStmt keyed opens condition closes first otherwise second ihcondition ihfirst ihsecond =>
    intro d hd hstop
    have hcondition := condition.shorter
    have hfirst := first.shorter
    have hsecond := second.length.1
    simp only [List.length_cons] at hd
    obtain ⟨d, rfl⟩ : ∃ d', d = d' + 1 := ⟨d - 1, by omega⟩
    have htest := expression_accepts condition ihcondition (d := d + 1) (by omega) closes (by decide)
    have hyes := ihfirst d (by rw [List.length_cons]; omega) (fun hopen => by cases hopen)
    have hif := ifRest_accepts opens htest closes hyes otherwise (ihsecond d (by omega) hstop)
    simpa only [Accepts, statement, keyed] using hif
  | classDecl keyed named opens inner closes ih =>
    intro d hd _
    simp only [List.length_cons] at hd
    have hmethods := ih (d + 1) (by rw [List.length_cons]; omega) (by simp [nextIs, closes])
    have hclass := classRest_accepts named opens hmethods.accepts closes
    simpa only [Accepts, declarationBody, keyed] using hclass
  | @funDecl keyword name ts _ _ _ keyed named inner ih =>
    intro d hd _
    simp only [List.length_cons] at hd
    have hfunction := functionRest_accepts named (ih (d + 1) (by omega) _ _)
    have hnext : nextIs [.identifier] (name :: ts) = true := by simp [nextIs, named]
    simpa only [Accepts, declarationBody, keyed, hnext, if_true] using hfunction
  | variableDecl inner ih =>
    intro d hd _
    obtain ⟨keyword, after, rfl, hkeyword, hvar⟩ := ih (d + 1) (by omega)
    simpa only [Accepts, declarationBody, hkeyword] using hvar
  | statement inner other ih =>
    intro d hd hstop
    have hstatement := ih d hd (fun _ => hstop)
    unfold Accepts at hstatement ⊢
    rw [declarationBody_statement inner.starts other]
    exact hstatement
  | noDeclarations => exact fun d hd stop _ hstop _ => .nothing hstop
  | moreDeclarations first others ihfirst ihothers =>
    intro d hd stop hgo hstop helse
    have hfirst := first.length.2 rfl
    have hothers := others.length.1
    have hmid : Stops [.kwElse] _ := stops_else_of_declarations others helse
    exact .cons (hgo _ first.starts) (declaration_accepts (ihfirst d (by omega) hmid)) hfirst
      (ihothers d (by omega) stop hgo hstop helse)

theorem isEmpty_of_starts {ts : List Token} (h : Starts .declaration ts) : ts.isEmpty = false := by
  cases ts with
  | nil => exact Bool.noConfusion (h _ rfl)
  | cons t ts => rfl

theorem declarations_complete {ts : List Token} {body : List RawStmt} {d : Nat}
    (h : Derives .declarations ts body []) (hd : ts.length ≤ d) :
    (collect List.isEmpty (declaration (nested (d + 1)))).Accepts ts body [] := by
  have hdepth : ts.length ≤ ([] : List Token).length + d := by simpa using hd
  have hall : Fits d .declarations ts body [] := fits_of_derives h d hdepth
  exact (hall List.isEmpty (fun now hnow => isEmpty_of_starts hnow) rfl rfl).accepts

/-- What the grammar derives is accepted. -/
theorem program_complete {ts : List Token} {body : List RawStmt}
    (h : Derives .declarations ts body []) : program.Accepts ts body [] := by
  have hdepth : depthFor ts.length = 3 * ts.length + 3 + 1 := rfl
  unfold Accepts program
  rw [hdepth]
  exact declarations_complete h (by omega)

/-- A program is accepted without a fault exactly if the grammar derives it. -/
theorem program_iff_derives (ts : List Token) (body : List RawStmt) :
    ((program ts).faults = [] ∧ (program ts).value.getD [] = body) ↔
      Derives .declarations ts body [] := by
  constructor
  · rintro ⟨hfaults, hbody⟩
    have hsound := program_sound ts
    cases hvalue : (program ts).value with
    | none => exact absurd hfaults (hsound.faulty hvalue)
    | some found =>
      obtain ⟨hderives, hrest⟩ := hsound.fits found hvalue hfaults
      rw [hvalue, Option.getD_some] at hbody
      rwa [hrest, hbody] at hderives
  · intro h
    rw [program_complete h]
    exact ⟨rfl, rfl⟩

end Parse

/-- The parser accepts the programs of the grammar and no others, and answers with the tree of the
derivation. -/
theorem parse_iff_derives (tokens : List Token) (last : Token) (program : List RawStmt)
    (hwords : ∀ t ∈ tokens, t.kind ≠ .eof) (hlast : last.kind = .eof) :
    ((parse (tokens ++ [last])).diagnostics = [] ∧ (parse (tokens ++ [last])).program = program) ↔
      Derives .declarations tokens program [] := by
  have htake : (tokens ++ [last]).takeWhile (·.kind != .eof) = tokens := by
    rw [List.takeWhile_append_of_pos (by simpa using hwords)]
    simp [hlast]
  rw [← Parse.program_iff_derives]
  simp only [parse, htake, List.map_eq_nil_iff]

/-- Two assignments group to the right. -/
theorem parse_iff_derives_assignments :
    Derives .declarations
      [⟨.identifier, "a", .nil, 1, some 0⟩, ⟨.equal, "=", .nil, 1, some 2⟩,
        ⟨.identifier, "b", .nil, 1, some 4⟩, ⟨.minusEqual, "-=", .nil, 1, some 6⟩,
        ⟨.identifier, "c", .nil, 1, some 9⟩, ⟨.semicolon, ";", .nil, 1, some 10⟩]
      [.expression (.assign ⟨.identifier, "a", .nil, 1, some 0⟩ none
        (.assign ⟨.identifier, "b", .nil, 1, some 4⟩ (some ⟨.minusEqual, "-=", .nil, 1, some 6⟩)
          (.variable ⟨.identifier, "c", .nil, 1, some 9⟩ ()) ()) ())] [] :=
  (parse_iff_derives _ (.endOfText 1) _ (by decide) rfl).mp ⟨rfl, rfl⟩

end LoxScript
