import LoxScript.Proofs.ParserCompleteness
import LoxScript.Proofs.Shape
import LoxScript.Proofs.Trees

/-!
Phrases under a change of their tokens.

The grammar sees the kinds and values of tokens and not their places, so a phrase stays one when
its tokens move, and with other tokens behind it. All tokens of its tree are its own.
-/
namespace LoxScript.Grammar

/-- A change of tokens that the grammar does not see. -/
structure Keeps (σ : Token → Token) : Prop where
  kind : ∀ t, (σ t).kind = t.kind
  literal : ∀ t, (σ t).literal = t.literal

theorem Keeps.id : Keeps id := ⟨fun _ => rfl, fun _ => rfl⟩

/-- The tree of a phrase whose tokens were changed. -/
def Symbol.mapTree (σ : Token → Token) : (s : Symbol) → s.Tree → s.Tree
  | .expr _, e => e.map σ id
  | .option, value => value.map (·.map σ id)
  | .argumentList, es => Expr.mapAll σ id es
  | .arguments, es => Expr.mapAll σ id es
  | .parameterList, ts => ts.map σ
  | .parameters, ts => ts.map σ
  | .block, body => Stmt.mapAll σ id body
  | .routine, (ts, body) => (ts.map σ, Stmt.mapAll σ id body)
  | .methods, ms => Method.mapAll σ id ms
  | .varDecl, s => s.map σ id
  | .exprStmt, s => s.map σ id
  | .forStart, start => start.map (·.map σ id)
  | .statement _, s => s.map σ id
  | .declaration, s => s.map σ id
  | .declarations, body => Stmt.mapAll σ id body

/-- The number of tokens that phrases of a symbol have at least. -/
def Symbol.least : Symbol → Nat
  | .expr _ => 1
  | .block => 2
  | .exprStmt => 2
  | .statement _ => 2
  | _ => 0

variable {σ : Token → Token} {s : Symbol} {ts rest : List Token} {tree : s.Tree}

theorem Derives.least (h : Derives s ts tree rest) : rest.length + s.least ≤ ts.length := by
  induction h <;> simp_all [Symbol.least] <;> omega

namespace Keeps
variable (hσ : Keeps σ)
include hσ

theorem mem {t : Token} {kinds : List Kind} (h : t.kind ∈ kinds) : (σ t).kind ∈ kinds := by
  rwa [hσ.kind]

theorem eq {t : Token} {kind : Kind} (h : t.kind = kind) : (σ t).kind = kind := by rwa [hσ.kind]

theorem compound (sign : Token) :
    Grammar.compound (σ sign) = (Grammar.compound sign).map σ := by
  unfold Grammar.compound
  rw [hσ.kind]
  split <;> rfl

theorem constant? (t : Token) : Grammar.constant? (σ t) = Grammar.constant? t := by
  unfold Grammar.constant?
  rw [hσ.kind, hσ.literal]

/-- A phrase of two tokens or more starts a function if it did before its tokens were changed. -/
theorem startsFunction {more : List Token} (htwo : 2 ≤ ts.length)
    (h : StartsFunction (ts.map σ ++ more)) : StartsFunction ts := by
  obtain ⟨keyword, name, after, heq, hkeyword, hname⟩ := h
  match ts, htwo with
  | t :: u :: ts, _ =>
    obtain ⟨rfl, rfl, -⟩ : σ t = keyword ∧ σ u = name ∧ ts.map σ ++ more = after := by
      simpa using heq
    rw [hσ.kind] at hkeyword hname
    exact ⟨t, u, ts, rfl, hkeyword, hname⟩

end Keeps

theorem Tier.map_node (l : Tier) (left right : RawExpr) (operator : Token) :
    (l.node left operator right).map σ id = l.node (left.map σ id) (σ operator) (right.map σ id) := by
  cases l <;> rfl

theorem map_forTree (initializer : Option RawStmt) (condition increment : Option RawExpr)
    (body : RawStmt) : (forTree initializer condition increment body).map σ id =
      forTree (initializer.map (·.map σ id)) (condition.map (·.map σ id))
        (increment.map (·.map σ id)) (body.map σ id) := by
  cases initializer <;> cases condition <;> cases increment <;> rfl

theorem mapAll_append (es : List RawExpr) (e : RawExpr) :
    Expr.mapAll σ id (es ++ [e]) = Expr.mapAll σ id es ++ [e.map σ id] := by
  induction es with
  | nil => rfl
  | cons first es ih => exact congrArg (_ :: ·) ih

theorem length_mapAll (es : List RawExpr) : (Expr.mapAll σ id es).length = es.length := by
  induction es with
  | nil => rfl
  | cons first es ih => exact congrArg (· + 1) ih

/-- A phrase stays one when its tokens change and other tokens follow. -/
theorem Derives.map_append (hσ : Keeps σ) (more : List Token) (h : Derives s ts tree rest) :
    Derives s (ts.map σ ++ more) (s.mapTree σ tree) (rest.map σ ++ more) := by
  induction h with
  | pass inner _ ih => exact .pass inner ih
  | chain _ sign _ ihfirst ihsecond =>
    simp only [Symbol.mapTree, Tier.map_node]
    exact .chain ihfirst (hσ.mem sign) ihsecond
  | assignName named signed _ ih =>
    have h := Derives.assignName (hσ.eq named) (hσ.mem signed) ih
    rwa [hσ.compound] at h
  | assignField _ dotted named signed _ ihtarget ih =>
    have h := Derives.assignField ihtarget (hσ.eq dotted) (hσ.eq named) (hσ.mem signed) ih
    rwa [hσ.compound] at h
  | unary signed _ ih => exact .unary (hσ.mem signed) ih
  | call _ opens _ closes ihcalled ihgiven =>
    exact .call ihcalled (hσ.eq opens) ihgiven (hσ.eq closes)
  | get _ dotted named ih => exact .get ih (hσ.eq dotted) (hσ.eq named)
  | constant constant => exact .constant ((hσ.constant? _).trans constant)
  | this keyword => exact .this (hσ.eq keyword)
  | name named => exact .name (hσ.eq named)
  | grouping opens _ closes ih => exact .grouping (hσ.eq opens) ih (hσ.eq closes)
  | function keyed _ ih => exact .function (hσ.eq keyed) ih
  | namedFunction keyed named _ ih => exact .namedFunction (hσ.eq keyed) (hσ.eq named) ih
  | noExpr => exact .noExpr
  | someExpr _ ih => exact .someExpr ih
  | argument _ ih => exact .argument ih
  | moreArguments _ separated _ ihfront ihlast =>
    simp only [Symbol.mapTree, mapAll_append]
    exact .moreArguments ihfront (hσ.eq separated) ihlast
  | noArguments => exact .noArguments
  | someArguments _ few ih => exact .someArguments ih (Nat.le_trans (Nat.le_of_eq (length_mapAll _)) few)
  | parameter named => exact .parameter (hσ.eq named)
  | moreParameters _ separated named ih =>
    simp only [Symbol.mapTree, List.map_append]
    exact .moreParameters ih (hσ.eq separated) (hσ.eq named)
  | noParameters => exact .noParameters
  | someParameters _ few ih => exact .someParameters ih (Nat.le_trans (Nat.le_of_eq (List.length_map _)) few)
  | block opens _ closes ih => exact .block (hσ.eq opens) ih (hσ.eq closes)
  | routine opens _ closes _ ihgiven ih => exact .routine (hσ.eq opens) ihgiven (hσ.eq closes) ih
  | noMethods => exact .noMethods
  | moreMethods named _ _ ihfirst ihothers => exact .moreMethods (hσ.eq named) ihfirst ihothers
  | exprStmt _ ends ih => exact .exprStmt ih (hσ.eq ends)
  | varDecl keyed named ends => exact .varDecl (hσ.eq keyed) (hσ.eq named) (hσ.eq ends)
  | varDeclWith keyed named equals _ ends ih =>
    exact .varDeclWith (hσ.eq keyed) (hσ.eq named) (hσ.eq equals) ih (hσ.eq ends)
  | forNothing ends => exact .forNothing (hσ.eq ends)
  | forVar _ ih => exact .forVar ih
  | forExpr _ ih => exact .forExpr ih
  | expression _ ih => exact .expression ih
  | blockStmt _ ih => exact .blockStmt ih
  | print keyed _ ends ih => exact .print (hσ.eq keyed) ih (hσ.eq ends)
  | @returnStmt _ _ _ value _ _ keyed _ ends ih =>
    cases value <;> exact .returnStmt (hσ.eq keyed) ih (hσ.eq ends)
  | breakStmt keyed ends => exact .breakStmt (hσ.eq keyed) (hσ.eq ends)
  | continueStmt keyed ends => exact .continueStmt (hσ.eq keyed) (hσ.eq ends)
  | whileStmt keyed opens _ closes _ ihcondition ihbody =>
    exact .whileStmt (hσ.eq keyed) (hσ.eq opens) ihcondition (hσ.eq closes) ihbody
  | forStmt keyed opens _ _ ends _ closes _ ihstart ihtest ihstep ihbody =>
    simp only [Symbol.mapTree, map_forTree]
    exact .forStmt (hσ.eq keyed) (hσ.eq opens) ihstart ihtest (hσ.eq ends) ihstep (hσ.eq closes)
      ihbody
  | ifStmt keyed opens _ closes _ ihcondition ihyes =>
    exact .ifStmt (hσ.eq keyed) (hσ.eq opens) ihcondition (hσ.eq closes) ihyes
  | ifElseStmt keyed opens _ closes _ otherwise _ ihcondition ihfirst ihsecond =>
    exact .ifElseStmt (hσ.eq keyed) (hσ.eq opens) ihcondition (hσ.eq closes) ihfirst
      (hσ.eq otherwise) ihsecond
  | classDecl keyed named opens _ closes ih =>
    exact .classDecl (hσ.eq keyed) (hσ.eq named) (hσ.eq opens) ih (hσ.eq closes)
  | funDecl keyed named _ ih => exact .funDecl (hσ.eq keyed) (hσ.eq named) ih
  | variableDecl _ ih => exact .variableDecl ih
  | statement inner other ih =>
    have htwo := inner.least
    exact .statement ih (mt (hσ.startsFunction (Nat.le_of_add_left_le htwo)) other)
  | noDeclarations => exact .noDeclarations
  | moreDeclarations _ _ ihfirst ihothers => exact .moreDeclarations ihfirst ihothers

/-- The tokens of a tree are as `P` says, and its declared names as `N` says as well. -/
def Symbol.Words (P N : Token → Prop) : (s : Symbol) → s.Tree → Prop
  | .expr _, e => e.Words P N
  | .option, value => ∀ e ∈ value, e.Words P N
  | .argumentList, es => Expr.AllWords P N es
  | .arguments, es => Expr.AllWords P N es
  | .parameterList, ts => ∀ t ∈ ts, P t ∧ N t
  | .parameters, ts => ∀ t ∈ ts, P t ∧ N t
  | .block, body => Stmt.AllWords P N body
  | .routine, (ts, body) => (∀ t ∈ ts, P t ∧ N t) ∧ Stmt.AllWords P N body
  | .methods, ms => Method.AllWords P N ms
  | .varDecl, s => s.Words P N
  | .exprStmt, s => s.Words P N
  | .forStart, start => ∀ s ∈ start, s.Words P N
  | .statement _, s => s.Words P N
  | .declaration, s => s.Words P N
  | .declarations, body => Stmt.AllWords P N body

section Words
variable {P N : Token → Prop}

theorem words_node {l : Tier} {left right : RawExpr} {operator : Token} (hleft : left.Words P N)
    (hoperator : P operator) (hright : right.Words P N) :
    (l.node left operator right).Words P N := by
  cases l <;> exact ⟨hleft, hoperator, hright⟩

theorem words_compound {sign t : Token} (hsign : P sign) (h : t ∈ compound sign) : P t := by
  unfold compound at h
  split at h <;> cases h
  exact hsign

theorem words_append {es : List RawExpr} {e : RawExpr} (hes : Expr.AllWords P N es)
    (he : e.Words P N) : Expr.AllWords P N (es ++ [e]) := by
  induction es with
  | nil => exact ⟨he, trivial⟩
  | cons first es ih => exact ⟨hes.1, ih hes.2⟩

theorem words_forTree {initializer : Option RawStmt} {condition increment : Option RawExpr}
    {body : RawStmt} (hinitializer : ∀ s ∈ initializer, s.Words P N)
    (hcondition : ∀ e ∈ condition, e.Words P N) (hincrement : ∀ e ∈ increment, e.Words P N)
    (hbody : body.Words P N) : (forTree initializer condition increment body).Words P N := by
  cases initializer <;> cases condition <;> cases increment <;> simp_all [forTree]

/-- The tokens of a tree and of what is left are among those from which it is derived, and its
declared names are identifiers. -/
theorem Derives.words (h : Derives s ts tree rest) : (∀ t ∈ ts, P t) →
    s.Words P (·.kind = .identifier) tree ∧ ∀ t ∈ rest, P t := by
  -- What is left after one part is what the next one is derived from.
  induction h with
  | chain _ _ _ ihfirst ihsecond =>
    intro hts
    obtain ⟨hleft, hmid⟩ := ihfirst hts
    obtain ⟨hoperator, hmid⟩ := List.forall_mem_cons.mp hmid
    obtain ⟨hright, hrest⟩ := ihsecond hmid
    exact ⟨words_node hleft hoperator hright, hrest⟩
  | assignName _ _ _ ih =>
    intro hts
    obtain ⟨hname, hsign, hts⟩ := by simpa only [List.forall_mem_cons] using hts
    obtain ⟨hvalue, hrest⟩ := ih hts
    exact ⟨⟨hname, fun t ht => words_compound hsign ht, hvalue⟩, hrest⟩
  | assignField _ _ _ _ _ ihtarget ih =>
    intro hts
    obtain ⟨hobject, hmid⟩ := ihtarget hts
    obtain ⟨-, hname, hsign, hmid⟩ := by simpa only [List.forall_mem_cons] using hmid
    obtain ⟨hvalue, hrest⟩ := ih hmid
    exact ⟨⟨hobject, hname, fun t ht => words_compound hsign ht, hvalue⟩, hrest⟩
  | moreArguments _ _ _ ihfront ihlast =>
    intro hts
    obtain ⟨hes, hmid⟩ := ihfront hts
    obtain ⟨he, hrest⟩ := ihlast (List.forall_mem_cons.mp hmid).2
    exact ⟨words_append hes he, hrest⟩
  | moreParameters _ _ named ih =>
    intro hts
    obtain ⟨hparams, hrest⟩ := ih hts
    obtain ⟨-, ht, hrest⟩ := by simpa only [List.forall_mem_cons] using hrest
    exact ⟨List.forall_mem_append.mpr ⟨hparams, List.forall_mem_singleton.mpr ⟨ht, named⟩⟩, hrest⟩
  | @returnStmt _ _ _ value _ _ _ _ _ ih =>
    intro hts
    obtain ⟨hkeyword, hts⟩ := List.forall_mem_cons.mp hts
    obtain ⟨hvalue, hrest⟩ := ih hts
    refine ⟨?_, (List.forall_mem_cons.mp hrest).2⟩
    cases value with
    | none => exact hkeyword
    | some e => exact ⟨hkeyword, hvalue e rfl⟩
  | forStmt _ _ _ _ _ _ _ _ ihstart ihtest ihstep ihbody =>
    intro hts
    obtain ⟨-, -, hts⟩ := by simpa only [List.forall_mem_cons] using hts
    obtain ⟨hinitializer, hmid⟩ := ihstart hts
    obtain ⟨hcondition, hmid⟩ := ihtest hmid
    obtain ⟨hincrement, hmid⟩ := ihstep (List.forall_mem_cons.mp hmid).2
    obtain ⟨hbody, hrest⟩ := ihbody (List.forall_mem_cons.mp hmid).2
    exact ⟨words_forTree hinitializer hcondition hincrement hbody, hrest⟩
  | _ =>
    intro hts
    simp_all [Symbol.Words]

end Words
end LoxScript.Grammar
