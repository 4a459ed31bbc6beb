import LoxScript.Proofs.Lexemes
import LoxScript.Proofs.NumberText

/-!
The words of trees.

The tokens that are derived from a source are lexemes of it, so at every place of a tree stands a
lexeme of a kind that belongs there.
-/
namespace LoxScript

open Grammar Scan

/-- A token whose text is a lexeme with its kind and value. -/
def Token.IsLexeme (t : Token) : Prop := Lexeme t.lexeme.toList t.kind t.literal

/-- A token that is a lexeme of one of the kinds. -/
def Token.Spells (kinds : List Kind) (t : Token) : Prop := t.kind ∈ kinds ∧ t.IsLexeme

def nameKinds : List Kind := [.identifier]

def unaryKinds : List Kind := [.bang, .minus]

def binaryKinds : List Kind :=
  [.comma, .bangEqual, .equalEqual, .greater, .greaterEqual, .less, .lessEqual, .minus, .plus,
    .slash, .star, .percent, .hat]

def logicalKinds : List Kind := [.kwOr, .kwAnd]

def compoundKinds : List Kind := [.plusEqual, .minusEqual, .starEqual, .slashEqual]

/-- A text without quotes, a number without a sign, or another constant. -/
def Literal.Spelled : Literal → Prop
  | .text s => '"' ∉ s.toList
  | .number x => (Number.split x).negative = false
  | _ => True

section Spelled
variable {ρ : Type}

mutual

/-- All tokens of a tree are lexemes of the kinds that belong at their places. -/
def Expr.Spelled : Expr ρ → Prop
  | .literal value => value.Spelled
  | .grouping e => e.Spelled
  | .unary t e => t.Spells unaryKinds ∧ e.Spelled
  | .binary a t b => a.Spelled ∧ t.Spells binaryKinds ∧ b.Spelled
  | .logical a t b => a.Spelled ∧ t.Spells logicalKinds ∧ b.Spelled
  | .variable t _ => t.Spells nameKinds
  | .assign t operator e _ =>
    t.Spells nameKinds ∧ (∀ s ∈ operator, s.Spells compoundKinds) ∧ e.Spelled
  | .call f t es => f.Spelled ∧ t.Spells [.rightParen] ∧ Expr.AllSpelled es
  | .get o t => o.Spelled ∧ t.Spells nameKinds
  | .set o t operator e =>
    o.Spelled ∧ t.Spells nameKinds ∧ (∀ s ∈ operator, s.Spells compoundKinds) ∧ e.Spelled
  | .this t _ => t.Spells [.kwThis]
  | .function name params body =>
    (∀ t ∈ name, t.Spells nameKinds) ∧ (∀ t ∈ params, t.Spells nameKinds) ∧ Stmt.AllSpelled body

def Expr.AllSpelled : List (Expr ρ) → Prop
  | [] => True
  | e :: es => e.Spelled ∧ Expr.AllSpelled es

def Stmt.Spelled : Stmt ρ → Prop
  | .expression e => e.Spelled
  | .print e => e.Spelled
  | .varDecl t none => t.Spells nameKinds
  | .varDecl t (some e) => t.Spells nameKinds ∧ e.Spelled
  | .block body => Stmt.AllSpelled body
  | .ifElse c yes none => c.Spelled ∧ yes.Spelled
  | .ifElse c yes (some no) => c.Spelled ∧ yes.Spelled ∧ no.Spelled
  | .loop c body none => c.Spelled ∧ body.Spelled
  | .loop c body (some n) => c.Spelled ∧ body.Spelled ∧ n.Spelled
  | .breakLoop t => t.Spells [.kwBreak]
  | .continueLoop t => t.Spells [.kwContinue]
  | .returnFrom t none => t.Spells [.kwReturn]
  | .returnFrom t (some e) => t.Spells [.kwReturn] ∧ e.Spelled
  | .functionDecl t params body =>
    t.Spells nameKinds ∧ (∀ t ∈ params, t.Spells nameKinds) ∧ Stmt.AllSpelled body
  | .classDecl t methods => t.Spells nameKinds ∧ Method.AllSpelled methods

def Stmt.AllSpelled : List (Stmt ρ) → Prop
  | [] => True
  | s :: ss => s.Spelled ∧ Stmt.AllSpelled ss

def Method.AllSpelled : List (Method ρ) → Prop
  | [] => True
  | .mk t params body :: ms =>
    (t.Spells nameKinds ∧ (∀ t ∈ params, t.Spells nameKinds) ∧ Stmt.AllSpelled body) ∧
      Method.AllSpelled ms

end

end Spelled

namespace Grammar
variable {s : Symbol} {ts rest : List Token} {tree : s.Tree}

/-- The trees of a symbol have lexemes at their places. -/
def Symbol.Spelled : (s : Symbol) → s.Tree → Prop
  | .expr _, e => e.Spelled
  | .option, value => ∀ e ∈ value, e.Spelled
  | .argumentList, es => Expr.AllSpelled es
  | .arguments, es => Expr.AllSpelled es
  | .parameterList, ts => ∀ t ∈ ts, t.Spells nameKinds
  | .parameters, ts => ∀ t ∈ ts, t.Spells nameKinds
  | .block, body => Stmt.AllSpelled body
  | .routine, (ts, body) => (∀ t ∈ ts, t.Spells nameKinds) ∧ Stmt.AllSpelled body
  | .methods, ms => Method.AllSpelled ms
  | .varDecl, s => s.Spelled
  | .exprStmt, s => s.Spelled
  | .forStart, start => ∀ s ∈ start, s.Spelled
  | .statement _, s => s.Spelled
  | .declaration, s => s.Spelled
  | .declarations, body => Stmt.AllSpelled body

theorem spelled_constant {t : Token} {value : Literal} (ht : t.IsLexeme)
    (h : constant? t = some value) : value.Spelled := by
  have hliteral {cs : List Char} {kind : Kind} {literal : Literal} (h : Lexeme cs kind literal) :
      literal.Spelled := by
    cases h with
    | whole | decimal => exact Number.negative_ofDigits _ _
    | @string body hquote =>
      have hinside : '"' ∉ body := hquote
      simpa [Literal.Spelled] using hinside
    | operator | keyword | identifier => trivial
  unfold constant? at h
  split at h <;> cases h <;> first | trivial | exact hliteral ht

theorem spelled_node {l : Tier} {left right : RawExpr} {operator : Token}
    (hsign : operator.kind ∈ l.operators) (hleft : left.Spelled) (hoperator : operator.IsLexeme)
    (hright : right.Spelled) : (l.node left operator right).Spelled := by
  have hbinary (hl : ∀ kind ∈ l.operators, kind ∈ binaryKinds) :
      (Expr.binary left operator right).Spelled :=
    ⟨hleft, ⟨hl _ hsign, hoperator⟩, hright⟩
  have hlogical (hl : ∀ kind ∈ l.operators, kind ∈ logicalKinds) :
      (Expr.logical left operator right).Spelled :=
    ⟨hleft, ⟨hl _ hsign, hoperator⟩, hright⟩
  cases l with
  | or | and => exact hlogical (by decide)
  | _ => exact hbinary (by decide)

theorem spelled_compound {sign t : Token} (hsigned : sign.kind ∈ signs) (hsign : sign.IsLexeme)
    (h : t ∈ compound sign) : t.Spells compoundKinds := by
  have hall : ∀ kind ∈ signs, kind = .equal ∨ kind ∈ compoundKinds := by decide
  unfold compound at h
  split at h
  · cases h
  next hkind =>
    cases h
    exact ⟨(hall _ hsigned).resolve_left hkind, hsign⟩

theorem spelled_append {es : List RawExpr} {e : RawExpr} (hes : Expr.AllSpelled es)
    (he : e.Spelled) : Expr.AllSpelled (es ++ [e]) := by
  induction es with
  | nil => exact ⟨he, trivial⟩
  | cons first es ih => exact ⟨hes.1, ih hes.2⟩

theorem spelled_forTree {initializer : Option RawStmt} {condition increment : Option RawExpr}
    {body : RawStmt} (hinitializer : ∀ s ∈ initializer, s.Spelled)
    (hcondition : ∀ e ∈ condition, e.Spelled) (hincrement : ∀ e ∈ increment, e.Spelled)
    (hbody : body.Spelled) : (forTree initializer condition increment body).Spelled := by
  cases initializer <;> cases condition <;> cases increment <;>
    simp_all [forTree, Stmt.Spelled, Stmt.AllSpelled, Expr.Spelled, Literal.Spelled]

/-- What is derived from lexemes has lexemes at its places. -/
theorem Derives.spelled (h : Derives s ts tree rest) : (∀ t ∈ ts, t.IsLexeme) →
    s.Spelled tree ∧ ∀ t ∈ rest, t.IsLexeme := by
  induction h with
  | chain _ sign _ ihfirst ihsecond =>
    intro hts
    obtain ⟨hleft, hmid⟩ := ihfirst hts
    obtain ⟨hoperator, hmid⟩ := List.forall_mem_cons.mp hmid
    obtain ⟨hright, hrest⟩ := ihsecond hmid
    exact ⟨spelled_node sign hleft hoperator hright, hrest⟩
  | assignName named signed _ ih =>
    intro hts
    obtain ⟨hname, hsign, hts⟩ := by simpa only [List.forall_mem_cons] using hts
    obtain ⟨hvalue, hrest⟩ := ih hts
    refine ⟨⟨⟨List.mem_singleton.mpr named, hname⟩, ?_, hvalue⟩, hrest⟩
    exact fun t ht => spelled_compound signed hsign ht
  | assignField _ _ named signed _ ihtarget ih =>
    intro hts
    obtain ⟨hobject, hmid⟩ := ihtarget hts
    obtain ⟨-, hname, hsign, hmid⟩ := by simpa only [List.forall_mem_cons] using hmid
    obtain ⟨hvalue, hrest⟩ := ih hmid
    refine ⟨⟨hobject, ⟨List.mem_singleton.mpr named, hname⟩, ?_, hvalue⟩, hrest⟩
    exact fun t ht => spelled_compound signed hsign ht
  | constant constant =>
    intro hts
    obtain ⟨ht, hrest⟩ := List.forall_mem_cons.mp hts
    exact ⟨spelled_constant ht constant, hrest⟩
  | moreArguments _ _ _ ihfront ihlast =>
    intro hts
    obtain ⟨hes, hmid⟩ := ihfront hts
    obtain ⟨he, hrest⟩ := ihlast (List.forall_mem_cons.mp hmid).2
    exact ⟨spelled_append hes he, hrest⟩
  | moreParameters _ _ named ih =>
    intro hts
    obtain ⟨hparams, hrest⟩ := ih hts
    obtain ⟨-, ht, hrest⟩ := by simpa only [List.forall_mem_cons] using hrest
    exact ⟨List.forall_mem_append.mpr
      ⟨hparams, List.forall_mem_singleton.mpr ⟨List.mem_singleton.mpr named, ht⟩⟩, hrest⟩
  | @returnStmt _ _ _ value _ _ keyed _ _ ih =>
    intro hts
    obtain ⟨hkeyword, hts⟩ := List.forall_mem_cons.mp hts
    obtain ⟨hvalue, hrest⟩ := ih hts
    refine ⟨?_, (List.forall_mem_cons.mp hrest).2⟩
    cases value with
    | none => exact ⟨List.mem_singleton.mpr keyed, hkeyword⟩
    | some e => exact ⟨⟨List.mem_singleton.mpr keyed, hkeyword⟩, hvalue e rfl⟩
  | forStmt _ _ _ _ _ _ _ _ ihstart ihtest ihstep ihbody =>
    intro hts
    obtain ⟨-, -, hts⟩ := by simpa only [List.forall_mem_cons] using hts
    obtain ⟨hinitializer, hmid⟩ := ihstart hts
    obtain ⟨hcondition, hmid⟩ := ihtest hmid
    obtain ⟨hincrement, hmid⟩ := ihstep (List.forall_mem_cons.mp hmid).2
    obtain ⟨hbody, hrest⟩ := ihbody (List.forall_mem_cons.mp hmid).2
    exact ⟨spelled_forTree hinitializer hcondition hincrement hbody, hrest⟩
  | _ =>
    intro hts
    simp_all [Symbol.Spelled, Expr.Spelled, Expr.AllSpelled, Stmt.Spelled, Stmt.AllSpelled,
      Method.AllSpelled, Token.Spells, nameKinds, unaryKinds]

end Grammar

theorem isLexeme_words (source : String) : ∀ t ∈ wordsOf source, t.IsLexeme := by
  intro t ht
  have hword : (t.kind, t.lexeme, t.literal) ∈
      (spansFrom 0 (cuts source.toList)).filterMap Span.word? := by
    rw [← (collect_spans (cuts source.toList) .start 0).1]
    exact List.mem_map_of_mem ht
  obtain ⟨s, hs, hspan⟩ := List.mem_filterMap.mp hword
  have hfits := (divided_cuts source.toList 0).fits s hs
  unfold Span.word? at hspan
  split at hspan
  next kind literal hstretch =>
    rw [hstretch] at hfits
    obtain ⟨rfl, hlexeme, rfl⟩ := by simpa using hspan
    rw [Token.IsLexeme, ← hlexeme, String.toList_ofList]
    exact hfits.1
  next => cases hspan

section Marks
variable {ρ τ : Type} {g : ρ → τ}

mutual

/-- Whether a tree is spelled does not depend on its marks. -/
theorem Expr.spelled_map : (e : Expr ρ) → ((e.map id g).Spelled ↔ e.Spelled)
  | .literal _ => .rfl
  | .grouping e => e.spelled_map
  | .unary _ e => and_congr .rfl e.spelled_map
  | .binary a _ b => and_congr a.spelled_map (and_congr .rfl b.spelled_map)
  | .logical a _ b => and_congr a.spelled_map (and_congr .rfl b.spelled_map)
  | .variable _ _ => .rfl
  | .assign _ operator e _ => by simp [Expr.map, Expr.Spelled, e.spelled_map]
  | .call f _ es => and_congr f.spelled_map (and_congr .rfl (Expr.allSpelled_map es))
  | .get o _ => and_congr o.spelled_map .rfl
  | .set o _ operator e => by simp [Expr.map, Expr.Spelled, o.spelled_map, e.spelled_map]
  | .this _ _ => .rfl
  | .function name params body => by
    simp [Expr.map, Expr.Spelled, Stmt.allSpelled_map body]

theorem Expr.allSpelled_map : (es : List (Expr ρ)) →
    (Expr.AllSpelled (Expr.mapAll id g es) ↔ Expr.AllSpelled es)
  | [] => .rfl
  | e :: es => and_congr e.spelled_map (Expr.allSpelled_map es)

theorem Stmt.spelled_map : (s : Stmt ρ) → ((s.map id g).Spelled ↔ s.Spelled)
  | .expression e => e.spelled_map
  | .print e => e.spelled_map
  | .varDecl _ none => .rfl
  | .varDecl _ (some e) => and_congr .rfl e.spelled_map
  | .block body => Stmt.allSpelled_map body
  | .ifElse c yes none => and_congr c.spelled_map yes.spelled_map
  | .ifElse c yes (some no) =>
    and_congr c.spelled_map (and_congr yes.spelled_map no.spelled_map)
  | .loop c body none => and_congr c.spelled_map body.spelled_map
  | .loop c body (some n) => and_congr c.spelled_map (and_congr body.spelled_map n.spelled_map)
  | .breakLoop _ => .rfl
  | .continueLoop _ => .rfl
  | .returnFrom _ none => .rfl
  | .returnFrom _ (some e) => and_congr .rfl e.spelled_map
  | .functionDecl _ params body => by
    simp [Stmt.map, Stmt.Spelled, Stmt.allSpelled_map body]
  | .classDecl _ ms => and_congr .rfl (Method.allSpelled_map ms)

theorem Stmt.allSpelled_map : (ss : List (Stmt ρ)) →
    (Stmt.AllSpelled (Stmt.mapAll id g ss) ↔ Stmt.AllSpelled ss)
  | [] => .rfl
  | s :: ss => and_congr s.spelled_map (Stmt.allSpelled_map ss)

theorem Method.allSpelled_map : (ms : List (Method ρ)) →
    (Method.AllSpelled (Method.mapAll id g ms) ↔ Method.AllSpelled ms)
  | [] => .rfl
  | .mk _ params body :: ms => by
    simp [Method.mapAll, Method.AllSpelled, Stmt.allSpelled_map body, Method.allSpelled_map ms]

end
end Marks

section
variable {ρ : Type}

def Node.Spelled : Node ρ → Prop
  | .expr e => e.Spelled
  | .stmt s => s.Spelled

theorem Expr.AllSpelled.mem {es : List (Expr ρ)} (h : Expr.AllSpelled es) :
    ∀ e ∈ es, e.Spelled := by
  induction es with
  | nil => exact List.forall_mem_nil _
  | cons e es ih => exact List.forall_mem_cons.mpr ⟨h.1, ih h.2⟩

theorem Stmt.AllSpelled.mem {ss : List (Stmt ρ)} (h : Stmt.AllSpelled ss) :
    ∀ s ∈ ss, s.Spelled := by
  induction ss with
  | nil => exact List.forall_mem_nil _
  | cons s ss ih => exact List.forall_mem_cons.mpr ⟨h.1, ih h.2⟩

theorem Method.AllSpelled.mem {ms : List (Method ρ)} (h : Method.AllSpelled ms) :
    ∀ m ∈ ms, Stmt.AllSpelled m.body := by
  induction ms with
  | nil => exact List.forall_mem_nil _
  | cons m ms ih =>
    obtain ⟨t, params, body⟩ := m
    exact List.forall_mem_cons.mpr ⟨h.1.2.2, ih h.2⟩

theorem Stmt.AllSpelled.nodes {body : List (Stmt ρ)} (h : Stmt.AllSpelled body) :
    ∀ m ∈ body.map Node.stmt, m.Spelled := List.forall_mem_map.mpr h.mem

/-- The nodes inside a node that is spelled are so too. -/
theorem Node.Spelled.inside {n : Node ρ} (h : n.Spelled) : ∀ m ∈ n.children, m.Spelled := by
  cases n with
  | expr e =>
    cases e with
    | call f t es => exact List.forall_mem_cons.mpr ⟨h.1, List.forall_mem_map.mpr h.2.2.mem⟩
    | function name params body => exact Stmt.AllSpelled.nodes h.2.2
    | grouping e => exact List.forall_mem_singleton.mpr h
    | unary t e => exact List.forall_mem_singleton.mpr h.2
    | assign t operator e mark => exact List.forall_mem_singleton.mpr h.2.2
    | get o t => exact List.forall_mem_singleton.mpr h.1
    | binary a t b | logical a t b =>
      exact List.forall_mem_cons.mpr ⟨h.1, List.forall_mem_singleton.mpr h.2.2⟩
    | set o t operator e =>
      exact List.forall_mem_cons.mpr ⟨h.1, List.forall_mem_singleton.mpr h.2.2.2⟩
    | literal value | «variable» t mark | this t mark => exact List.forall_mem_nil _
  | stmt s =>
    cases s with
    | expression e | print e => exact List.forall_mem_singleton.mpr h
    | varDecl t value | returnFrom t value =>
      cases value with
      | none => exact List.forall_mem_nil _
      | some e => exact List.forall_mem_singleton.mpr h.2
    | block body => exact Stmt.AllSpelled.nodes h
    | ifElse c yes no =>
      cases no with
      | none => exact List.forall_mem_cons.mpr ⟨h.1, List.forall_mem_singleton.mpr h.2⟩
      | some no =>
        exact List.forall_mem_cons.mpr ⟨h.1, List.forall_mem_cons.mpr
          ⟨h.2.1, List.forall_mem_singleton.mpr h.2.2⟩⟩
    | loop c body increment =>
      cases increment with
      | none => exact List.forall_mem_cons.mpr ⟨h.1, List.forall_mem_singleton.mpr h.2⟩
      | some n =>
        exact List.forall_mem_cons.mpr ⟨h.1, List.forall_mem_cons.mpr
          ⟨h.2.1, List.forall_mem_singleton.mpr h.2.2⟩⟩
    | breakLoop t | continueLoop t => exact List.forall_mem_nil _
    | functionDecl t params body => exact Stmt.AllSpelled.nodes h.2.2
    | classDecl t methods =>
      refine List.forall_mem_flatMap.mpr fun m hm => ?_
      exact (Method.AllSpelled.mem h.2 m hm).nodes

end

theorem spelled_programOf {source : String} (h : (parse (scan source).tokens).diagnostics = []) :
    Stmt.AllSpelled (programOf source) :=
  (((parsed_iff_derives source _).mp ⟨h, rfl⟩).spelled (isLexeme_words source)).1

theorem Accepted.spelled {source : String} (h : Accepted source) :
    Stmt.AllSpelled (resolve (programOf source)).program := by
  have hraw : Stmt.rawAll (resolve (programOf source)).program = programOf source :=
    Stmt.rawAll_resolve (programOf source) .start
  have hprogram := spelled_programOf h.parsed
  rw [← hraw] at hprogram
  exact (Stmt.allSpelled_map _).mp hprogram

end LoxScript
