import LoxScript.Proofs.Sexps
import LoxScript.Proofs.Spelling

/-!
Printed programs read back.

The words of a printed tree are lexemes, so what kind of tree it is and what tokens it has can be
read from its symbolic expression; a number is known by its exact text. Two programs that are
printed alike are therefore the same, but for the places of their tokens.
-/
namespace LoxScript

open Sexp Grammar Scan

/-- A token without its place. -/
def Token.bare (t : Token) : Token := { t with line := 0, column := none }

/-- The lexemes whose text is fixed. -/
def Kind.fixed : List (String × Kind) := Kind.spellings ++ Kind.keywords

/-- The token that a word is, if it is not a string or a number. -/
def Token.ofLexeme (s : String) : Token :=
  ⟨(Kind.fixed.lookup s).getD .identifier, s, .nil, 0, none⟩

/-- The kinds whose words are printed as they are written. -/
def Kind.isPlain (kind : Kind) : Bool :=
  kind ∉ [.leftParen, .rightParen, .string, .number]

section Words
variable {t : Token} {kinds : List Kind} {cs : List Char} {kind : Kind} {literal : Literal}

theorem lookup_fixed {s : String} (h : (s, kind) ∈ Kind.fixed) :
    Kind.fixed.lookup s = some kind := by
  have hall : ∀ entry ∈ Kind.fixed, Kind.fixed.lookup entry.1 = some entry.2 := by decide
  exact hall _ h

theorem lookup_eq_none {s : String} (h : ∀ entry ∈ Kind.fixed, entry.1 ≠ s) :
    Kind.fixed.lookup s = none := by
  rw [List.lookup_eq_none_iff]
  intro entry hentry
  simpa using (h entry hentry).symm

/-- Words without a fixed text start with a letter or a digit, unless they are strings. -/
theorem lookup_word {c : Char} (hc : isWordPart c)
    (hkeyword : String.ofList (c :: cs) ∉ Kind.keywords.map (·.1)) :
    Kind.fixed.lookup (.ofList (c :: cs)) = none := by
  have hspelling : ∀ entry ∈ Kind.spellings, isWordPart (entry.1.toList.headD ' ') = false := by
    decide
  apply lookup_eq_none
  intro entry hentry heq
  obtain hentry | hentry := List.mem_append.mp hentry
  · have hfirst := hspelling entry hentry
    rw [heq, String.toList_ofList, List.headD_cons, hc] at hfirst
    cases hfirst
  · exact hkeyword (List.mem_map.mpr ⟨entry, hentry, heq⟩)

theorem bare_eq_ofLexeme (h : Lexeme t.lexeme.toList t.kind t.literal) (hstring : t.kind ≠ .string)
    (hnumber : t.kind ≠ .number) : t.bare = .ofLexeme t.lexeme := by
  have hfixed (hmem : (t.lexeme, t.kind) ∈ Kind.fixed) (hliteral : t.literal = .nil) :
      t.bare = .ofLexeme t.lexeme := by
    simp [Token.bare, Token.ofLexeme, lookup_fixed hmem, hliteral]
  obtain ⟨kind, lexeme, literal, line, column⟩ := t
  simp only at h hstring hnumber hfixed
  generalize hcs : lexeme.toList = cs at h
  obtain rfl : lexeme = .ofList cs := by rw [← hcs, String.ofList_toList]
  cases h with
  | operator hmem => exact hfixed (List.mem_append_left _ hmem) rfl
  | keyword hmem => exact hfixed (List.mem_append_right _ hmem) rfl
  | @identifier c cs hc hcs' hkeyword =>
    have hnone : Kind.fixed.lookup (.ofList (c :: cs)) = none :=
      lookup_word (by simp [isWordPart, hc]) hkeyword
    rw [Token.bare, Token.ofLexeme, hnone]
    rfl
  | whole | decimal => exact absurd rfl hnumber
  | string => exact absurd rfl hstring

theorem isWordPart_delimiters {c : Char} (hc : isWordPart c) : c ∉ delimiters := by
  have hall : delimiters.all (!isWordPart ·) := by decide
  intro hmem
  simpa [hc] using List.all_eq_true.mp hall c hmem

theorem proper_word (h : Lexeme cs kind literal) (hkind : kind.isPlain) :
    (Sexp.word cs).Proper := by
  refine ⟨h.ne_nil, ?_⟩
  have hfixed : ∀ entry ∈ Kind.fixed, entry.2.isPlain → (Sexp.word entry.1.toList).Proper := by
    decide
  cases h with
  | operator hmem => simpa using (hfixed _ (List.mem_append_left _ hmem) hkind).2
  | keyword hmem => simpa using (hfixed _ (List.mem_append_right _ hmem) hkind).2
  | @identifier c cs hc hcs _ =>
    have hc' : isWordPart c := by simp [isWordPart, hc]
    exact List.forall_mem_cons.mpr
      ⟨isWordPart_delimiters hc', fun d hd => isWordPart_delimiters (hcs d hd)⟩
  | whole | decimal | string => exact absurd hkind (by decide)

theorem first_identifier (h : Lexeme cs kind literal) (hkind : kind = .identifier) :
    ∃ c rest, isLetter c ∧ cs = c :: rest := by
  have hfixed : ∀ entry ∈ Kind.fixed, entry.2 ≠ .identifier := by decide
  cases h with
  | operator hmem => exact absurd hkind (hfixed _ (List.mem_append_left _ hmem))
  | keyword hmem => exact absurd hkind (hfixed _ (List.mem_append_right _ hmem))
  | identifier hc _ _ => exact ⟨_, _, hc, rfl⟩
  | whole | decimal | string => cases hkind

theorem isDigit_eq (c : Char) : isDigit c = c.isDigit := by
  simp [isDigit, Char.isDigit, Char.le_def]

end Words

section Numbers
variable {ρ : Type}

mutual

/-- The number literals of a tree. -/
def Expr.numbers : Expr ρ → List Float
  | .literal (.number x) => [x]
  | .literal _ => []
  | .grouping e => e.numbers
  | .unary _ e => e.numbers
  | .binary a _ b => a.numbers ++ b.numbers
  | .logical a _ b => a.numbers ++ b.numbers
  | .variable _ _ => []
  | .assign _ _ e _ => e.numbers
  | .call f _ es => f.numbers ++ Expr.allNumbers es
  | .get o _ => o.numbers
  | .set o _ _ e => o.numbers ++ e.numbers
  | .this _ _ => []
  | .function _ _ body => Stmt.allNumbers body

def Expr.allNumbers : List (Expr ρ) → List Float
  | [] => []
  | e :: es => e.numbers ++ Expr.allNumbers es

def Stmt.numbers : Stmt ρ → List Float
  | .expression e => e.numbers
  | .print e => e.numbers
  | .varDecl _ none => []
  | .varDecl _ (some e) => e.numbers
  | .block body => Stmt.allNumbers body
  | .ifElse c yes none => c.numbers ++ yes.numbers
  | .ifElse c yes (some no) => c.numbers ++ (yes.numbers ++ no.numbers)
  | .loop c body none => c.numbers ++ body.numbers
  | .loop c body (some n) => c.numbers ++ (body.numbers ++ n.numbers)
  | .breakLoop _ => []
  | .continueLoop _ => []
  | .returnFrom _ none => []
  | .returnFrom _ (some e) => e.numbers
  | .functionDecl _ _ body => Stmt.allNumbers body
  | .classDecl _ methods => Method.allNumbers methods

def Stmt.allNumbers : List (Stmt ρ) → List Float
  | [] => []
  | s :: ss => s.numbers ++ Stmt.allNumbers ss

def Method.allNumbers : List (Method ρ) → List Float
  | [] => []
  | .mk _ _ body :: ms => Stmt.allNumbers body ++ Method.allNumbers ms

end
end Numbers

/-- What kind of expression the first word of a form stands for. -/
inductive Head where
  | group
  | call
  | field
  | function
  | sign (operator : Option Token)
  | logical (operator : Token)
  | operator (operator : Token)

def Token.ofWord (cs : List Char) : Token := .ofLexeme (.ofList cs)

def headOf (cs : List Char) : Head :=
  let t := Token.ofWord cs
  if t.kind = .identifier then if cs = "group".toList then .group else .call
  else if t.kind = .dot then .field
  else if t.kind = .kwFun then .function
  else if t.kind = .equal then .sign none
  else if t.kind ∈ compoundKinds then .sign (some t)
  else if t.kind ∈ logicalKinds then .logical t
  else .operator t

/-- What kind of statement the first word of a form stands for. -/
inductive StmtHead where
  | expression
  | print
  | variable
  | block
  | onlyIf
  | ifElse
  | loop
  | steppedLoop
  | breakLoop
  | continueLoop
  | returnFrom
  | function
  | classDecl

def stmtHeads : List (String × StmtHead) :=
  [(";", .expression), ("print", .print), ("var", .variable), ("block", .block), ("if", .onlyIf),
    ("if-else", .ifElse), ("while", .loop), ("for", .steppedLoop), ("break", .breakLoop),
    ("continue", .continueLoop), ("return", .returnFrom), ("fun", .function), ("class", .classDecl)]

def stmtHeadOf : List Sexp → StmtHead
  | .word cs :: _ => (stmtHeads.lookup (.ofList cs)).getD .block
  | _ => .block

/-- The tokens that words are. -/
def namesOf (fs : List Sexp) : List Token :=
  fs.filterMap fun
    | .word cs => some (.ofWord cs)
    | _ => none

/-- A reader of numbers, which undoes the exact writing of them. -/
structure NumberReader where
  read : List Char → Float
  read_exact : ∀ x : Float, x.isFinite → (Number.split x).negative = false →
    read (Number.exact x).toList = x

section Reader
variable (reader : NumberReader)

/-- A word that is a tree by itself. -/
def readWord (cs : List Char) : RawExpr :=
  let t := Token.ofWord cs
  if t.kind = .kwNil then .literal .nil
  else if t.kind = .kwTrue then .literal (.bool true)
  else if t.kind = .kwFalse then .literal (.bool false)
  else if t.kind = .kwThis then .this t ()
  else if cs.head?.any Char.isDigit then .literal (.number (reader.read cs))
  else .variable t ()

mutual

/-- The expression that is printed as a symbolic expression; a constant where there is none. -/
def readExpr : Sexp → RawExpr
  | .text cs => .literal (.text (.ofList cs))
  | .word cs => readWord reader cs
  | .group (.word head :: parts) => readForm (headOf head) parts
  | .group _ => .literal .nil

/-- The expression with a head and the parts behind it. -/
def readForm : Head → List Sexp → RawExpr
  | .group, [inner] => .grouping (readExpr inner)
  | .call, callee :: arguments => .call (readExpr callee) (.ofWord [')']) (readExprs arguments)
  | .field, [.word name, object] => .get (readExpr object) (.ofWord name)
  | .function, .group params :: body => .function none (namesOf params) (readStmts body)
  | .function, .word name :: .group params :: body =>
    .function (some (.ofWord name)) (namesOf params) (readStmts body)
  | .sign operator, [.word name, value] => .assign (.ofWord name) operator (readExpr value) ()
  | .sign operator, [.word name, object, value] =>
    .set (readExpr object) (.ofWord (name.drop 1)) operator (readExpr value)
  | .logical operator, [left, right] => .logical (readExpr left) operator (readExpr right)
  | .operator operator, [left, right] => .binary (readExpr left) operator (readExpr right)
  | .operator operator, [right] => .unary operator (readExpr right)
  | _, _ => .literal .nil

def readExprs : List Sexp → List RawExpr
  | [] => []
  | f :: fs => readExpr f :: readExprs fs

def readStmt : Sexp → RawStmt
  | .group parts => readStmtForm (stmtHeadOf parts) parts
  | _ => .block []

/-- The statement with a head and parts, the first of which is the head. -/
def readStmtForm : StmtHead → List Sexp → RawStmt
  | .expression, [_, value] => .expression (readExpr value)
  | .print, [_, value] => .print (readExpr value)
  | .variable, [_, .word name] => .varDecl (.ofWord name) none
  | .variable, [_, .word name, value] => .varDecl (.ofWord name) (some (readExpr value))
  | .block, _ :: body => .block (readStmts body)
  | .onlyIf, [_, condition, yes] => .ifElse (readExpr condition) (readStmt yes) none
  | .ifElse, [_, condition, yes, no] =>
    .ifElse (readExpr condition) (readStmt yes) (some (readStmt no))
  | .loop, [_, condition, body] => .loop (readExpr condition) (readStmt body) none
  | .steppedLoop, [_, condition, increment, body] =>
    .loop (readExpr condition) (readStmt body) (some (readExpr increment))
  | .breakLoop, [.word keyword] => .breakLoop (.ofWord keyword)
  | .continueLoop, [.word keyword] => .continueLoop (.ofWord keyword)
  | .returnFrom, [.word keyword] => .returnFrom (.ofWord keyword) none
  | .returnFrom, [.word keyword, value] =>
    .returnFrom (.ofWord keyword) (some (readExpr value))
  | .function, _ :: .word name :: .group params :: body =>
    .functionDecl (.ofWord name) (namesOf params) (readStmts body)
  | .classDecl, _ :: .word name :: methods => .classDecl (.ofWord name) (readMethods methods)
  | _, _ => .block []

def readStmts : List Sexp → List RawStmt
  | [] => []
  | f :: fs => readStmt f :: readStmts fs

def readMethods : List Sexp → List RawMethod
  | .group (.word _ :: .word name :: .group params :: body) :: fs =>
    .mk (.ofWord name) (namesOf params) (readStmts body) :: readMethods fs
  | _ => []

end
end Reader

section Heads
variable {t : Token} {kinds : List Kind}

theorem Token.Spells.ofWord (h : t.Spells kinds)
    (hkinds : ∀ kind ∈ kinds, kind ≠ .string ∧ kind ≠ .number) :
    Token.ofWord t.lexeme.toList = t.bare := by
  obtain ⟨hstring, hnumber⟩ := hkinds _ h.1
  rw [bare_eq_ofLexeme h.2 hstring hnumber, Token.ofWord, String.ofList_toList]

theorem Token.Spells.proper (h : t.Spells kinds) (hkinds : ∀ kind ∈ kinds, kind.isPlain) :
    (Sexp.word t.lexeme.toList).Proper :=
  proper_word h.2 (hkinds _ h.1)

/-- A name as a word. -/
theorem Token.Spells.name (h : t.Spells nameKinds) :
    (Sexp.word t.lexeme.toList).Proper ∧ Token.ofWord t.lexeme.toList = t.bare :=
  ⟨h.proper (by decide), h.ofWord (by decide)⟩

/-- The only token of a kind with a fixed text. -/
theorem Token.Spells.fixed {kind : Kind} {s : String} (h : t.Spells [kind])
    (hs : ∀ entry ∈ Kind.fixed, entry.2 = kind → entry.1 = s)
    (hkind : kind ∉ [.identifier, .string, .number]) : Token.ofWord s.toList = t.bare := by
  have hlexeme : t.lexeme = s := by
    obtain ⟨hmem, hlexeme⟩ := h
    obtain rfl := List.mem_singleton.mp hmem
    unfold Token.IsLexeme at hlexeme
    generalize hcs : t.lexeme.toList = cs at hlexeme
    have heq : t.lexeme = .ofList cs := by rw [← hcs, String.ofList_toList]
    rw [heq]
    generalize t.kind = kind, t.literal = literal at *
    cases hlexeme with
    | operator hentry => exact hs _ (List.mem_append_left _ hentry) rfl
    | keyword hentry => exact hs _ (List.mem_append_right _ hentry) rfl
    | identifier | whole | decimal | string => exact absurd (by simp) hkind
  rw [← hlexeme]
  apply h.ofWord
  simp_all

theorem headOf_operator (h : t.Spells kinds)
    (hkinds : ∀ kind ∈ kinds, kind ∈ unaryKinds ++ binaryKinds) :
    headOf t.lexeme.toList = .operator t.bare := by
  have hall : ∀ kind ∈ unaryKinds ++ binaryKinds, kind ≠ .string ∧ kind ≠ .number ∧
      kind ≠ .identifier ∧ kind ≠ .dot ∧ kind ≠ .kwFun ∧ kind ≠ .equal ∧ kind ∉ compoundKinds ∧
      kind ∉ logicalKinds := by decide
  have hword := h.ofWord fun kind hkind =>
    ⟨(hall _ (hkinds _ hkind)).1, (hall _ (hkinds _ hkind)).2.1⟩
  obtain ⟨-, -, h1, h2, h3, h4, h5, h6⟩ := hall _ (hkinds _ h.1)
  simp [headOf, hword, Token.bare, h1, h2, h3, h4, h5, h6]

theorem headOf_logical (h : t.Spells logicalKinds) :
    headOf t.lexeme.toList = .logical t.bare := by
  have hall : ∀ kind ∈ logicalKinds, kind ≠ .identifier ∧ kind ≠ .dot ∧ kind ≠ .kwFun ∧
      kind ≠ .equal ∧ kind ∉ compoundKinds := by decide
  obtain ⟨h1, h2, h3, h4, h5⟩ := hall _ h.1
  simp [headOf, h.ofWord (by decide), Token.bare, h1, h2, h3, h4, h5, h.1]

theorem headOf_sign {operator : Option Token} (h : ∀ t ∈ operator, t.Spells compoundKinds) :
    headOf (assignmentSign operator).toList = .sign (operator.map Token.bare) ∧
      (signSexp operator).Proper := by
  cases operator with
  | none => exact ⟨rfl, by decide⟩
  | some t =>
    have ht := h t rfl
    have hall : ∀ kind ∈ compoundKinds, kind ≠ .identifier ∧ kind ≠ .dot ∧ kind ≠ .kwFun ∧
        kind ≠ .equal := by decide
    obtain ⟨h1, h2, h3, h4⟩ := hall _ ht.1
    refine ⟨?_, ht.proper (by decide)⟩
    simp [headOf, assignmentSign, ht.ofWord (by decide), Token.bare, h1, h2, h3, h4, ht.1]

end Heads

section Reading
variable {reader : NumberReader} {t : Token}

theorem readWord_name (h : t.Spells nameKinds) :
    readWord reader t.lexeme.toList = .variable t.bare () := by
  have hkind : t.kind = .identifier := List.mem_singleton.mp h.1
  obtain ⟨c, rest, hc, hcs⟩ := first_identifier h.2 hkind
  have hdigit : c.isDigit = false := by
    rw [← isDigit_eq, Bool.eq_false_iff]
    intro hdigit
    rw [isLetter_eq_false_of_isDigit hdigit] at hc
    cases hc
  have hword := h.name.2
  rw [hcs] at hword ⊢
  simp [readWord, hword, Token.bare, hkind, hdigit]

theorem readWord_number {cs : List Char} (h : Number.Numeral cs) :
    readWord reader cs = .literal (.number (reader.read cs)) := by
  obtain ⟨c, rest, hc, rfl⟩ := h.first
  have hkeyword : String.ofList (c :: rest) ∉ Kind.keywords.map (·.1) := by
    have hall : ∀ word ∈ Kind.keywords.map (·.1), (word.toList.headD ' ').isDigit = false := by
      decide
    intro hmem
    have hfirst := hall _ hmem
    rw [String.toList_ofList, List.headD_cons, hc] at hfirst
    cases hfirst
  have hnone : Kind.fixed.lookup (.ofList (c :: rest)) = none :=
    lookup_word (by simp [isWordPart, isDigit_eq, hc]) hkeyword
  simp [readWord, Token.ofWord, Token.ofLexeme, hnone, hc, -String.ofList_cons]

theorem numeral_proper {cs : List Char} (h : Number.Numeral cs) : (Sexp.word cs).Proper := by
  obtain ⟨c, rest, hc, rfl⟩ := h.first
  have hall : delimiters.all fun d => !d.isDigit && d ∉ ['.', 'e', '+', '-'] := by decide
  refine ⟨List.cons_ne_nil _ _, fun d hd hmem => ?_⟩
  have hd' := List.all_eq_true.mp hall d hmem
  rw [Bool.and_eq_true, Bool.not_eq_true', decide_eq_true_eq] at hd'
  obtain hd | hd := h.letters d hd
  · rw [hd'.1] at hd
    cases hd
  · exact hd'.2 hd

theorem Literal.reads (value : Literal) (h : value.Spelled)
    (hfinite : ∀ x ∈ (Expr.literal value : RawExpr).numbers, x.isFinite) :
    value.sexp.Proper ∧ readExpr reader value.sexp = .literal value := by
  cases value with
  | nil => exact ⟨by decide, rfl⟩
  | bool b => cases b <;> exact ⟨by decide, rfl⟩
  | text s => exact ⟨h, by simp [Literal.sexp, readExpr]⟩
  | number x =>
    have hx : x.isFinite := hfinite x List.mem_cons_self
    have hnumeral := Number.exact_numeral hx h
    refine ⟨numeral_proper hnumeral, ?_⟩
    simp only [Literal.sexp, ofString, readExpr]
    rw [readWord_number hnumeral, reader.read_exact x hx h]

theorem names_read {params : List Token} (h : ∀ t ∈ params, t.Spells nameKinds) :
    AllProper (params.map Token.sexp) ∧
      namesOf (params.map Token.sexp) = params.map Token.bare := by
  induction params with
  | nil => exact ⟨trivial, rfl⟩
  | cons t params ih =>
    obtain ⟨ht, hparams⟩ := List.forall_mem_cons.mp h
    obtain ⟨hproper, hnames⟩ := ih hparams
    refine ⟨⟨ht.name.1, hproper⟩, ?_⟩
    rw [List.map_cons, List.map_cons, ← hnames, ← ht.name.2]
    rfl

theorem routine_proper {name : Option Token} {params : List Token} {body : List Sexp}
    (hname : ∀ t ∈ name, t.Spells nameKinds) (hparams : ∀ t ∈ params, t.Spells nameKinds)
    (hbody : AllProper body) : (routineSexp name params body).Proper := by
  have hkeyword : (ofString "fun").Proper := by decide
  cases name with
  | none => exact ⟨hkeyword, (names_read hparams).1, hbody⟩
  | some t => exact ⟨hkeyword, (hname t rfl).name.1, (names_read hparams).1, hbody⟩

/-- A field behind a point. -/
theorem field_proper (h : t.Spells nameKinds) : (ofString ("." ++ t.lexeme)).Proper := by
  obtain ⟨-, hletters⟩ := h.name.1
  have htext : ("." ++ t.lexeme).toList = '.' :: t.lexeme.toList := by simp
  rw [ofString, htext]
  exact ⟨List.cons_ne_nil _ _, List.forall_mem_cons.mpr ⟨by decide, hletters⟩⟩

/-- The form of an expression is read by its first word. -/
theorem readExpr_group {s : String} {head : Head} (parts : List Sexp)
    (h : headOf s.toList = head) :
    readExpr reader (.group (ofString s :: parts)) = readForm reader head parts := by
  rw [ofString, readExpr, h]

/-- The form of a statement is read by its first word. -/
theorem readStmt_group {s : String} {head : StmtHead} (parts : List Sexp)
    (h : stmtHeads.lookup s = some head) :
    readStmt reader (.group (ofString s :: parts)) =
      readStmtForm reader head (.word s.toList :: parts) := by
  rw [ofString, readStmt, stmtHeadOf, String.ofList_toList, h, Option.getD_some]

mutual

/-- A tree can be read from its symbolic expression, but for the places of its tokens. -/
theorem Expr.reads : (e : RawExpr) → e.Spelled → (∀ x ∈ e.numbers, x.isFinite) →
    e.sexp.Proper ∧ readExpr reader e.sexp = e.map Token.bare id
  | .literal value, h, hfinite => value.reads h hfinite
  | .grouping e, h, hfinite => by
    obtain ⟨hproper, hread⟩ := e.reads h hfinite
    have hhead : headOf "group".toList = .group := rfl
    refine ⟨⟨by decide, hproper, trivial⟩, ?_⟩
    rw [Expr.sexp, readExpr_group _ hhead, readForm, hread, Expr.map]
  | .unary t e, h, hfinite => by
    obtain ⟨hproper, hread⟩ := e.reads h.2 hfinite
    have hhead := headOf_operator h.1 (by decide)
    refine ⟨⟨h.1.proper (by decide), hproper, trivial⟩, ?_⟩
    rw [Expr.sexp, Token.sexp, readExpr_group _ hhead, readForm, hread, Expr.map]
  | .binary a t b, ⟨ha, ht, hb⟩, hfinite => by
    obtain ⟨hleft, hright⟩ := List.forall_mem_append.mp hfinite
    obtain ⟨hproper, hread⟩ := a.reads ha hleft
    obtain ⟨hproper', hread'⟩ := b.reads hb hright
    have hhead := headOf_operator ht (by decide)
    refine ⟨⟨ht.proper (by decide), hproper, hproper', trivial⟩, ?_⟩
    rw [Expr.sexp, Token.sexp, readExpr_group _ hhead, readForm, hread, hread', Expr.map]
  | .logical a t b, ⟨ha, ht, hb⟩, hfinite => by
    obtain ⟨hleft, hright⟩ := List.forall_mem_append.mp hfinite
    obtain ⟨hproper, hread⟩ := a.reads ha hleft
    obtain ⟨hproper', hread'⟩ := b.reads hb hright
    have hhead := headOf_logical ht
    refine ⟨⟨ht.proper (by decide), hproper, hproper', trivial⟩, ?_⟩
    rw [Expr.sexp, Token.sexp, readExpr_group _ hhead, readForm, hread, hread', Expr.map]
  | .variable t _, h, _ => ⟨h.name.1, readWord_name h⟩
  | .assign t operator e _, ⟨ht, hoperator, he⟩, hfinite => by
    obtain ⟨hproper, hread⟩ := e.reads he hfinite
    obtain ⟨hhead, hsign⟩ := headOf_sign hoperator
    refine ⟨⟨hsign, ht.name.1, hproper, trivial⟩, ?_⟩
    rw [Expr.sexp, Token.sexp, signSexp, readExpr_group _ hhead, ofString, readForm, hread,
      ht.name.2, Expr.map]
  | .call f t es, ⟨hf, ht, hes⟩, hfinite => by
    obtain ⟨hfirst, hothers⟩ := List.forall_mem_append.mp hfinite
    obtain ⟨hproper, hread⟩ := f.reads hf hfirst
    obtain ⟨hproper', hread'⟩ := Expr.allRead es hes hothers
    have hhead : headOf "call".toList = .call := rfl
    have hparen : Token.ofWord [')'] = t.bare := ht.fixed (s := ")") (by decide) (by decide)
    refine ⟨⟨by decide, hproper, hproper'⟩, ?_⟩
    rw [Expr.sexp, readExpr_group _ hhead, readForm, hread, hread', hparen, Expr.map]
  | .get o t, ⟨ho, ht⟩, hfinite => by
    obtain ⟨hproper, hread⟩ := o.reads ho hfinite
    have hhead : headOf ".".toList = .field := rfl
    refine ⟨⟨by decide, ht.name.1, hproper, trivial⟩, ?_⟩
    rw [Expr.sexp, Token.sexp, readExpr_group _ hhead, ofString, readForm, hread, ht.name.2,
      Expr.map]
  | .set o t operator e, ⟨ho, ht, hoperator, he⟩, hfinite => by
    obtain ⟨hobject, hvalue⟩ := List.forall_mem_append.mp hfinite
    obtain ⟨hproper, hread⟩ := o.reads ho hobject
    obtain ⟨hproper', hread'⟩ := e.reads he hvalue
    obtain ⟨hhead, hsign⟩ := headOf_sign hoperator
    have hname : Token.ofWord (("." ++ t.lexeme).toList.drop 1) = t.bare := by
      rw [← ht.name.2]
      simp
    refine ⟨⟨hsign, field_proper ht, hproper, hproper', trivial⟩, ?_⟩
    rw [Expr.sexp, signSexp, readExpr_group _ hhead, ofString, readForm, hread, hread', hname,
      Expr.map]
  | .this t _, h, _ => by
    have hword : Token.ofWord "this".toList = t.bare := h.fixed (by decide) (by decide)
    have hkind : t.kind = .kwThis := List.mem_singleton.mp h.1
    have hread : readWord reader "this".toList = .this t.bare () := by
      simp only [readWord, hword]
      simp [Token.bare, hkind]
    have hproper : (ofString "this").Proper := by decide
    exact ⟨hproper, hread⟩
  | .function name params body, ⟨hname, hparams, hbody⟩, hfinite => by
    obtain ⟨hproper, hread⟩ := Stmt.allRead body hbody hfinite
    have hhead : headOf "fun".toList = .function := rfl
    refine ⟨routine_proper hname hparams hproper, ?_⟩
    cases name with
    | none =>
      change readExpr reader (.group (ofString "fun" :: .group _ :: _)) = _
      rw [readExpr_group _ hhead, readForm, hread, (names_read hparams).2, Expr.map]
      rfl
    | some t =>
      change readExpr reader (.group (ofString "fun" :: t.sexp :: .group _ :: _)) = _
      rw [readExpr_group _ hhead, Token.sexp, ofString, readForm, hread, (names_read hparams).2,
        (hname t rfl).name.2, Expr.map]
      rfl

theorem Expr.allRead : (es : List RawExpr) → Expr.AllSpelled es →
    (∀ x ∈ Expr.allNumbers es, x.isFinite) →
    AllProper (Expr.allSexps es) ∧
      readExprs reader (Expr.allSexps es) = Expr.mapAll Token.bare id es
  | [], _, _ => ⟨trivial, rfl⟩
  | e :: es, h, hfinite => by
    obtain ⟨hfirst, hothers⟩ := List.forall_mem_append.mp hfinite
    obtain ⟨hproper, hread⟩ := e.reads h.1 hfirst
    obtain ⟨hproper', hread'⟩ := Expr.allRead es h.2 hothers
    exact ⟨⟨hproper, hproper'⟩, congrArg₂ List.cons hread hread'⟩

theorem Stmt.reads : (s : RawStmt) → s.Spelled → (∀ x ∈ s.numbers, x.isFinite) →
    s.sexp.Proper ∧ readStmt reader s.sexp = s.map Token.bare id
  | .expression e, h, hfinite => by
    obtain ⟨hproper, hread⟩ := e.reads h hfinite
    refine ⟨⟨by decide, hproper, trivial⟩, ?_⟩
    rw [Stmt.sexp, readStmt_group (s := ";") _ rfl, readStmtForm, hread, Stmt.map]
  | .print e, h, hfinite => by
    obtain ⟨hproper, hread⟩ := e.reads h hfinite
    refine ⟨⟨by decide, hproper, trivial⟩, ?_⟩
    rw [Stmt.sexp, readStmt_group (s := "print") _ rfl, readStmtForm, hread, Stmt.map]
  | .varDecl t none, h, _ => by
    refine ⟨⟨by decide, h.name.1, trivial⟩, ?_⟩
    rw [Stmt.sexp, Token.sexp, readStmt_group (s := "var") _ rfl, ofString, readStmtForm,
      h.name.2, Stmt.map]
  | .varDecl t (some e), ⟨ht, he⟩, hfinite => by
    obtain ⟨hproper, hread⟩ := e.reads he hfinite
    refine ⟨⟨by decide, ht.name.1, hproper, trivial⟩, ?_⟩
    rw [Stmt.sexp, Token.sexp, readStmt_group (s := "var") _ rfl, ofString, readStmtForm,
      ht.name.2, hread, Stmt.map]
  | .block body, h, hfinite => by
    obtain ⟨hproper, hread⟩ := Stmt.allRead body h hfinite
    refine ⟨⟨by decide, hproper⟩, ?_⟩
    rw [Stmt.sexp, readStmt_group (s := "block") _ rfl, readStmtForm, hread, Stmt.map]
  | .ifElse c yes none, ⟨hc, hyes⟩, hfinite => by
    obtain ⟨hfirst, hsecond⟩ := List.forall_mem_append.mp hfinite
    obtain ⟨hproper, hread⟩ := c.reads hc hfirst
    obtain ⟨hproper', hread'⟩ := yes.reads hyes hsecond
    refine ⟨⟨by decide, hproper, hproper', trivial⟩, ?_⟩
    rw [Stmt.sexp, readStmt_group (s := "if") _ rfl, readStmtForm, hread, hread', Stmt.map]
  | .ifElse c yes (some no), ⟨hc, hyes, hno⟩, hfinite => by
    obtain ⟨hfirst, hrest⟩ := List.forall_mem_append.mp hfinite
    obtain ⟨hsecond, hthird⟩ := List.forall_mem_append.mp hrest
    obtain ⟨hproper, hread⟩ := c.reads hc hfirst
    obtain ⟨hproper', hread'⟩ := yes.reads hyes hsecond
    obtain ⟨hproper'', hread''⟩ := no.reads hno hthird
    refine ⟨⟨by decide, hproper, hproper', hproper'', trivial⟩, ?_⟩
    rw [Stmt.sexp, readStmt_group (s := "if-else") _ rfl, readStmtForm, hread, hread', hread'',
      Stmt.map]
  | .loop c body none, ⟨hc, hbody⟩, hfinite => by
    obtain ⟨hfirst, hsecond⟩ := List.forall_mem_append.mp hfinite
    obtain ⟨hproper, hread⟩ := c.reads hc hfirst
    obtain ⟨hproper', hread'⟩ := body.reads hbody hsecond
    refine ⟨⟨by decide, hproper, hproper', trivial⟩, ?_⟩
    rw [Stmt.sexp, readStmt_group (s := "while") _ rfl, readStmtForm, hread, hread', Stmt.map]
  | .loop c body (some n), ⟨hc, hbody, hn⟩, hfinite => by
    obtain ⟨hfirst, hrest⟩ := List.forall_mem_append.mp hfinite
    obtain ⟨hsecond, hthird⟩ := List.forall_mem_append.mp hrest
    obtain ⟨hproper, hread⟩ := c.reads hc hfirst
    obtain ⟨hproper', hread'⟩ := body.reads hbody hsecond
    obtain ⟨hproper'', hread''⟩ := n.reads hn hthird
    refine ⟨⟨by decide, hproper, hproper'', hproper', trivial⟩, ?_⟩
    rw [Stmt.sexp, readStmt_group (s := "for") _ rfl, readStmtForm, hread, hread', hread'',
      Stmt.map]
  | .breakLoop t, h, _ => by
    have hword : Token.ofWord "break".toList = t.bare := h.fixed (by decide) (by decide)
    refine ⟨⟨by decide, trivial⟩, ?_⟩
    rw [Stmt.sexp, readStmt_group (s := "break") _ rfl, readStmtForm, hword, Stmt.map]
  | .continueLoop t, h, _ => by
    have hword : Token.ofWord "continue".toList = t.bare := h.fixed (by decide) (by decide)
    refine ⟨⟨by decide, trivial⟩, ?_⟩
    rw [Stmt.sexp, readStmt_group (s := "continue") _ rfl, readStmtForm, hword, Stmt.map]
  | .returnFrom t none, h, _ => by
    have hword : Token.ofWord "return".toList = t.bare := h.fixed (by decide) (by decide)
    refine ⟨⟨by decide, trivial⟩, ?_⟩
    rw [Stmt.sexp, readStmt_group (s := "return") _ rfl, readStmtForm, hword, Stmt.map]
  | .returnFrom t (some e), ⟨ht, he⟩, hfinite => by
    obtain ⟨hproper, hread⟩ := e.reads he hfinite
    have hword : Token.ofWord "return".toList = t.bare := ht.fixed (by decide) (by decide)
    refine ⟨⟨by decide, hproper, trivial⟩, ?_⟩
    rw [Stmt.sexp, readStmt_group (s := "return") _ rfl, readStmtForm, hword, hread, Stmt.map]
  | .functionDecl t params body, ⟨ht, hparams, hbody⟩, hfinite => by
    obtain ⟨hproper, hread⟩ := Stmt.allRead body hbody hfinite
    refine ⟨routine_proper (fun _ h => Option.some.inj h ▸ ht) hparams hproper, ?_⟩
    change readStmt reader (.group (ofString "fun" :: t.sexp :: .group _ :: _)) = _
    rw [Token.sexp, readStmt_group (s := "fun") _ rfl, ofString, readStmtForm, hread,
      (names_read hparams).2, ht.name.2, Stmt.map]
  | .classDecl t ms, ⟨ht, hms⟩, hfinite => by
    obtain ⟨hproper, hread⟩ := Method.allRead ms hms hfinite
    refine ⟨⟨by decide, ht.name.1, hproper⟩, ?_⟩
    rw [Stmt.sexp, Token.sexp, readStmt_group (s := "class") _ rfl, ofString, readStmtForm,
      ht.name.2, hread, Stmt.map]

theorem Stmt.allRead : (ss : List RawStmt) → Stmt.AllSpelled ss →
    (∀ x ∈ Stmt.allNumbers ss, x.isFinite) →
    AllProper (Stmt.allSexps ss) ∧
      readStmts reader (Stmt.allSexps ss) = Stmt.mapAll Token.bare id ss
  | [], _, _ => ⟨trivial, rfl⟩
  | s :: ss, h, hfinite => by
    obtain ⟨hfirst, hothers⟩ := List.forall_mem_append.mp hfinite
    obtain ⟨hproper, hread⟩ := s.reads h.1 hfirst
    obtain ⟨hproper', hread'⟩ := Stmt.allRead ss h.2 hothers
    exact ⟨⟨hproper, hproper'⟩, congrArg₂ List.cons hread hread'⟩

theorem Method.allRead : (ms : List RawMethod) → Method.AllSpelled ms →
    (∀ x ∈ Method.allNumbers ms, x.isFinite) →
    AllProper (Method.allSexps ms) ∧
      readMethods reader (Method.allSexps ms) = Method.mapAll Token.bare id ms
  | [], _, _ => ⟨trivial, rfl⟩
  | .mk t params body :: ms, ⟨⟨ht, hparams, hbody⟩, hms⟩, hfinite => by
    obtain ⟨hfirst, hothers⟩ := List.forall_mem_append.mp hfinite
    obtain ⟨hproper, hread⟩ := Stmt.allRead body hbody hfirst
    obtain ⟨hproper', hread'⟩ := Method.allRead ms hms hothers
    refine ⟨⟨routine_proper (fun _ h => Option.some.inj h ▸ ht) hparams hproper, hproper'⟩, ?_⟩
    change readMethods reader (.group (ofString "fun" :: t.sexp :: .group _ :: _) :: _) = _
    rw [ofString, Token.sexp, ofString, readMethods, hread, hread', (names_read hparams).2,
      ht.name.2, Method.mapAll]

end
end Reading

/-- The exact text of a number is that of no other one, so it can be read. -/
theorem exists_numberReader : Nonempty NumberReader := by
  let reads (cs : List Char) (x : Float) : Prop :=
    x.isFinite ∧ (Number.split x).negative = false ∧ (Number.exact x).toList = cs
  refine ⟨⟨fun cs => Classical.epsilon (reads cs), fun x hx hsign => ?_⟩⟩
  obtain ⟨hy, hsign', htext⟩ := Classical.epsilon_spec (p := reads (Number.exact x).toList)
    ⟨x, hx, hsign, rfl⟩
  exact Number.exact_injective hy hx hsign' hsign (String.toList_injective htext)

/-- The printed form determines the program: two sources that parse without a fault, all of whose
number literals are finite, and whose programs are printed alike have the same program, but for the
places of its tokens. -/
theorem printed_determines (a b : String) (ha : (parse (scan a).tokens).diagnostics = [])
    (hb : (parse (scan b).tokens).diagnostics = [])
    (hfinite : ∀ x ∈ Stmt.allNumbers (programOf a), x.isFinite)
    (hfinite' : ∀ x ∈ Stmt.allNumbers (programOf b), x.isFinite)
    (h : printProgram (programOf a) = printProgram (programOf b)) :
    Stmt.mapAll Token.bare id (programOf a) = Stmt.mapAll Token.bare id (programOf b) := by
  obtain ⟨reader⟩ := exists_numberReader
  obtain ⟨hproper, hread⟩ := @Stmt.allRead reader (programOf a) (spelled_programOf ha) hfinite
  obtain ⟨hproper', hread'⟩ := @Stmt.allRead reader (programOf b) (spelled_programOf hb) hfinite'
  have hlines := congrArg String.toList h
  rw [toList_printProgram, toList_printProgram] at hlines
  rw [← hread, ← hread', lines_unique hproper hproper' hlines]

/-- Blanks, comments and the spelling of numbers are not printed. -/
theorem printed_determines_sum :
    Stmt.mapAll Token.bare id (programOf "print 1 + 2.50;") =
      Stmt.mapAll Token.bare id (programOf "print 1.0 // one\n  + 2.5;") :=
  printed_determines _ _ (by decide +kernel) (by decide +kernel) (by decide +kernel)
    (by decide +kernel) (by decide +kernel)

end LoxScript
