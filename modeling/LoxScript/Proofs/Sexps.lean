import Mathlib.Logic.Basic
import LoxScript.Tree.Printer

/-!
Symbolic expressions, and the ones that the printer writes.

A symbolic expression is a word, a text in quotes, or symbolic expressions in parentheses with
blanks between them. A text is the rendering of one of them only: its first character says of which
sort it is, and a word ends where a delimiter stands.
-/
namespace LoxScript

inductive Sexp where
  | word (cs : List Char)
  | text (cs : List Char)
  | group (parts : List Sexp)

namespace Sexp

mutual

def render : Sexp → List Char
  | word cs => cs
  | text cs => '"' :: cs ++ ['"']
  | group parts => '(' :: (joined ' ' parts).drop 1 ++ [')']

/-- Renderings with a separator in front of each. -/
def joined (separator : Char) : List Sexp → List Char
  | [] => []
  | f :: fs => separator :: f.render ++ joined separator fs

end

/-- The characters that no word has. -/
def delimiters : List Char := [' ', '\n', '(', ')', '"']

mutual

/-- Words can be told from what surrounds them, and texts have no quotes in them. -/
def Proper : Sexp → Prop
  | word cs => cs ≠ [] ∧ ∀ c ∈ cs, c ∉ delimiters
  | text cs => '"' ∉ cs
  | group parts => AllProper parts

def AllProper : List Sexp → Prop
  | [] => True
  | f :: fs => f.Proper ∧ AllProper fs

end

mutual

instance decidableProper : (f : Sexp) → Decidable f.Proper
  | word cs =>
    decidable_of_iff (cs ≠ [] ∧ cs.all (· ∉ delimiters)) (and_congr_right' (by simp))
  | text cs => inferInstanceAs (Decidable ('"' ∉ cs))
  | group parts => decidableAllProper parts

instance decidableAllProper : (fs : List Sexp) → Decidable (AllProper fs)
  | [] => inferInstanceAs (Decidable True)
  | f :: fs =>
    match decidableProper f, decidableAllProper fs with
    | isTrue h, isTrue hs => isTrue ⟨h, hs⟩
    | isFalse h, _ => isFalse fun hall => h hall.1
    | _, isFalse hs => isFalse fun hall => hs hall.2

end

/-- What may follow a symbolic expression. -/
def Ends (rest : List Char) : Prop := ∀ c ∈ rest.head?, c ∈ delimiters

theorem joined_append (separator : Char) (fs gs : List Sexp) :
    joined separator (fs ++ gs) = joined separator fs ++ joined separator gs := by
  induction fs with
  | nil => rfl
  | cons f fs ih => simp [joined, ih]

section Unique
variable {separator : Char} {cs ds r s : List Char}

theorem ends_cons {c : Char} (hc : c ∈ delimiters) (rest : List Char) : Ends (c :: rest) := by
  intro d hd
  cases hd
  exact hc

theorem ends_joined (hseparator : separator ∈ delimiters) (fs : List Sexp) (hr : Ends r) :
    Ends (joined separator fs ++ r) := by
  cases fs with
  | nil => exact hr
  | cons f fs => exact ends_cons hseparator _

/-- A text is cut in one way in front of its first character that stops. -/
theorem stop_unique {Stop : Char → Prop} (hcs : ∀ c ∈ cs, ¬ Stop c) (hds : ∀ c ∈ ds, ¬ Stop c)
    (hr : ∀ c ∈ r.head?, Stop c) (hs : ∀ c ∈ s.head?, Stop c) (h : cs ++ r = ds ++ s) :
    cs = ds ∧ r = s := by
  induction cs generalizing ds with
  | nil =>
    cases ds with
    | nil => exact ⟨rfl, h⟩
    | cons d ds =>
      rw [List.nil_append, List.cons_append] at h
      exact absurd (hr d (by rw [h]; rfl)) (hds d List.mem_cons_self)
  | cons c cs ih =>
    cases ds with
    | nil =>
      rw [List.nil_append, List.cons_append] at h
      exact absurd (hs c (by rw [← h]; rfl)) (hcs c List.mem_cons_self)
    | cons d ds =>
      obtain ⟨rfl, htail⟩ := List.cons.inj h
      obtain ⟨rfl, rfl⟩ := ih (List.forall_mem_cons.mp hcs).2 (List.forall_mem_cons.mp hds).2 htail
      exact ⟨rfl, rfl⟩

/-- The first character of a word is no delimiter. -/
theorem first_word {c : Char} (hword : (word cs).Proper) (h : cs ++ r = c :: s) :
    c ∉ delimiters := by
  obtain ⟨hne, hcs⟩ := hword
  obtain ⟨d, ds, rfl⟩ := List.exists_cons_of_ne_nil hne
  obtain ⟨rfl, -⟩ := List.cons.inj h
  exact hcs d List.mem_cons_self

theorem first_ne_close {f : Sexp} (hf : f.Proper) : f.render ++ r ≠ ')' :: s := by
  intro h
  cases f with
  | word cs => exact first_word hf h (by decide)
  | text cs => simp [render] at h
  | group parts => simp [render] at h

mutual

/-- A text starts with the rendering of at most one symbolic expression. -/
theorem render_unique : (f : Sexp) → {g : Sexp} → {r s : List Char} → f.Proper → g.Proper →
    Ends r → Ends s → f.render ++ r = g.render ++ s → f = g ∧ r = s
  | .word cs, .word ds, r, s, hf, hg, hr, hs, h => by
    obtain ⟨rfl, rfl⟩ := stop_unique hf.2 hg.2 hr hs h
    exact ⟨rfl, rfl⟩
  | .word cs, .text ds, r, s, hf, _, _, _, h => absurd (first_word hf h) (by decide)
  | .word cs, .group qs, r, s, hf, _, _, _, h => absurd (first_word hf h) (by decide)
  | .text cs, .word ds, r, s, _, hg, _, _, h => absurd (first_word hg h.symm) (by decide)
  | .text cs, .text ds, r, s, hf, hg, _, _, h => by
    simp only [render, List.cons_append, List.append_assoc, List.nil_append, List.cons.injEq,
      true_and] at h
    have hinside {es : List Char} (hes : '"' ∉ es) : ∀ c ∈ es, ¬ c = '"' :=
      fun c hc heq => hes (heq ▸ hc)
    obtain ⟨rfl, hrest⟩ := stop_unique (hinside hf) (hinside hg) (by simp) (by simp) h
    exact ⟨rfl, (List.cons.inj hrest).2⟩
  | .text cs, .group qs, r, s, _, _, _, _, h => by simp [render] at h
  | .group ps, .word ds, r, s, _, hg, _, _, h => absurd (first_word hg h.symm) (by decide)
  | .group ps, .text ds, r, s, _, _, _, _, h => by simp [render] at h
  | .group ps, .group qs, r, s, hf, hg, hr, hs, h => by
    simp only [render, List.cons_append, List.append_assoc, List.nil_append, List.cons.injEq,
      true_and] at h
    have hparts : joined ' ' ps ++ ')' :: r = joined ' ' qs ++ ')' :: s := by
      cases ps with
      | nil =>
        cases qs with
        | nil => exact h
        | cons q qs =>
          simp only [joined, List.drop_nil, List.nil_append, List.cons_append, List.drop_succ_cons,
            List.drop_zero, List.append_assoc] at h
          exact absurd h.symm (first_ne_close hg.1)
      | cons p ps =>
        cases qs with
        | nil =>
          simp only [joined, List.drop_nil, List.nil_append, List.cons_append, List.drop_succ_cons,
            List.drop_zero, List.append_assoc] at h
          exact absurd h (first_ne_close hf.1)
        | cons q qs => exact congrArg (' ' :: ·) h
    obtain ⟨rfl, hrest⟩ := joined_unique ps (by decide) hf hg (ends_cons (by decide) r)
      (ends_cons (by decide) s) (by simp) (by simp) hparts
    exact ⟨rfl, (List.cons.inj hrest).2⟩

theorem joined_unique {separator : Char} : (fs : List Sexp) → {gs : List Sexp} →
    {r s : List Char} → separator ∈ delimiters → AllProper fs → AllProper gs → Ends r → Ends s →
    separator ∉ r.head? → separator ∉ s.head? →
    joined separator fs ++ r = joined separator gs ++ s → fs = gs ∧ r = s
  | [], [], _, _, _, _, _, _, _, _, _, h => ⟨rfl, h⟩
  | [], g :: gs, r, s, _, _, _, _, _, hr, _, h => by
    rw [joined, List.nil_append] at h
    exact absurd (by rw [h]; rfl) hr
  | f :: fs, [], r, s, _, _, _, _, _, _, hs, h => by
    rw [joined, joined, List.nil_append] at h
    exact absurd (by rw [← h]; rfl) hs
  | f :: fs, g :: gs, r, s, hseparator, hf, hg, hr, hs, hr', hs', h => by
    simp only [joined, List.cons_append, List.append_assoc, List.cons.injEq, true_and] at h
    obtain ⟨rfl, hrest⟩ := render_unique f hf.1 hg.1 (ends_joined hseparator fs hr)
      (ends_joined hseparator gs hs) h
    obtain ⟨rfl, rfl⟩ := joined_unique fs hseparator hf.2 hg.2 hr hs hr' hs' hrest
    exact ⟨rfl, rfl⟩

end

/-- Lines are the renderings of one list of symbolic expressions only. -/
theorem lines_unique {fs gs : List Sexp} (hf : AllProper fs) (hg : AllProper gs)
    (h : (joined '\n' fs).drop 1 = (joined '\n' gs).drop 1) : fs = gs := by
  have hfirst {f : Sexp} {fs : List Sexp} (hf : f.Proper) :
      (joined '\n' (f :: fs)).drop 1 ≠ [] := by
    intro hnil
    have hrender : f.render = [] := (List.append_eq_nil_iff.mp hnil).1
    cases f with
    | word cs => exact hf.1 hrender
    | text cs => cases hrender
    | group parts => cases hrender
  have hlines : joined '\n' fs ++ [] = joined '\n' gs ++ [] := by
    cases fs with
    | nil =>
      cases gs with
      | nil => rfl
      | cons g gs => exact absurd h.symm (hfirst hg.1)
    | cons f fs =>
      cases gs with
      | nil => exact absurd h (hfirst hf.1)
      | cons g gs =>
        rw [List.append_nil, List.append_nil]
        exact congrArg ('\n' :: ·) h
  have hends : Ends [] := fun c hc => by cases hc
  exact (joined_unique fs (by decide) hf hg hends hends (by simp) (by simp) hlines).1

end Unique

/-- A word written as a string. -/
def ofString (s : String) : Sexp := word s.toList

theorem group_render (heads parts : List Sexp) (hne : heads ≠ []) :
    (group (heads ++ parts)).render =
      '(' :: (joined ' ' heads).drop 1 ++ joined ' ' parts ++ [')'] := by
  obtain ⟨head, heads, rfl⟩ := List.exists_cons_of_ne_nil hne
  rw [render, joined_append]
  simp [joined]

theorem flatMap_blank (ss : List String) (fs : List Sexp)
    (h : ss.map String.toList = fs.map render) :
    (ss.map (" " ++ ·)).flatMap String.toList = joined ' ' fs := by
  induction ss generalizing fs with
  | nil =>
    cases fs with
    | nil => rfl
    | cons f fs => cases h
  | cons s ss ih =>
    cases fs with
    | nil => cases h
    | cons f fs =>
      obtain ⟨hfirst, hothers⟩ := List.cons.inj h
      rw [List.map_cons, List.flatMap_cons, ih fs hothers, String.toList_append, hfirst]
      rfl

theorem toList_parenthesized {head : String} {parts : List String} (heads : List Sexp)
    {fs : List Sexp} (hne : heads ≠ []) (hhead : head.toList = (joined ' ' heads).drop 1)
    (hparts : parts.map String.toList = fs.map render) :
    (parenthesized head parts).toList = (group (heads ++ fs)).render := by
  rw [group_render heads fs hne]
  simp only [parenthesized, String.toList_append, String.toList_join, flatMap_blank parts fs hparts,
    hhead]
  rfl

/-- Texts with a separator between them. -/
theorem intercalate_render (separator : Char) (fs : List Sexp) :
    List.intercalate [separator] (fs.map render) = (joined separator fs).drop 1 := by
  induction fs with
  | nil => rfl
  | cons f fs ih =>
    cases fs with
    | nil => simp [joined]
    | cons g fs =>
      rw [List.map_cons, List.map_cons, List.intercalate_cons_cons, ← List.map_cons, ih]
      simp [joined]

end Sexp

section Trees
variable {ρ : Type}
open Sexp

def Literal.sexp : Literal → Sexp
  | .nil => ofString "nil"
  | .bool true => ofString "true"
  | .bool false => ofString "false"
  | .number x => ofString (Number.exact x)
  | .text s => .text s.toList

def Token.sexp (t : Token) : Sexp := ofString t.lexeme

/-- A function: its name, if any, its parameters and its body. -/
def routineSexp (name : Option Token) (params : List Token) (body : List Sexp) : Sexp :=
  .group (ofString "fun" :: (name.map Token.sexp).toList ++ .group (params.map Token.sexp) :: body)

def signSexp (operator : Option Token) : Sexp := ofString (assignmentSign operator)

mutual

def Expr.sexp : Expr ρ → Sexp
  | .literal value => value.sexp
  | .grouping inner => .group [ofString "group", inner.sexp]
  | .unary operator right => .group [operator.sexp, right.sexp]
  | .binary left operator right => .group [operator.sexp, left.sexp, right.sexp]
  | .logical left operator right => .group [operator.sexp, left.sexp, right.sexp]
  | .variable name _ => name.sexp
  | .assign name operator value _ => .group [signSexp operator, name.sexp, value.sexp]
  | .call callee _ arguments => .group (ofString "call" :: callee.sexp :: Expr.allSexps arguments)
  | .get object name => .group [ofString ".", name.sexp, object.sexp]
  | .set object name operator value =>
    .group [signSexp operator, ofString ("." ++ name.lexeme), object.sexp, value.sexp]
  | .this _ _ => ofString "this"
  | .function name params body => routineSexp name params (Stmt.allSexps body)

def Expr.allSexps : List (Expr ρ) → List Sexp
  | [] => []
  | e :: es => e.sexp :: Expr.allSexps es

def Stmt.sexp : Stmt ρ → Sexp
  | .expression value => .group [ofString ";", value.sexp]
  | .print value => .group [ofString "print", value.sexp]
  | .varDecl name none => .group [ofString "var", name.sexp]
  | .varDecl name (some value) => .group [ofString "var", name.sexp, value.sexp]
  | .block body => .group (ofString "block" :: Stmt.allSexps body)
  | .ifElse condition yes none => .group [ofString "if", condition.sexp, yes.sexp]
  | .ifElse condition yes (some no) =>
    .group [ofString "if-else", condition.sexp, yes.sexp, no.sexp]
  | .loop condition body none => .group [ofString "while", condition.sexp, body.sexp]
  | .loop condition body (some increment) =>
    .group [ofString "for", condition.sexp, increment.sexp, body.sexp]
  | .breakLoop _ => .group [ofString "break"]
  | .continueLoop _ => .group [ofString "continue"]
  | .returnFrom _ none => .group [ofString "return"]
  | .returnFrom _ (some value) => .group [ofString "return", value.sexp]
  | .functionDecl name params body => routineSexp (some name) params (Stmt.allSexps body)
  | .classDecl name methods => .group (ofString "class" :: name.sexp :: Method.allSexps methods)

def Stmt.allSexps : List (Stmt ρ) → List Sexp
  | [] => []
  | s :: ss => s.sexp :: Stmt.allSexps ss

def Method.allSexps : List (Method ρ) → List Sexp
  | [] => []
  | .mk name params body :: ms =>
    routineSexp (some name) params (Stmt.allSexps body) :: Method.allSexps ms

end

theorem Literal.toList_printed (value : Literal) : value.printed.toList = value.sexp.render := by
  cases value with
  | bool b => cases b <;> rfl
  | text s => simp [Literal.printed, Literal.sexp, render]
  | nil | number x => rfl

theorem toList_functionHead (name : Option Token) (params : List Token) :
    (functionHead name params).toList = (joined ' ' (ofString "fun" ::
      (name.map Token.sexp).toList ++ [.group (params.map Token.sexp)])).drop 1 := by
  have hparams : (" ".intercalate (params.map (·.lexeme))).toList =
      (joined ' ' (params.map Token.sexp)).drop 1 := by
    rw [String.toList_intercalate, ← intercalate_render, List.map_map, List.map_map]
    rfl
  cases name with
  | none => simp [functionHead, hparams, joined, render, ofString]
  | some name => simp [functionHead, hparams, joined, render, ofString, Token.sexp]

theorem toList_routine (name : Option Token) (params : List Token) {body : List String}
    {fs : List Sexp} (hbody : body.map String.toList = fs.map render) :
    (parenthesized (functionHead name params) body).toList =
      (routineSexp name params fs).render := by
  rw [toList_parenthesized _ (by simp) (toList_functionHead name params) hbody]
  simp [routineSexp]

/-- One word or two at the head of a form. -/
theorem toList_form (head : String) {parts : List String} {fs : List Sexp}
    (hparts : parts.map String.toList = fs.map render) :
    (parenthesized head parts).toList = (Sexp.group (ofString head :: fs)).render :=
  toList_parenthesized [ofString head] (by simp) (by simp [joined, render, ofString]) hparts

theorem toList_form_name (head name : String) {parts : List String} {fs : List Sexp}
    (hparts : parts.map String.toList = fs.map render) :
    (parenthesized (head ++ " " ++ name) parts).toList =
      (Sexp.group (ofString head :: ofString name :: fs)).render :=
  toList_parenthesized [ofString head, ofString name] (by simp)
    (by simp [joined, render, ofString]) hparts

mutual

/-- Every tree is printed as its symbolic expression. -/
theorem Expr.toList_printed : (e : Expr ρ) → e.printed.toList = e.sexp.render
  | .literal value => value.toList_printed
  | .grouping e => toList_form "group" (by simp [e.toList_printed])
  | .unary t e => toList_form t.lexeme (by simp [e.toList_printed])
  | .binary a t b => toList_form t.lexeme (by simp [a.toList_printed, b.toList_printed])
  | .logical a t b => toList_form t.lexeme (by simp [a.toList_printed, b.toList_printed])
  | .variable _ _ => rfl
  | .assign t operator e _ =>
    toList_form_name (assignmentSign operator) t.lexeme (by simp [e.toList_printed])
  | .call f _ es => toList_form "call" (by simp [f.toList_printed, Expr.toList_allPrinted es])
  | .get o t => toList_form_name "." t.lexeme (by simp [o.toList_printed])
  | .set o t operator e => by
    have hhead : assignmentSign operator ++ " ." ++ t.lexeme =
        assignmentSign operator ++ " " ++ ("." ++ t.lexeme) := by
      apply String.toList_injective
      simp
    rw [Expr.printed, hhead]
    exact toList_form_name _ _ (by simp [o.toList_printed, e.toList_printed])
  | .this _ _ => rfl
  | .function name params body => toList_routine name params (Stmt.toList_allPrinted body)

theorem Expr.toList_allPrinted : (es : List (Expr ρ)) →
    (Expr.allPrinted es).map String.toList = (Expr.allSexps es).map render
  | [] => rfl
  | e :: es => congrArg₂ List.cons e.toList_printed (Expr.toList_allPrinted es)

theorem Stmt.toList_printed : (s : Stmt ρ) → s.printed.toList = s.sexp.render
  | .expression e => toList_form ";" (by simp [e.toList_printed])
  | .print e => toList_form "print" (by simp [e.toList_printed])
  | .varDecl t none => toList_form_name "var" t.lexeme rfl
  | .varDecl t (some e) => toList_form_name "var" t.lexeme (by simp [e.toList_printed])
  | .block body => toList_form "block" (Stmt.toList_allPrinted body)
  | .ifElse c yes none => toList_form "if" (by simp [c.toList_printed, yes.toList_printed])
  | .ifElse c yes (some no) =>
    toList_form "if-else" (by simp [c.toList_printed, yes.toList_printed, no.toList_printed])
  | .loop c body none => toList_form "while" (by simp [c.toList_printed, body.toList_printed])
  | .loop c body (some n) =>
    toList_form "for" (by simp [c.toList_printed, body.toList_printed, n.toList_printed])
  | .breakLoop _ => toList_form "break" rfl
  | .continueLoop _ => toList_form "continue" rfl
  | .returnFrom _ none => toList_form "return" rfl
  | .returnFrom _ (some e) => toList_form "return" (by simp [e.toList_printed])
  | .functionDecl t params body => toList_routine (some t) params (Stmt.toList_allPrinted body)
  | .classDecl t ms => toList_form_name "class" t.lexeme (Method.toList_allPrinted ms)

theorem Stmt.toList_allPrinted : (ss : List (Stmt ρ)) →
    (Stmt.allPrinted ss).map String.toList = (Stmt.allSexps ss).map render
  | [] => rfl
  | s :: ss => congrArg₂ List.cons s.toList_printed (Stmt.toList_allPrinted ss)

theorem Method.toList_allPrinted : (ms : List (Method ρ)) →
    (Method.allPrinted ms).map String.toList = (Method.allSexps ms).map render
  | [] => rfl
  | .mk t params body :: ms =>
    congrArg₂ List.cons (toList_routine (some t) params (Stmt.toList_allPrinted body))
      (Method.toList_allPrinted ms)

end

theorem toList_printProgram (program : List (Stmt ρ)) :
    (printProgram program).toList = (joined '\n' (Stmt.allSexps program)).drop 1 := by
  rw [printProgram, String.toList_intercalate, Stmt.toList_allPrinted, ← intercalate_render]
  rfl

/-- Programs with the same symbolic expressions are printed alike. -/
theorem printProgram_eq {program other : List (Stmt ρ)}
    (h : joined '\n' (Stmt.allSexps program) = joined '\n' (Stmt.allSexps other)) :
    printProgram program = printProgram other := by
  apply String.toList_inj.mp
  rw [toList_printProgram, toList_printProgram, h]

end Trees
end LoxScript
