import LoxScript.Proofs.Phrases
import LoxScript.Proofs.Placement

/-!
The words of a source: its tokens without the mark for its end. The program of an accepted source
is derived from them, and has no other tokens.
-/
namespace LoxScript

open Grammar

namespace Scan

theorem ofWord_ne_eof (word : String) : Kind.ofWord word ≠ .eof := by
  unfold Kind.ofWord
  cases hlookup : Kind.keywords.lookup word with
  | none => decide
  | some kind =>
    obtain ⟨before, after, hkeywords, -⟩ := List.lookup_eq_some_iff.mp hlookup
    have hall : ∀ entry ∈ Kind.keywords, entry.2 ≠ .eof := by decide
    exact hall (word, kind) (by simp [hkeywords])

/-- No piece of a text is the mark for its end. -/
theorem cut_ne_eof (c : Char) (rest : List Char) {kind : Kind} {literal : Literal}
    (h : (cut c rest).piece = .token kind literal) : kind ≠ .eof := by
  revert h
  unfold cut
  split
  · rintro ⟨⟩
  split
  next kind hsingle =>
    rintro ⟨⟩
    unfold single? at hsingle
    split at hsingle <;> cases hsingle <;> decide
  split
  next plain withEqual hdouble =>
    unfold cutOperator
    unfold double? at hdouble
    split at hdouble <;> cases hdouble <;> split <;> rintro ⟨⟩ <;> decide
  split
  · rintro ⟨⟩
  split
  · simp only [cutString]
    split <;> rintro ⟨⟩
    decide
  split
  · simp only [cutNumber]
    repeat' split
    all_goals
      rintro ⟨⟩
      decide
  split
  · rintro ⟨⟩
    exact ofWord_ne_eof _
  · rintro ⟨⟩

theorem collect_ne_nil (p : Position) (cs : List Cut) : (collect p cs).tokens ≠ [] := by
  induction cs generalizing p with
  | nil => exact List.cons_ne_nil _ _
  | cons c cs ih =>
    rw [collect, Outcome.add]
    cases c.piece with
    | token kind literal => exact List.cons_ne_nil _ _
    | _ => exact ih _

theorem collect_words (a : List Char) (p : Position) :
    ∀ t ∈ (collect p (cuts a)).tokens.dropLast, t.kind ≠ .eof := by
  induction a using cuts.induct generalizing p with
  | case1 => rw [cuts]; exact List.forall_mem_nil _
  | case2 c rest ih =>
    have hrest := ih (p.after (cut c rest).taken)
    rw [cuts, collect, Outcome.add]
    cases hpiece : (cut c rest).piece with
    | token kind literal =>
      simp only [List.dropLast_cons_of_ne_nil (collect_ne_nil _ _)]
      exact List.forall_mem_cons.mpr ⟨cut_ne_eof c rest hpiece, hrest⟩
    | _ => exact hrest

theorem getLast_collect (cs : List Cut) (p : Position) :
    ∃ line, (collect p cs).tokens = (collect p cs).tokens.dropLast ++ [.endOfText line] := by
  induction cs generalizing p with
  | nil => exact ⟨p.line, rfl⟩
  | cons c cs ih =>
    obtain ⟨line, hline⟩ := ih (p.after c.taken)
    refine ⟨line, ?_⟩
    rw [collect, Outcome.add]
    cases c.piece with
    | token kind literal =>
      simp only [List.dropLast_cons_of_ne_nil (collect_ne_nil _ _), List.cons_append]
      rw [← hline]
    | _ => exact hline

end Scan

/-- The words of a source, without the mark for its end. -/
def wordsOf (source : String) : List Token := (scan source).tokens.dropLast

theorem scan_tokens (source : String) :
    ∃ line, (scan source).tokens = wordsOf source ++ [.endOfText line] :=
  Scan.getLast_collect _ _

theorem wordsOf_ne_eof (source : String) : ∀ t ∈ wordsOf source, t.kind ≠ .eof :=
  Scan.collect_words _ _

theorem takeWhile_scan (source : String) :
    (scan source).tokens.takeWhile (·.kind != .eof) = wordsOf source := by
  obtain ⟨line, hline⟩ := scan_tokens source
  rw [hline, List.takeWhile_append_of_pos (by simpa using wordsOf_ne_eof source)]
  simp [Token.endOfText]

/-- A source parses without a fault exactly if the grammar derives its program from its words. -/
theorem parsed_iff_derives (source : String) (program : List RawStmt) :
    ((parse (scan source).tokens).diagnostics = [] ∧ programOf source = program) ↔
      Derives .declarations (wordsOf source) program [] := by
  rw [← Parse.program_iff_derives]
  simp only [parse, programOf, takeWhile_scan, List.map_eq_nil_iff]

section
variable {a : String}

/-- The tokens of an accepted program are words of its source, and its declared names are
identifiers. -/
theorem Accepted.words (h : Accepted a) {P : Token → Prop} (hP : ∀ t ∈ wordsOf a, P t) :
    Stmt.AllWords P (·.kind = .identifier) (programOf a) :=
  (((parsed_iff_derives a _).mp ⟨h.parsed, rfl⟩).words hP).1

theorem Accepted.resolved_words (h : Accepted a) {P : Token → Prop} (hP : ∀ t ∈ wordsOf a, P t) :
    Stmt.AllWords P (·.kind = .identifier) (resolve (programOf a)).program := by
  have hraw : Stmt.rawAll (resolve (programOf a)).program = programOf a :=
    Stmt.rawAll_resolve (programOf a) .start
  have hwords := h.words hP
  rw [← hraw] at hwords
  exact (Stmt.allWords_map _).mp hwords

end

section
variable {ρ : Type} {P N : Token → Prop}

def Node.Words (P N : Token → Prop) : Node ρ → Prop
  | .expr e => e.Words P N
  | .stmt s => s.Words P N

theorem Expr.AllWords.mem {es : List (Expr ρ)} (h : Expr.AllWords P N es) :
    ∀ e ∈ es, e.Words P N := by
  induction es with
  | nil => exact List.forall_mem_nil _
  | cons e es ih => exact List.forall_mem_cons.mpr ⟨h.1, ih h.2⟩

theorem Stmt.AllWords.mem {ss : List (Stmt ρ)} (h : Stmt.AllWords P N ss) :
    ∀ s ∈ ss, s.Words P N := by
  induction ss with
  | nil => exact List.forall_mem_nil _
  | cons s ss ih => exact List.forall_mem_cons.mpr ⟨h.1, ih h.2⟩

theorem Method.AllWords.mem {ms : List (Method ρ)} (h : Method.AllWords P N ms) :
    ∀ m ∈ ms, (∀ t ∈ m.params, P t ∧ N t) ∧ Stmt.AllWords P N m.body := by
  induction ms with
  | nil => exact List.forall_mem_nil _
  | cons m ms ih =>
    obtain ⟨t, params, body⟩ := m
    exact List.forall_mem_cons.mpr ⟨h.1.2, ih h.2⟩

theorem Stmt.AllWords.nodes {body : List (Stmt ρ)} (h : Stmt.AllWords P N body) :
    ∀ m ∈ body.map Node.stmt, m.Words P N :=
  List.forall_mem_map.mpr h.mem

/-- What is said of the tokens of a node is said of those of the nodes inside it. -/
theorem Node.Words.inside {n : Node ρ} (h : n.Words P N) : ∀ m ∈ n.children, m.Words P N := by
  cases n with
  | expr e =>
    cases e with
    | call f t es => exact List.forall_mem_cons.mpr ⟨h.1, List.forall_mem_map.mpr h.2.2.mem⟩
    | function name params body => exact Stmt.AllWords.nodes h.2.2
    | grouping e => exact List.forall_mem_singleton.mpr h
    | unary t e => exact List.forall_mem_singleton.mpr h.2
    | assign t operator e mark => exact List.forall_mem_singleton.mpr h.2.2
    | get o t => exact List.forall_mem_singleton.mpr h.1
    | binary a t b | logical a t b =>
      exact List.forall_mem_cons.mpr ⟨h.1, List.forall_mem_singleton.mpr h.2.2⟩
    | set o t operator e =>
      exact List.forall_mem_cons.mpr ⟨h.1, List.forall_mem_singleton.mpr h.2.2.2⟩
    | literal value | «variable» t mark | this t mark => exact List.forall_mem_nil _
  | stmt s =>
    cases s with
    | expression e | print e => exact List.forall_mem_singleton.mpr h
    | varDecl t value | returnFrom t value =>
      cases value with
      | none => exact List.forall_mem_nil _
      | some e => exact List.forall_mem_singleton.mpr h.2
    | block body => exact Stmt.AllWords.nodes h
    | ifElse c yes no =>
      cases no with
      | none => exact List.forall_mem_cons.mpr ⟨h.1, List.forall_mem_singleton.mpr h.2⟩
      | some no =>
        exact List.forall_mem_cons.mpr ⟨h.1, List.forall_mem_cons.mpr
          ⟨h.2.1, List.forall_mem_singleton.mpr h.2.2⟩⟩
    | loop c body increment =>
      cases increment with
      | none => exact List.forall_mem_cons.mpr ⟨h.1, List.forall_mem_singleton.mpr h.2⟩
      | some n =>
        exact List.forall_mem_cons.mpr ⟨h.1, List.forall_mem_cons.mpr
          ⟨h.2.1, List.forall_mem_singleton.mpr h.2.2⟩⟩
    | breakLoop t | continueLoop t => exact List.forall_mem_nil _
    | functionDecl t params body => exact Stmt.AllWords.nodes h.2.2
    | classDecl t methods =>
      refine List.forall_mem_flatMap.mpr fun m hm => ?_
      exact (Method.AllWords.mem h.2 m hm).2.nodes

end

theorem Spot.In.words {number : Nat} {source : String} {x : Spot} (hsource : Accepted source)
    (hx : x.In number source) {P : Token → Prop} (hP : ∀ t ∈ wordsOf source, P t) :
    x.node.Words P (·.kind = .identifier) := by
  obtain ⟨y, hy, hwithin⟩ := hx
  induction hwithin with
  | refl =>
    obtain ⟨k, s, hs, rfl⟩ := Spot.mem_stmts hy
    exact (hsource.resolved_words hP).mem s (List.mem_of_getElem? hs)
  | @tail y z _ hz ih =>
    apply ih.inside
    rw [← Spot.map_node_children]
    exact List.mem_map_of_mem hz

end LoxScript
