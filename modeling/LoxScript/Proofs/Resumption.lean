import LoxScript.Proofs.Continuation

/-!
Where parsing resumes.

A statement that starts with no keyword and opens no block is an expression up to a semicolon. No
part of an expression takes a semicolon, and recovery goes on behind the first one. So however
broken the statement is, the tokens behind its semicolon are parsed as they are by themselves, and
the faults that it has are at tokens of its own.
-/
namespace LoxScript

open Grammar LoxScript.Parser Parse

namespace Parse

/-- The places in some words up to a semicolon. -/
def Ground.before {semicolon : Token} (h : semicolon.kind = .semicolon) (words rest : List Token) :
    Ground where
  holds now := ∃ front, front <:+ words ∧ now = front ++ semicolon :: rest
  closed := by
    rintro t ts ⟨front, hfront, heq⟩ hkind
    cases front with
    | nil =>
      cases heq
      exact absurd h hkind
    | cons u front =>
      cases heq
      exact ⟨front, (List.suffix_cons _ front).trans hfront, rfl⟩

section
variable {semicolon : Token} {hsemicolon : semicolon.kind = .semicolon} {junk b now : List Token}

theorem Ground.before_head (hnow : (before hsemicolon junk b).holds now) :
    ∃ t ∈ junk ++ [semicolon], now.head? = some t := by
  obtain ⟨front, hfront, rfl⟩ := hnow
  cases front with
  | nil => exact ⟨semicolon, List.mem_append_right _ List.mem_cons_self, rfl⟩
  | cons t front => exact ⟨t, List.mem_append_left _ (hfront.subset List.mem_cons_self), rfl⟩

/-- From a place up to a semicolon, recovery goes behind it, if no word starts a statement. -/
theorem recover_before (hwords : ∀ t ∈ junk, t.kind ≠ .semicolon ∧ t.kind ∉ statementStarts)
    (hnow : (Ground.before hsemicolon junk b).holds now) : recover now = b := by
  have hbehind : skipFrom semicolon b = b := by
    cases b with
    | nil => rfl
    | cons t b => simp [skipFrom, hsemicolon]
  obtain ⟨front, hfront, rfl⟩ := hnow
  replace hwords := fun t ht => hwords t (hfront.subset ht)
  cases front with
  | nil => exact hbehind
  | cons t front =>
    change skipFrom t (front ++ semicolon :: b) = b
    clear hfront
    induction front generalizing t with
    | nil =>
      have ht := (hwords t List.mem_cons_self).1
      simp [skipFrom, ht, hsemicolon, statementStarts, hbehind]
    | cons u front ih =>
      obtain ⟨ht, hothers⟩ := List.forall_mem_cons.mp hwords
      have hu := (hothers u List.mem_cons_self).2
      simp only [List.cons_append, skipFrom, ht.1, List.contains_eq_mem, hu, decide_false,
        Bool.false_eq_true, or_self, if_false]
      exact ih u hothers

theorem expect_before (what : String) (hwords : ∀ t ∈ junk, t.kind ≠ .semicolon)
    (hnow : (Ground.before hsemicolon junk b).holds now) :
    expect .semicolon what now = ⟨some semicolon, b, []⟩ ∨
      expect .semicolon what now = ⟨none, now, [⟨now.head?, .expected what⟩]⟩ := by
  obtain ⟨front, hfront, rfl⟩ := hnow
  cases front with
  | nil => exact .inl (by simp [expect, hsemicolon, done])
  | cons t front =>
    have ht := hwords t (hfront.subset List.mem_cons_self)
    exact .inr (by simp [expect, ht, fail])

/-- An expression statement takes the semicolon or stays in front of it. -/
theorem expressionStatement_before {k : Nested} {d : Nat}
    (hwords : ∀ t ∈ junk, t.kind ≠ .semicolon) (hk : k.Agree (.before hsemicolon junk b) k d)
    (hnow : (Ground.before hsemicolon junk b).holds now) (hd : 3 * now.length + 1 ≤ d) :
    ∃ (value : Option RawStmt) (rest : List Token) (faults : List Parse.Fault),
      expressionStatement k now = ⟨value, rest, faults⟩ ∧ (value.isSome → rest = b) ∧
      (value = none → (Ground.before hsemicolon junk b).holds rest) ∧
      ∀ f ∈ faults, ∃ place, (Ground.before hsemicolon junk b).holds place ∧
        f.token = place.head? := by
  obtain ⟨-, -, -, hinside, hfaults⟩ := expression_agree hk hnow hd
  cases hreply : expression k now with
  | mk value rest faults =>
    rw [hreply] at hinside hfaults
    cases value with
    | none =>
      exact ⟨none, rest, faults, bind_of_none _ hreply, fun h => (by cases h), fun _ => hinside,
        hfaults⟩
    | some e =>
      have hrun : expressionStatement k now = _ := bind_of_some _ hreply
      rcases expect_before "';' after expression" hwords hinside with h | h
      · rw [bind_of_some _ h] at hrun
        refine ⟨_, _, _, hrun, fun _ => rfl, fun h => (by cases h), ?_⟩
        simpa [done] using hfaults
      · rw [bind_of_none _ h] at hrun
        refine ⟨_, _, _, hrun, fun h => (by cases h), fun _ => hinside, ?_⟩
        exact List.forall_mem_append.mpr
          ⟨hfaults, List.forall_mem_singleton.mpr ⟨rest, hinside, rfl⟩⟩

/-- On a ground without a brace, expressions never come to a block. -/
theorem nested_stays {G : Ground} (hbrace : ∀ t ts, G.holds (t :: ts) → t.kind ≠ .leftBrace)
    (d : Nat) : (nested d).Agree G (nested d) d := by
  induction d with
  | zero => exact ⟨fun ts _ hd => by omega, fun t ts _ _ hd => by omega⟩
  | succ d ih =>
    exact ⟨fun ts hts hd => assignment_agree ih hts (by omega),
      fun t ts hts ht _ => absurd ht (hbrace t ts hts)⟩

/-- What starts with no keyword and no brace is read as an expression statement. -/
theorem declarationBody_expression {d : Nat} {t : Token} {ts : List Token}
    (ht : t.kind ∉ .leftBrace :: statementStarts) :
    declarationBody (nested (d + 1)) (t :: ts) = expressionStatement (nested d) (t :: ts) := by
  have hstatement : (nested (d + 1)).statement = statement (nested d) := rfl
  cases hkind : t.kind <;> simp_all [declarationBody, statement, statementStarts]

/-- A declaration of some words up to a semicolon ends behind it, in whatever way it is broken. -/
theorem declaration_before (hsemicolon : semicolon.kind = .semicolon)
    (hwords : ∀ t ∈ junk, t.kind ∉ [.semicolon, .leftBrace] ++ statementStarts) {d : Nat}
    (hd : 3 * (junk ++ semicolon :: b).length + 1 ≤ d) :
    ∃ (value : Option RawStmt) (faults : List Parse.Fault),
      declaration (nested (d + 1)) (junk ++ semicolon :: b) = ⟨some value, b, faults⟩ ∧
      ∀ f ∈ faults, ∃ t ∈ junk ++ [semicolon], f.token = some t := by
  have hall : ∀ t ∈ junk ++ [semicolon], t.kind ∉ .leftBrace :: statementStarts := by
    refine List.forall_mem_append.mpr ⟨fun t ht => ?_, ?_⟩
    · exact fun h => hwords t ht (List.mem_cons_of_mem _ h)
    · simp [hsemicolon, statementStarts]
  have hplace : (Ground.before hsemicolon junk b).holds (junk ++ semicolon :: b) :=
    ⟨junk, List.suffix_refl _, rfl⟩
  obtain ⟨value, rest, faults, hrun, hend, hstay, hfaults⟩ := expressionStatement_before
    (fun t ht hkind => hwords t ht (hkind ▸ List.mem_cons_self))
    (nested_stays (fun t ts hts hbrace => by
      obtain ⟨u, hu, hhead⟩ := Ground.before_head hts
      cases hhead
      exact hall t hu (hbrace ▸ List.mem_cons_self)) d) hplace hd
  have hbody : declarationBody (nested (d + 1)) (junk ++ semicolon :: b) =
      ⟨value, rest, faults⟩ := by
    obtain ⟨t, ht, hhead⟩ := Ground.before_head hplace
    obtain ⟨ts, hts⟩ := List.head?_eq_some_iff.mp hhead
    rw [← hrun, hts]
    exact declarationBody_expression (hall t ht)
  refine ⟨value, faults, ?_, fun f hf => ?_⟩
  · cases value with
    | some s => rw [declaration, hbody, hend rfl]
    | none =>
      have hrecover : recover rest = b := by
        refine recover_before (fun t ht => ?_) (hstay rfl)
        have h := hwords t ht
        simp only [List.cons_append, List.nil_append, List.mem_cons, not_or] at h
        exact ⟨h.1, h.2.2⟩
      rw [declaration, hbody, hrecover]
  · obtain ⟨place, hholds, htoken⟩ := hfaults f hf
    obtain ⟨t, ht, hhead⟩ := Ground.before_head hholds
    exact ⟨t, ht, htoken.trans hhead⟩

end
end Parse

/-- A statement that starts with no keyword and opens no block ends at its semicolon, however broken
it is: at most one statement stands for it, its faults are at its own tokens, and what follows
parses as it does by itself. -/
theorem parse_resumes {junk b : List Token} {semicolon last : Token}
    (hjunk : ∀ t ∈ junk, t.kind ∉ [.semicolon, .leftBrace, .eof] ++ Parse.statementStarts)
    (hsemicolon : semicolon.kind = .semicolon) (hb : ∀ t ∈ b, t.kind ≠ .eof)
    (hlast : last.kind = .eof) :
    ∃ (found : Option RawStmt) (faults : List Diagnostic),
      (∀ fault ∈ faults, ∃ t ∈ junk ++ [semicolon], fault.anchor = .token t) ∧
      (parse (junk ++ semicolon :: b ++ [last])).program =
        found.toList ++ (parse (b ++ [last])).program ∧
      (parse (junk ++ semicolon :: b ++ [last])).diagnostics =
        faults ++ (parse (b ++ [last])).diagnostics := by
  have hne : junk ++ semicolon :: b ≠ [] := by simp
  have hwords (t : Token) (ht : t ∈ junk) :
      t.kind ∉ [.semicolon, .leftBrace] ++ Parse.statementStarts ∧ t.kind ≠ .eof := by
    have h := hjunk t ht
    simp only [List.cons_append, List.nil_append, List.mem_cons, not_or] at h ⊢
    exact ⟨⟨h.1, h.2.1, h.2.2.2⟩, h.2.2.1⟩
  have hall : ∀ t ∈ junk ++ semicolon :: b, t.kind ≠ .eof :=
    List.forall_mem_append.mpr ⟨fun t ht => (hwords t ht).2,
      List.forall_mem_cons.mpr ⟨by simp [hsemicolon], hb⟩⟩
  obtain ⟨found, faults, hrun, hfaults⟩ := Parse.declaration_before (b := b) hsemicolon
    (fun t ht => (hwords t ht).1) (Nat.le_refl _)
  have hprogram := Parse.program_behind hne (by omega) hrun
  obtain ⟨ss, hss⟩ := Option.isSome_iff_exists.mp (Parse.program_value b)
  refine ⟨found, faults.map (·.diagnostic last), ?_, ?_⟩
  · refine List.forall_mem_map.mpr fun f hf => ?_
    obtain ⟨t, ht, htoken⟩ := hfaults f hf
    exact ⟨t, ht, by simp [Parse.Fault.diagnostic, htoken]⟩
  · rw [parse_words hall hlast, parse_words hb hlast, hprogram]
    simp [hss]

/-- An argument that is missing and a parenthesis too many. -/
def unfinishedTokens : List Token :=
  [⟨.identifier, "a", .nil, 1, some 0⟩, ⟨.leftParen, "(", .nil, 1, some 1⟩,
    ⟨.comma, ",", .nil, 1, some 2⟩, ⟨.rightParen, ")", .nil, 1, some 3⟩,
    ⟨.rightParen, ")", .nil, 1, some 4⟩]

theorem parse_resumes_unfinished :
    ∃ (found : Option RawStmt) (faults : List Diagnostic),
      (∀ fault ∈ faults, ∃ t ∈ unfinishedTokens ++ [⟨.semicolon, ";", .nil, 1, some 5⟩],
        fault.anchor = .token t) ∧
      (parse (unfinishedTokens ++ ⟨.semicolon, ";", .nil, 1, some 5⟩ :: strayTokens ++
        [.endOfText 2])).program =
        found.toList ++ (parse (strayTokens ++ [.endOfText 2])).program ∧
      (parse (unfinishedTokens ++ ⟨.semicolon, ";", .nil, 1, some 5⟩ :: strayTokens ++
        [.endOfText 2])).diagnostics =
        faults ++ (parse (strayTokens ++ [.endOfText 2])).diagnostics :=
  parse_resumes (by decide) rfl (by decide) rfl

end LoxScript
