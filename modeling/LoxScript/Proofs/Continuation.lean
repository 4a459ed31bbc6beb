import LoxScript.Proofs.Agreement
import LoxScript.Proofs.Phrases
import LoxScript.Proofs.Progress

/-!
What follows a declaration.

Behind a declaration, parsing goes on as it does on a text that starts there: neither what was read
before nor how much of it there was matters. So programs parse one behind the other, where only an
`else` could reach back.
-/
namespace LoxScript

open Grammar LoxScript.Parser Parse

namespace Parser
variable {α β : Type}

theorem bind_done (p : Parser α) (f : α → β) (ts : List Token) :
    (p >>= fun a => done (f a)) ts = (p ts).map f := by
  cases h : p ts with
  | mk value rest faults =>
    cases value with
    | none => rw [bind_of_none _ h, Reply.map, Option.map_none]
    | some a =>
      rw [bind_of_some _ h, Reply.map, Option.map_some]
      exact congrArg (Reply.mk _ _) (List.append_nil faults)

/-- A step of collecting up to the end, with the item that it begins with. -/
theorem collectUpTo_step {item : Parser (Option α)} {t u : Token} {ts fuel rest : List Token}
    {a : Option α} {faults : List Parse.Fault} (h : item (t :: ts) = ⟨some a, rest, faults⟩) :
    collectUpTo List.isEmpty item (u :: fuel) (t :: ts) =
      let others := collectUpTo List.isEmpty item fuel rest
      ⟨others.value.map (a.toList ++ ·), others.rest, faults ++ others.faults⟩ := by
  have hrun : collectUpTo List.isEmpty item (u :: fuel) (t :: ts) = (item >>= fun a =>
      collectUpTo List.isEmpty item fuel >>= fun found => done (a.toList ++ found)) (t :: ts) := rfl
  rw [hrun, bind_of_some _ h, bind_done]
  rfl

/-- Collecting up to the end depends on its items only as far as the tokens go, and on its fuel not
at all: each item takes a token. -/
theorem collectUpTo_end {item item' : Parser (Option α)} {fuel fuel' ts : List Token}
    (hitem : ∀ now : List Token, now.length ≤ ts.length → now ≠ [] → item now = item' now ∧
      (item now).value.isSome ∧ (item now).rest.length < now.length)
    (hfuel : ts.length ≤ fuel.length) (hfuel' : ts.length ≤ fuel'.length) :
    collectUpTo List.isEmpty item fuel ts = collectUpTo List.isEmpty item' fuel' ts := by
  induction fuel generalizing fuel' ts with
  | nil =>
    have hts : ts = [] := List.length_eq_zero_iff.mp (Nat.le_zero.mp hfuel)
    subst hts
    cases fuel' <;> rfl
  | cons _ fuel ih =>
    cases ts with
    | nil => cases fuel' <;> rfl
    | cons t ts =>
      cases fuel' with
      | nil => exact absurd hfuel' (Nat.not_succ_le_zero _)
      | cons _ fuel' =>
        obtain ⟨hsame, hsome, hshorter⟩ := hitem (t :: ts) (Nat.le_refl _) (List.cons_ne_nil _ _)
        cases hreply : item (t :: ts) with
        | mk value rest faults =>
          rw [hreply] at hsame hsome hshorter
          obtain ⟨a, rfl⟩ := Option.isSome_iff_exists.mp hsome
          have hleft : rest.length ≤ ts.length := Nat.le_of_lt_succ hshorter
          have hrest : collectUpTo List.isEmpty item fuel rest =
              collectUpTo List.isEmpty item' fuel' rest :=
            ih (fun now hnow => hitem now (Nat.le_succ_of_le (Nat.le_trans hnow hleft)))
            (Nat.le_trans hleft (Nat.le_of_succ_le_succ hfuel))
            (Nat.le_trans hleft (Nat.le_of_succ_le_succ hfuel'))
          rw [collectUpTo_step hreply, collectUpTo_step hsame.symm, hrest]

end Parser

namespace Parse
variable {ts rest : List Token}

/-- The depth to which the grammar is closed does not matter, if it is enough for the tokens. -/
theorem declaration_depth {d e : Nat} (hd : 3 * ts.length + 2 ≤ d) (he : 3 * ts.length + 2 ≤ e) :
    declaration (nested d) ts = declaration (nested e) ts := by
  have h {n : Nat} (hn : 3 * ts.length + 2 ≤ n) :
      declaration (nested (3 * ts.length + 2)) ts = declaration (nested n) ts :=
    have ⟨hk, hs⟩ := nested_agree hn
    (declaration_agree hk hs (Nat.le_refl _)).same
  exact (h hd).symm.trans (h he)

theorem declaration_advances {d : Nat} (hd : 3 * ts.length + 2 ≤ d) (hts : ts ≠ []) :
    (declaration (nested d) ts).value.isSome ∧
      (declaration (nested d) ts).rest.length < ts.length := by
  have hsome : (declaration (nested d) ts).value.isSome := by
    cases h : (declarationBody (nested d) ts).value <;> simp [declaration, h]
  obtain ⟨a, ha⟩ := Option.isSome_iff_exists.mp hsome
  exact ⟨hsome, (declaration_sound (nested_sound d) hd hts).taken a ha⟩

/-- Behind the declaration at its start, a program goes on as the tokens there do by themselves. -/
theorem program_behind {s : Option RawStmt} {faults : List Parse.Fault} {d : Nat} (hts : ts ≠ [])
    (hd : 3 * ts.length + 2 ≤ d) (h : declaration (nested d) ts = ⟨some s, rest, faults⟩) :
    program ts = ⟨(program rest).value.map (s.toList ++ ·), (program rest).rest,
      faults ++ (program rest).faults⟩ := by
  have hdepth (n : Nat) : 3 * n + 2 ≤ depthFor n := by
    unfold depthFor
    omega
  have hshorter := (declaration_advances hd hts).2
  rw [h] at hshorter
  rw [declaration_depth hd (hdepth _)] at h
  obtain ⟨t, ts, rfl⟩ := List.exists_cons_of_ne_nil hts
  have hleft : rest.length ≤ ts.length := Nat.le_of_lt_succ hshorter
  have hrest : collectUpTo List.isEmpty (declaration (nested (depthFor (t :: ts).length))) ts rest =
      program rest := by
    refine collectUpTo_end (fun now hnow hne => ?_) hleft (Nat.le_refl _)
    have hlevels {n : Nat} (hn : now.length ≤ n) : 3 * now.length + 2 ≤ depthFor n :=
      Nat.le_trans (by omega) (hdepth n)
    have hdeep := hlevels (n := (t :: ts).length) (by rw [List.length_cons]; omega)
    exact ⟨declaration_depth hdeep (hlevels hnow), declaration_advances hdeep hne⟩
  have hrun : program (t :: ts) = collectUpTo List.isEmpty
    (declaration (nested (depthFor (t :: ts).length))) (t :: ts) (t :: ts) := rfl
  rw [hrun, collectUpTo_step h, hrest]

/-- Behind complete declarations as well, where no `else` reaches back. -/
theorem program_declarations {ss : List RawStmt} (h : Derives .declarations ts ss rest)
    (hrest : Stops [.kwElse] rest) : program ts = (program rest).map (ss ++ ·) := by
  induction ss generalizing ts with
  | nil =>
    cases h
    simp [Reply.map]
  | cons s ss ih =>
    cases h with
    | moreDeclarations first others =>
      have hmid := stops_else_of_declarations others hrest
      have hbody := fits_of_derives first (3 * ts.length + 3) (by omega) hmid
      have hne : ts ≠ [] := fun hnil => by simpa [hnil] using isEmpty_of_starts first.starts
      rw [program_behind hne (by omega) (declaration_accepts hbody), ih others]
      simp [Reply.map, Function.comp_def]

theorem program_value (words : List Token) : (program words).value.isSome := by
  have h := (Recorded.program_follows words).2.1
  rwa [Recorded.run_program] at h

end Parse

/-- What parsing says of words in front of a mark for the end of the text. -/
theorem parse_words {words : List Token} {last : Token} (hwords : ∀ t ∈ words, t.kind ≠ .eof)
    (hlast : last.kind = .eof) : parse (words ++ [last]) =
      ⟨(Parse.program words).value.getD [],
        (Parse.program words).faults.map (·.diagnostic last)⟩ := by
  have htake : (words ++ [last]).takeWhile (·.kind != .eof) = words := by
    rw [List.takeWhile_append_of_pos (by simpa using hwords)]
    simp [hlast]
  have hfind : (words ++ [last]).find? (·.kind == .eof) = some last := by
    rw [List.find?_append, List.find?_eq_none.mpr (by simpa using hwords)]
    simp [hlast]
  simp only [parse, htake, hfind, Option.getD_some]

section
variable {a b : List Token} {mark last : Token} (ha : ∀ t ∈ a, t.kind ≠ .eof)
  (hb : ∀ t ∈ b, t.kind ≠ .eof) (hmark : mark.kind = .eof) (hlast : last.kind = .eof)
include ha hb hmark hlast

/-- Behind words that parse without a fault, others parse as they do by themselves, with all their
faults, unless they start with an `else`. -/
theorem parse_append (haccepted : (parse (a ++ [mark])).diagnostics = [])
    (helse : ∀ t ∈ b.head?, t.kind ≠ .kwElse) :
    (parse (a ++ b ++ [last])).program =
        (parse (a ++ [mark])).program ++ (parse (b ++ [last])).program ∧
      (parse (a ++ b ++ [last])).diagnostics = (parse (b ++ [last])).diagnostics := by
  have hfront := (parse_iff_derives a mark _ ha hmark).mp ⟨haccepted, rfl⟩
  have hstops : Stops [.kwElse] b := by
    cases b with
    | nil => rfl
    | cons t b => exact .cons (by simpa using helse)
  have hboth := hfront.map_append .id b
  have hid (ss : List RawStmt) : Symbol.declarations.mapTree id ss = ss := Stmt.mapAll_id ss
  rw [hid, List.map_id, List.map_nil, List.nil_append] at hboth
  have hprogram := Parse.program_declarations hboth hstops
  obtain ⟨ss, hss⟩ := Option.isSome_iff_exists.mp (Parse.program_value b)
  have hall : ∀ t ∈ a ++ b, t.kind ≠ .eof := List.forall_mem_append.mpr ⟨ha, hb⟩
  rw [parse_words hall hlast, parse_words hb hlast, hprogram]
  simp [Reply.map, hss]

end

/-- A condition without an `else`. -/
def conditionTokens : List Token :=
  [⟨.kwIf, "if", .nil, 1, some 0⟩, ⟨.leftParen, "(", .nil, 1, some 3⟩,
    ⟨.identifier, "a", .nil, 1, some 4⟩, ⟨.rightParen, ")", .nil, 1, some 5⟩,
    ⟨.identifier, "b", .nil, 1, some 7⟩, ⟨.semicolon, ";", .nil, 1, some 8⟩]

/-- A parenthesis that belongs nowhere, and a statement. -/
def strayTokens : List Token :=
  [⟨.rightParen, ")", .nil, 2, some 0⟩, ⟨.semicolon, ";", .nil, 2, some 1⟩,
    ⟨.identifier, "c", .nil, 2, some 3⟩, ⟨.semicolon, ";", .nil, 2, some 4⟩]

theorem parse_append_stray :
    (parse (strayTokens ++ [.endOfText 2])).diagnostics.length = 1 ∧
      (parse (conditionTokens ++ strayTokens ++ [.endOfText 2])).program =
        (parse (conditionTokens ++ [.endOfText 1])).program ++
          (parse (strayTokens ++ [.endOfText 2])).program ∧
      (parse (conditionTokens ++ strayTokens ++ [.endOfText 2])).diagnostics =
        (parse (strayTokens ++ [.endOfText 2])).diagnostics :=
  ⟨rfl, parse_append (by decide) (by decide) rfl rfl rfl (by decide)⟩

end LoxScript
