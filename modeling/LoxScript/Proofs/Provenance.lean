import LoxScript.Proofs.Bookkeeping
import LoxScript.Proofs.Plain
import LoxScript.Proofs.Spelling

/-!
Where the tokens of reported faults come from.

A program has no strings as tokens, only their values. Functions and methods keep the tokens of the
source that defined them, and may fail in any later run. So a fault that a run reports is placed at
a word, which is no string, of that source or of an accepted one that the session ran before.
-/
namespace LoxScript

/-- A token as `P` says that is no string. -/
def Token.Stated (P : Token → Prop) (t : Token) : Prop := P t ∧ t.kind ≠ .string

section Stated
variable {ρ : Type} {P N : Token → Prop}

theorem Token.Spells.stated {t : Token} {kinds : List Kind} (h : t.Spells kinds)
    (hkinds : .string ∉ kinds) (ht : P t) : t.Stated P := by
  refine ⟨ht, fun hkind => hkinds ?_⟩
  rw [← hkind]
  exact h.1

theorem Token.Spells.statedName {t : Token} (h : t.Spells nameKinds) (ht : P t ∧ N t) :
    t.Stated P ∧ N t := ⟨h.stated (by decide) ht.1, ht.2⟩

mutual

theorem Expr.words_stated : (e : Expr ρ) → e.Spelled → e.Words P N → e.Words (·.Stated P) N
  | .literal _, _, _ => trivial
  | .grouping e, h, hw => e.words_stated h hw
  | .unary _ e, h, hw => ⟨h.1.stated (by decide) hw.1, e.words_stated h.2 hw.2⟩
  | .binary a _ b, h, hw =>
    ⟨a.words_stated h.1 hw.1, h.2.1.stated (by decide) hw.2.1, b.words_stated h.2.2 hw.2.2⟩
  | .logical a _ b, h, hw =>
    ⟨a.words_stated h.1 hw.1, h.2.1.stated (by decide) hw.2.1, b.words_stated h.2.2 hw.2.2⟩
  | .variable _ _, h, hw => h.stated (by decide) hw
  | .assign _ _ e _, h, hw =>
    ⟨h.1.stated (by decide) hw.1, fun s hs => (h.2.1 s hs).stated (by decide) (hw.2.1 s hs),
      e.words_stated h.2.2 hw.2.2⟩
  | .call f _ es, h, hw =>
    ⟨f.words_stated h.1 hw.1, h.2.1.stated (by decide) hw.2.1, Expr.allWords_stated es h.2.2 hw.2.2⟩
  | .get o _, h, hw => ⟨o.words_stated h.1 hw.1, h.2.stated (by decide) hw.2⟩
  | .set o _ _ e, h, hw =>
    ⟨o.words_stated h.1 hw.1, h.2.1.stated (by decide) hw.2.1,
      fun s hs => (h.2.2.1 s hs).stated (by decide) (hw.2.2.1 s hs),
      e.words_stated h.2.2.2 hw.2.2.2⟩
  | .this _ _, h, hw => h.stated (by decide) hw
  | .function _ _ body, h, hw =>
    ⟨fun t ht => (h.1 t ht).statedName (hw.1 t ht), fun t ht => (h.2.1 t ht).statedName (hw.2.1 t ht),
      Stmt.allWords_stated body h.2.2 hw.2.2⟩

theorem Expr.allWords_stated : (es : List (Expr ρ)) → Expr.AllSpelled es → Expr.AllWords P N es →
    Expr.AllWords (·.Stated P) N es
  | [], _, _ => trivial
  | e :: es, h, hw => ⟨e.words_stated h.1 hw.1, Expr.allWords_stated es h.2 hw.2⟩

theorem Stmt.words_stated : (s : Stmt ρ) → s.Spelled → s.Words P N → s.Words (·.Stated P) N
  | .expression e, h, hw => e.words_stated h hw
  | .print e, h, hw => e.words_stated h hw
  | .varDecl _ none, h, hw => h.statedName hw
  | .varDecl _ (some e), h, hw => ⟨h.1.statedName hw.1, e.words_stated h.2 hw.2⟩
  | .block body, h, hw => Stmt.allWords_stated body h hw
  | .ifElse c yes none, h, hw => ⟨c.words_stated h.1 hw.1, yes.words_stated h.2 hw.2⟩
  | .ifElse c yes (some no), h, hw =>
    ⟨c.words_stated h.1 hw.1, yes.words_stated h.2.1 hw.2.1, no.words_stated h.2.2 hw.2.2⟩
  | .loop c body none, h, hw => ⟨c.words_stated h.1 hw.1, body.words_stated h.2 hw.2⟩
  | .loop c body (some n), h, hw =>
    ⟨c.words_stated h.1 hw.1, body.words_stated h.2.1 hw.2.1, n.words_stated h.2.2 hw.2.2⟩
  | .breakLoop _, h, hw => h.stated (by decide) hw
  | .continueLoop _, h, hw => h.stated (by decide) hw
  | .returnFrom _ none, h, hw => h.stated (by decide) hw
  | .returnFrom _ (some e), h, hw => ⟨h.1.stated (by decide) hw.1, e.words_stated h.2 hw.2⟩
  | .functionDecl _ _ body, h, hw =>
    ⟨h.1.statedName hw.1, fun t ht => (h.2.1 t ht).statedName (hw.2.1 t ht),
      Stmt.allWords_stated body h.2.2 hw.2.2⟩
  | .classDecl _ ms, h, hw => ⟨h.1.statedName hw.1, Method.allWords_stated ms h.2 hw.2⟩

theorem Stmt.allWords_stated : (ss : List (Stmt ρ)) → Stmt.AllSpelled ss → Stmt.AllWords P N ss →
    Stmt.AllWords (·.Stated P) N ss
  | [], _, _ => trivial
  | s :: ss, h, hw => ⟨s.words_stated h.1 hw.1, Stmt.allWords_stated ss h.2 hw.2⟩

theorem Method.allWords_stated : (ms : List (Method ρ)) → Method.AllSpelled ms →
    Method.AllWords P N ms → Method.AllWords (·.Stated P) N ms
  | [], _, _ => trivial
  | .mk _ _ body :: ms, h, hw =>
    ⟨⟨h.1.1.statedName hw.1.1, fun t ht => (h.1.2.1 t ht).statedName (hw.1.2.1 t ht),
      Stmt.allWords_stated body h.1.2.2 hw.1.2.2⟩, Method.allWords_stated ms h.2 hw.2⟩

end
end Stated

theorem Accepted.stated {source : String} (h : Accepted source) :
    Stmt.AllWords (·.Stated (· ∈ wordsOf source)) (·.kind = .identifier)
      (resolve (programOf source)).program :=
  Stmt.allWords_stated _ h.spelled (h.resolved_words fun _ ht => ht)

/-- Machines that agree, and whose functions have no tokens but known ones. -/
def Likeness.knowing (known : Token → Prop) : Likeness where
  Label := Unit
  plain := ()
  names _ := Eq
  tokens t u := t = u ∧ known t
  fits _ _ _ := True
  names_plain := Likeness.kept_names
  names_unique := by rintro - _ _ _ _ rfl rfl; rfl
  kind_eq h := Likeness.kept_kind h.1
  lexeme_eq h := Likeness.kept_lexeme h.1

def Run.failureOf {α : Type} : EStateM.Result Failure Machine α → Option Failure
  | .ok _ _ => none
  | .error failure _ => some failure

/-- Programs that are alike fail alike. -/
theorem Pairing.Ends.failures {L : Likeness} {w : Pairing L} {α β : Type}
    {Q : α → β → Pairing L → Prop} {x : EStateM.Result Failure Machine α}
    {y : EStateM.Result Failure Machine β} (h : w.Ends Q x y) :
    Option.Rel (Failure.Alike L) (Run.failureOf x) (Run.failureOf y) := by
  cases h with
  | ok leads holds => exact .none
  | error leads alike => exact .some alike

/-- Where one fails at a token, the other one fails at the token that corresponds, for the same
cause. -/
theorem Failure.fault_alike {L : Likeness} {f g : Option Failure}
    (h : Option.Rel (Failure.Alike L) f g) {t : Token} {cause : Fault}
    (hf : f = some (.fault t cause)) : ∃ u, L.tokens t u ∧ g = some (.fault u cause) := by
  cases h with
  | none => cases hf
  | some alike =>
    cases hf
    cases alike with
    | fault token => exact ⟨_, token, rfl⟩

/-- A token is a word, and no string, of one of the sources that were accepted. -/
def Token.ComesFrom (t : Token) (sources : List (String × String)) : Prop :=
  ∃ entry ∈ sources, Accepted entry.1 ∧ t.Stated (· ∈ wordsOf entry.1)

namespace Session
variable {known : Token → Prop} {source : String}

theorem alike_knowing (h : Accepted source)
    (hknown : ∀ t : Token, t.Stated (· ∈ wordsOf source) → known t) :
    let program := (resolve (programOf source)).program
    Stmt.AllAlike (.knowing known) [()] program program := by
  have hcarries : (Likeness.knowing known).Carries (·.Stated (· ∈ wordsOf source)) id :=
    ⟨fun t ht => ⟨rfl, hknown t ht⟩, fun _ _ _ => trivial⟩
  exact Stmt.allAlike_self hcarries (List.forall_mem_singleton.mpr rfl) _ h.stated

/-- Where programs are like themselves, so are the machines that they leave. -/
theorem run_selfsame {L : Likeness}
    (hself : Accepted source → Stmt.AllAlike L [L.plain] (resolve (programOf source)).program
      (resolve (programOf source)).program) (path : String) :
    Keeps (fun h m => h.library.Steady ∧ m.Selfsame L) (run source path) := by
  intro s hs
  by_cases h : Accepted source
  · rw [after_run h]
    exact interpret_selfsame (hself h) (s.opened source path) hs
  · obtain ⟨ds, -, hrun⟩ := run_refused h
    simp only [after, hrun]
    exact hs

theorem runAll_selfsame {L : Likeness} {sources : List (String × String)}
    (hself : ∀ entry ∈ sources, Accepted entry.1 →
      Stmt.AllAlike L [L.plain] (resolve (programOf entry.1)).program
        (resolve (programOf entry.1)).program) {s : Session}
    (hs : s.host.library.Steady ∧ s.machine.Selfsame L) :
    (s.runAll sources).host.library.Steady ∧ (s.runAll sources).machine.Selfsame L := by
  induction sources generalizing s with
  | nil => exact hs
  | cons entry rest ih =>
    obtain ⟨hentry, hrest⟩ := List.forall_mem_cons.mp hself
    exact ih hrest (run_selfsame hentry entry.2 s hs)

/-- How the program of a source fails, if it does. -/
def failure? (s : Session) (source : String) : Option Failure :=
  Run.failureOf (s.host.execProgram (resolve (programOf source)).program s.machine)

/-- A run reports an error of its program at the token at which the program fails. -/
theorem run_reports {path : String} {s s' : Session}
    (h : run source path s = .ok .runtimeError s') :
    Accepted source ∧ ∃ (t : Token) (cause : Fault), s.failure? source = some (.fault t cause) ∧
      s'.reporter = (s.opened source path).reporter.reportRuntime (some t) cause.message := by
  by_cases haccepted : Accepted source
  · refine ⟨haccepted, ?_⟩
    have hfresh := s.fresh_opened source path
    rw [run_accepted haccepted, interpret, execProgram_opened] at h
    rw [failure?]
    cases hrun : s.host.execProgram (resolve (programOf source)).program s.machine with
    | ok a m =>
      simp only [hrun, concluded_success hfresh] at h
      cases h
    | error failure m =>
      cases failure with
      | fault t cause =>
        simp only [hrun, concluded_fault hfresh] at h
        cases h
        exact ⟨t, cause, rfl, rfl⟩
      | _ =>
        rw [hrun] at h
        cases h
  · obtain ⟨ds, -, hrun⟩ := run_refused haccepted
    rw [hrun] at h
    cases h

theorem failure_known (haccepted : Accepted source)
    (hknown : ∀ t : Token, t.Stated (· ∈ wordsOf source) → known t) {s : Session}
    (hs : s.host.library.Steady ∧ s.machine.Selfsame (.knowing known)) {t : Token} {cause : Fault}
    (h : s.failure? source = some (.fault t cause)) : known t := by
  obtain ⟨hlib, label, hstands⟩ := hs
  have hmatches := s.host.execProgram_matches hlib (alike_knowing haccepted hknown) hstands
  obtain ⟨u, token, -⟩ := Failure.fault_alike hmatches.failures h
  exact token.2

/-- The token at which a program fails in a session is a word of its source, or of one that the
session ran before. -/
theorem failure_comesFrom (readings : Nat → Float) (depth turns : Nat) (reporter : Reporter)
    (earlier : List (String × String)) (source path : String) (haccepted : Accepted source) :
    let host : Host := ⟨.standard readings, depth, turns⟩
    let s := (⟨host, .start host.library.globals, reporter⟩ : Session).runAll earlier
    ∀ t cause, s.failure? source = some (.fault t cause) →
      t.ComesFrom ((source, path) :: earlier) := by
  intro host s t cause h
  have hown (u : Token) (hu : u.Stated (· ∈ wordsOf source)) :
      u.ComesFrom ((source, path) :: earlier) := ⟨_, List.mem_cons_self, haccepted, hu⟩
  -- The functions that earlier sources made have kept their tokens.
  have hearlier : s.host.library.Steady ∧
      s.machine.Selfsame (.knowing (·.ComesFrom ((source, path) :: earlier))) := by
    apply runAll_selfsame
    · intro entry hentry hentryAccepted
      exact alike_knowing hentryAccepted fun u hu =>
        ⟨entry, List.mem_cons_of_mem _ hentry, hentryAccepted, hu⟩
    · exact ⟨Library.standard_steady readings, .start _ Library.data_globals⟩
  exact failure_known haccepted hown hearlier h

end Session
end LoxScript
