import LoxScript.Shell

/-!
The end of the input at the prompt.

The end of the input reaches the prompt as a line. While no entry is open that line is a command and
ends the prompt; otherwise it is taken into the entry, which it leaves open. So the prompt ends
exactly if no entry is open when its input does.
-/
namespace LoxScript.Shell

/-- The prompt that a step leaves, however the step ends. -/
def left {α : Type} (sh : Shell) (action : ShellM α) : Shell :=
  match action sh with
  | .ok _ sh' => sh'
  | .error _ sh' => sh'

/-- The prompt behind some lines, of which each may also end it or let something escape. -/
def afterAll (sh : Shell) : List String → Shell
  | [] => sh
  | line :: lines => (sh.left (step line)).afterAll lines

/-- The prompt behind some ends of its input, one after the other. -/
def afterEnds (sh : Shell) (n : Nat) : Shell := sh.afterAll (List.replicate n endOfInput)

/-- The end of the input ends the prompt. -/
def Ends (sh : Shell) : Prop := ∃ sh', step endOfInput sh = .ok true sh'

/-- The entry of a prompt has a brace or a parenthesis to close, if there is one. -/
def Waits (sh : Shell) : Prop := sh.pending = "" ∨ isOpen sh.pending

/-! ### Steps that leave the entry alone -/

/-- A step that leaves the entry as it is. -/
def KeepsEntry {α : Type} (action : ShellM α) : Prop :=
  ∀ sh : Shell, (sh.left action).pending = sh.pending

namespace KeepsEntry
variable {α β : Type} {action : ShellM α}

theorem pure (a : α) : KeepsEntry (Pure.pure a) := fun _ => rfl

theorem inSession (c : SessionM α) : KeepsEntry (Shell.inSession c) := by
  intro sh
  simp only [left, Shell.inSession]
  cases c sh.session <;> rfl

theorem bind {k : α → ShellM β} (h : KeepsEntry action) (hk : ∀ a, KeepsEntry (k a)) :
    KeepsEntry (action >>= k) := by
  intro sh
  have hfirst := h sh
  simp only [left, Bind.bind, EStateM.bind] at hfirst ⊢
  cases hrun : action sh with
  | ok a sh' =>
    rw [hrun] at hfirst
    exact (hk a sh').trans hfirst
  | error e sh' =>
    rw [hrun] at hfirst
    exact hfirst

theorem discard (h : KeepsEntry action) : KeepsEntry (Functor.discard action) :=
  h.bind fun _ => .pure ()

end KeepsEntry

variable {sh : Shell} {line : String}

/-! ### What a line does to the entry -/

/-- What becomes of an entry in which nothing is open. -/
def settle (entry : String) : ShellM Unit :=
  if (Text.trim entry.toList).isEmpty then return
  else discard (inSession (Session.guarded (Session.run (complete entry) promptPath)))

theorem settle_keeps (entry : String) : KeepsEntry (settle entry) := by
  unfold settle
  split
  · exact .pure ()
  · exact .discard (.inSession _)

theorem submit_eq (line : String) (sh : Shell) :
    submit line sh =
      (if isOpen (join sh.pending line) then
        modify fun sh' => { sh' with pending := join sh.pending line, prompt := .more }
      else do
        modify fun sh' => { sh' with pending := "", prompt := .entry }
        settle (join sh.pending line) : ShellM Unit) sh := rfl

theorem submit_open (h : isOpen (join sh.pending line)) :
    submit line sh = .ok () { sh with pending := join sh.pending line, prompt := .more } := by
  rw [submit_eq, if_pos h]
  rfl

theorem submit_closed (h : ¬ isOpen (join sh.pending line)) :
    submit line sh = settle (join sh.pending line) { sh with pending := "", prompt := .entry } := by
  rw [submit_eq, if_neg h]
  rfl

theorem submit_waits (sh : Shell) (line : String) : (sh.left (submit line)).Waits := by
  by_cases h : isOpen (join sh.pending line)
  · simp only [left, submit_open h]
    exact .inr h
  · have hkeeps := settle_keeps (join sh.pending line) { sh with pending := "", prompt := .entry }
    simp only [left, submit_closed h]
    exact .inl hkeeps

theorem left_bind_return (action : ShellM Unit) (b : Bool) (sh : Shell) :
    sh.left (do action; return b) = sh.left action := by
  simp only [left, bind, EStateM.bind, pure, EStateM.pure]
  cases action sh <;> rfl

/-- What a line does while no entry is open. -/
def command (line : String) : ShellM Bool :=
  match readLine line with
  | .blank => return false
  | .help => do
    say helpText
    return false
  | .exit => return true
  | .endOfInput => do
    say "\n"
    return true
  | .source text => do
    submit text
    return false

theorem step_eq (line : String) (sh : Shell) :
    step line sh =
      (if sh.pending.isEmpty then command line else do submit line; return false : ShellM Bool) sh :=
  rfl

theorem step_open (h : sh.pending ≠ "") : step line sh = (do submit line; return false) sh := by
  have hopen : ¬ sh.pending.isEmpty := by simpa using h
  rw [step_eq, if_neg hopen]

theorem step_command (h : sh.pending = "") : step line sh = command line sh := by
  have hclosed : sh.pending.isEmpty := by simpa using h
  rw [step_eq, if_pos hclosed]

theorem command_waits (h : sh.pending = "") (line : String) : (sh.left (command line)).Waits := by
  unfold command
  cases readLine line with
  | blank => exact .inl h
  | help => exact .inl (((KeepsEntry.inSession _).bind fun _ => .pure false) sh |>.trans h)
  | exit => exact .inl h
  | endOfInput => exact .inl (((KeepsEntry.inSession _).bind fun _ => .pure true) sh |>.trans h)
  | source text =>
    show (sh.left (do submit text; return false)).Waits
    rw [left_bind_return]
    exact submit_waits sh text

/-- Behind every line the entry has something to close, if there is one. -/
theorem step_waits (sh : Shell) (line : String) : (sh.left (step line)).Waits := by
  by_cases hpending : sh.pending = ""
  · have hstep : sh.left (step line) = sh.left (command line) := by
      simp only [left, step_command hpending]
    rw [hstep]
    exact command_waits hpending line
  · have hstep : sh.left (step line) = sh.left (do submit line; return false) := by
      simp only [left, step_open hpending]
    rw [hstep, left_bind_return]
    exact submit_waits sh line

/-- Whatever lines a prompt has taken, the entry has something to close, if there is one. -/
theorem afterAll_waits (h : sh.Waits) (lines : List String) : (sh.afterAll lines).Waits := by
  induction lines generalizing sh with
  | nil => exact h
  | cons line lines ih => exact ih (step_waits sh line)

theorem start_waits (session : Session) : (start session).Waits := .inl rfl

/-! ### The end of the input -/

theorem readLine_endOfInput : readLine endOfInput = .endOfInput := by decide +kernel

/-- With no entry open the end of the input ends the prompt. -/
theorem ends_of_closed (h : sh.pending = "") : sh.Ends := by
  unfold Ends
  rw [step_command h, command, readLine_endOfInput]
  exact ⟨_, rfl⟩

theorem occurrences_append (c : Char) (s t : String) :
    occurrences c (s ++ t) = occurrences c s + occurrences c t := by
  simp only [occurrences, String.toList_append, List.count_append]

/-- The end of the input closes nothing. -/
theorem isOpen_endOfInput (h : sh.pending ≠ "") (hopen : isOpen sh.pending) :
    isOpen (join sh.pending endOfInput) := by
  have hnonempty : ¬ sh.pending.isEmpty := by simpa using h
  have hadds (c : Char) (hc : occurrences c ("\n" ++ endOfInput) = 0) :
      occurrences c (sh.pending ++ "\n" ++ endOfInput) = occurrences c sh.pending := by
    rw [String.append_assoc, occurrences_append, hc, Nat.add_zero]
  simp only [join, if_neg hnonempty, isOpen]
  rw [hadds _ (by decide +kernel), hadds _ (by decide +kernel), hadds _ (by decide +kernel),
    hadds _ (by decide +kernel)]
  exact hopen

/-- With an entry open the end of the input becomes a part of it, which leaves it open. -/
theorem step_endOfInput_open (h : sh.pending ≠ "") (hwaits : sh.Waits) :
    step endOfInput sh =
      .ok false { sh with pending := sh.pending ++ "\n" ++ endOfInput, prompt := .more } := by
  have hopen : isOpen sh.pending := hwaits.resolve_left h
  have hnonempty : ¬ sh.pending.isEmpty := by simpa using h
  have hjoin : join sh.pending endOfInput = sh.pending ++ "\n" ++ endOfInput := by
    simp only [join, if_neg hnonempty]
  rw [step_open h, ← hjoin]
  simp only [bind, EStateM.bind, submit_open (isOpen_endOfInput h hopen)]
  rfl

/-- An entry that is open when the input ends stays open, however often the input ends. -/
theorem afterEnds_open (h : sh.pending ≠ "") (hwaits : sh.Waits) (n : Nat) :
    (sh.afterEnds n).pending ≠ "" ∧ (sh.afterEnds n).Waits := by
  induction n generalizing sh with
  | zero => exact ⟨h, hwaits⟩
  | succ n ih =>
    have hstep := step_endOfInput_open h hwaits
    have hleft : sh.left (step endOfInput) =
        { sh with pending := sh.pending ++ "\n" ++ endOfInput, prompt := .more } := by
      simp only [left, hstep]
    have hstill : (sh.left (step endOfInput)).pending ≠ "" := by
      rw [hleft]
      simp [endOfInput]
    exact ih hstill (step_waits sh endOfInput)

/-- An end of the input that meets an open entry does not end the prompt. -/
theorem not_ends_of_open (h : sh.pending ≠ "") (hwaits : sh.Waits) : ¬ sh.Ends := by
  rintro ⟨sh', hends⟩
  rw [step_endOfInput_open h hwaits] at hends
  simp at hends

/-- Whatever lines a prompt has taken, some end of its input ends it exactly if no entry is open
then; and then the first one does. -/
theorem ends_iff_closed (session : Session) (lines : List String) :
    ((∃ n, (((start session).afterAll lines).afterEnds n).Ends) ↔
      ((start session).afterAll lines).pending = "") ∧
    (((start session).afterAll lines).pending = "" → ((start session).afterAll lines).Ends) := by
  have hwaits := afterAll_waits (start_waits session) lines
  constructor
  · constructor
    · rintro ⟨n, hends⟩
      by_cases hclosed : ((start session).afterAll lines).pending = ""
      · exact hclosed
      · obtain ⟨hstill, hstillWaits⟩ := afterEnds_open hclosed hwaits n
        exact absurd hends (not_ends_of_open hstill hstillWaits)
    · intro hclosed
      exact ⟨0, ends_of_closed hclosed⟩
  · exact ends_of_closed

/-- Behind a line that opens a block no end of the input ends the prompt. -/
theorem block_never_ends :
    ¬ ∃ n, (((start (Session.start [] (.start false false) true)).afterAll
      ["\x7b"]).afterEnds n).Ends := by
  rintro ⟨n, hends⟩
  have hwaits := afterAll_waits
    (start_waits (Session.start [] (.start false false) true)) ["\x7b"]
  have hpending : ((start (Session.start [] (.start false false) true)).afterAll
      ["\x7b"]).pending = "\x7b" := by
    decide +kernel
  have hopen : ((start (Session.start [] (.start false false) true)).afterAll
      ["\x7b"]).pending ≠ "" := by
    rw [hpending]
    decide
  obtain ⟨hstill, hstillWaits⟩ := afterEnds_open hopen hwaits n
  exact not_ends_of_open hstill hstillWaits hends

end LoxScript.Shell
