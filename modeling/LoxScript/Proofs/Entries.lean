import Mathlib.Data.List.TakeWhile
import Mathlib.Tactic.ByContra
import LoxScript.Proofs.EndOfInput

/-!
The entries of a prompt.

While no entry is open, a line that is not blank and names no command starts one, without the white
space around it. An entry takes the lines behind it as they are, until nothing is open in it. So the
lines that a prompt is given are cut into entries in one way, and what it runs are these entries,
completed, in their order, whatever becomes of the runs.
-/
namespace LoxScript

namespace Text
variable {cs : List Char}

/-- White space is cut off at both ends of a text. -/
theorem split_trim (cs : List Char) : ∃ lead trail, cs = lead ++ trim cs ++ trail ∧
    (∀ c ∈ lead, isBlank c) ∧ ∀ c ∈ trail, isBlank c := by
  refine ⟨cs.takeWhile isBlank, ((trimStart cs).reverse.takeWhile isBlank).reverse, ?_,
    fun c => List.mem_takeWhile_imp, fun c hc => List.mem_takeWhile_imp (List.mem_reverse.mp hc)⟩
  have hback := congrArg List.reverse
    (List.takeWhile_append_dropWhile (p := isBlank) (l := (trimStart cs).reverse))
  rw [List.reverse_append, List.reverse_reverse] at hback
  rw [List.append_assoc, trim, trimStart, hback, trimStart, List.takeWhile_append_dropWhile]

/-- Something is left of a text exactly if it has a character that is no white space. -/
theorem trim_ne_nil : trim cs ≠ [] ↔ ∃ c ∈ cs, isBlank c = false := by
  have hnil (ds : List Char) : trimStart ds = [] ↔ ∀ c ∈ ds, isBlank c := List.dropWhile_eq_nil_iff
  rw [trim, Ne, List.reverse_eq_nil_iff, hnil]
  constructor
  · intro h
    by_contra hall
    apply h
    intro c hc
    have hmem := (List.dropWhile_sublist isBlank).subset (List.mem_reverse.mp hc)
    simpa using fun hblank => hall ⟨c, hmem, hblank⟩
  · rintro ⟨c, hc, hblank⟩ hall
    rw [← List.takeWhile_append_dropWhile (p := isBlank) (l := cs)] at hc
    obtain hlead | hrest := List.mem_append.mp hc
    · rw [List.mem_takeWhile_imp hlead] at hblank
      cases hblank
    · rw [hall c (List.mem_reverse.mpr hrest)] at hblank
      cases hblank

theorem trim_trim_ne_nil (h : trim cs ≠ []) : trim (trim cs) ≠ [] := by
  obtain ⟨lead, trail, hsplit, hlead, htrail⟩ := split_trim cs
  obtain ⟨c, hc, hblank⟩ := trim_ne_nil.mp h
  refine trim_ne_nil.mpr ⟨c, ?_, hblank⟩
  rw [hsplit, List.mem_append, List.mem_append] at hc
  obtain (hmem | hmem) | hmem := hc
  · rw [hlead c hmem] at hblank
    cases hblank
  · exact hmem
  · rw [htrail c hmem] at hblank
    cases hblank

end Text

namespace Shell

/-! ### Lines cut into entries -/

/-- A line without the white space around it. -/
def strip (line : String) : String := .ofList (Text.trim line.toList)

/-- The names of the commands. -/
def commands : List String := ["help", "exit", "EOF"]

/-- A line that starts no entry: it is blank, starts with a question mark, or its first word is the
name of a command. -/
def Idle (line : String) : Prop :=
  (strip line).toList = [] ∨ (strip line).toList.head? = some '?' ∨
    String.ofList ((strip line).toList.takeWhile Scan.isWordPart) ∈ commands

/-- An entry of several lines: the first is stripped, those behind it are as they were given. -/
def entryOf (first : String) (more : List String) : String := "\n".intercalate (strip first :: more)

/-- Lines are cut into entries, and into what the last of them leave open, which is empty if they
leave nothing open. -/
inductive Division : List String → List String → String → Prop where
  | nothing : Division [] [] ""
  | idle {line lines entries pending} : Idle line → Division lines entries pending →
      Division (line :: lines) entries pending
  /-- An entry ends with the first of its lines behind which nothing is open. -/
  | entry {first more lines entries pending} : ¬ Idle first →
      (∀ front, front <+: more → front ≠ more → isOpen (entryOf first front)) →
      ¬ isOpen (entryOf first more) → Division lines entries pending →
      Division (first :: (more ++ lines)) (entryOf first more :: entries) pending
  | open {first more} : ¬ Idle first → (∀ front, front <+: more → isOpen (entryOf first front)) →
      Division (first :: more) [] (entryOf first more)

namespace Division
variable {lines entries entries' : List String} {pending pending' : String}

/-- What is left has something open, if it is not empty. -/
theorem isOpen (h : Division lines entries pending) (hne : pending ≠ "") :
    Shell.isOpen pending := by
  induction h with
  | nothing => exact absurd rfl hne
  | idle _ _ ih => exact ih hne
  | entry _ _ _ _ ih => exact ih hne
  | «open» _ hopen => exact hopen _ (List.prefix_refl _)

/-- Of two entries that start with one line, neither goes on behind the end of the other. -/
theorem not_shorter {first : String} {front more : List String} (hinit : front <+: more)
    (hopen : ∀ other, other <+: more → other ≠ more → Shell.isOpen (entryOf first other))
    (hclosed : ¬ Shell.isOpen (entryOf first front)) : front = more := by
  by_contra hne
  exact hclosed (hopen front hinit hne)

/-- Lines are cut in one way only. -/
theorem unique (h : Division lines entries pending) (h' : Division lines entries' pending') :
    entries' = entries ∧ pending' = pending := by
  induction h generalizing entries' pending' with
  | nothing =>
    cases h'
    exact ⟨rfl, rfl⟩
  | idle hidle _ ih =>
    cases h' with
    | idle _ hrest => exact ih hrest
    | entry hstart => exact absurd hidle hstart
    | «open» hstart => exact absurd hidle hstart
  | @entry first more lines entries pending hstart hopen hclosed hrest ih =>
    generalize hlines : first :: (more ++ lines) = all at h'
    cases h' with
    | nothing => cases hlines
    | idle hidle =>
      obtain ⟨rfl, -⟩ := List.cons.inj hlines
      exact absurd hidle hstart
    | @entry _ more' lines' _ _ _ hopen' hclosed' hrest' =>
      obtain ⟨rfl, htail⟩ := List.cons.inj hlines
      have hsame : more = more' := by
        obtain hinit | hinit := List.prefix_or_prefix_of_prefix
          (List.prefix_append more lines) (htail ▸ List.prefix_append more' lines')
        · exact not_shorter hinit hopen' hclosed
        · exact (not_shorter hinit hopen hclosed').symm
      subst hsame
      obtain rfl := List.append_cancel_left htail
      obtain ⟨rfl, rfl⟩ := ih hrest'
      exact ⟨rfl, rfl⟩
    | «open» _ hopen' =>
      obtain ⟨rfl, rfl⟩ := List.cons.inj hlines
      exact absurd (hopen' more (List.prefix_append _ _)) hclosed
  | @«open» first more hstart hopen =>
    generalize hlines : first :: more = all at h'
    cases h' with
    | nothing => cases hlines
    | idle hidle =>
      obtain ⟨rfl, -⟩ := List.cons.inj hlines
      exact absurd hidle hstart
    | entry _ _ hclosed =>
      obtain ⟨rfl, rfl⟩ := List.cons.inj hlines
      exact absurd (hopen _ (List.prefix_append _ _)) hclosed
    | «open» =>
      obtain ⟨rfl, rfl⟩ := List.cons.inj hlines
      exact ⟨rfl, rfl⟩

end Division

/-! ### Lines and entries -/

section Lines
variable {first line : String}

theorem toList_strip (line : String) : (strip line).toList = Text.trim line.toList :=
  String.toList_ofList

/-- A line that starts no entry is a command, or blank. -/
theorem readLine_ne_source (h : Idle line) (text : String) : readLine line ≠ .source text := by
  rw [Idle, toList_strip] at h
  unfold readLine
  simp only
  split
  next => nofun
  next => nofun
  next hne hmark =>
    split
    next => nofun
    next => nofun
    next => nofun
    next hhelp hexit hend =>
      intro
      obtain h | h | h := h
      · exact hne h
      · obtain ⟨cs, hcs⟩ := List.head?_eq_some_iff.mp h
        exact hmark cs hcs
      · simp only [commands, List.mem_cons, List.not_mem_nil, or_false] at h
        obtain h | h | h := h
        · exact hhelp h
        · exact hexit h
        · exact hend h

theorem readLine_source (h : ¬ Idle line) : readLine line = .source (strip line) := by
  have hname {name : String} (hmem : name ∈ commands)
      (heq : String.ofList ((Text.trim line.toList).takeWhile isCommandPart) = name) :
      Idle line := by
    rw [← heq] at hmem
    rw [Idle, toList_strip]
    exact .inr (.inr hmem)
  unfold readLine
  simp only
  split
  next hnil => exact absurd (.inl ((toList_strip line).trans hnil)) h
  next cs hmark =>
    refine absurd (.inr (.inl ?_)) h
    rw [toList_strip, hmark]
    rfl
  next =>
    split
    next heq => exact absurd (hname (by decide) heq) h
    next heq => exact absurd (hname (by decide) heq) h
    next heq => exact absurd (hname (by decide) heq) h
    next => rfl

theorem join_nothing (line : String) : join "" line = line := rfl

theorem entryOf_nil (first : String) : entryOf first [] = strip first :=
  String.intercalate_singleton

theorem strip_ne_nil (h : ¬ Idle first) : (strip first).toList ≠ [] := fun hnil => h (.inl hnil)

/-- An entry is not blank. -/
theorem trim_entryOf (h : ¬ Idle first) (more : List String) :
    Text.trim (entryOf first more).toList ≠ [] := by
  have hstrip := strip_ne_nil h
  rw [toList_strip] at hstrip
  obtain ⟨c, hc, hblank⟩ := Text.trim_ne_nil.mp (Text.trim_trim_ne_nil hstrip)
  refine Text.trim_ne_nil.mpr ⟨c, ?_, hblank⟩
  cases more with
  | nil =>
    rw [entryOf_nil, toList_strip]
    exact hc
  | cons line more =>
    rw [entryOf, String.intercalate_cons_cons, String.toList_append, String.toList_append,
      toList_strip, List.append_assoc]
    exact List.mem_append_left _ hc

theorem entryOf_ne_nothing (h : ¬ Idle first) (more : List String) : entryOf first more ≠ "" := by
  intro hnothing
  apply trim_entryOf h more
  rw [hnothing]
  rfl

/-- A line is joined to the entry that is open. -/
theorem join_entryOf (h : ¬ Idle first) (front : List String) (line : String) :
    join (entryOf first front) line = entryOf first (front ++ [line]) := by
  have hne : ¬ (entryOf first front).isEmpty := by simpa using entryOf_ne_nothing h front
  rw [join, if_neg hne, entryOf, entryOf, ← List.cons_append,
    String.intercalate_append_of_ne_nil (List.cons_ne_nil _ _) (List.cons_ne_nil _ _),
    String.intercalate_singleton]

end Lines

/-! ### What a prompt runs -/

/-- A prompt, with the sources that it has given to its session to run. -/
structure Journal where
  shell : Shell
  sources : List String

abbrev JournalM := EStateM Escape Journal

namespace Journal

def start (session : Session) : Journal := ⟨Shell.start session, []⟩

/-- A step of the prompt that runs no source. -/
def quietly {α : Type} (action : ShellM α) : JournalM α := fun j =>
  match action j.shell with
  | .ok a sh => .ok a { j with shell := sh }
  | .error e sh => .error e { j with shell := sh }

/-- Notes a source and runs it. -/
def run (source : String) : JournalM Unit := do
  modify fun j => { j with sources := j.sources ++ [source] }
  quietly (discard (inSession (Session.guarded (Session.run source promptPath))))

/-- Runs an entry in which nothing is open. -/
def settle (entry : String) : JournalM Unit :=
  if (Text.trim entry.toList).isEmpty then return else run (complete entry)

/-- Takes a line into the open entry, or starts one with it. -/
def submit (line : String) : JournalM Unit := do
  let entry := join (← get).shell.pending line
  if isOpen entry then quietly (modify fun sh => { sh with pending := entry, prompt := .more })
  else
    quietly (modify fun sh => { sh with pending := "", prompt := .entry })
    settle entry

/-- Takes a line while no entry is open. -/
def command (line : String) : JournalM Bool :=
  match readLine line with
  | .blank => return false
  | .help => do
    quietly (say helpText)
    return false
  | .exit => return true
  | .endOfInput => do
    quietly (say "\n")
    return true
  | .source text => do
    submit text
    return false

/-- Takes one line, and notes the source that is run. -/
def step (line : String) : JournalM Bool := do
  if (← get).shell.pending.isEmpty then command line
  else
    submit line
    return false

/-- The journal that a step leaves, however the step ends. -/
def left {α : Type} (j : Journal) (action : JournalM α) : Journal :=
  match action j with
  | .ok _ j' => j'
  | .error _ j' => j'

/-- The journal behind some lines, of which each may also end the prompt or let something escape. -/
def afterAll (j : Journal) : List String → Journal
  | [] => j
  | line :: lines => (j.left (step line)).afterAll lines

/-- A step with notes does what a step of the prompt does. -/
def Erases {α : Type} (c : JournalM α) (action : ShellM α) : Prop :=
  ∀ j, action j.shell = match c j with
    | .ok a j' => .ok a j'.shell
    | .error e j' => .error e j'.shell

namespace Erases
variable {α β : Type}

theorem pure (a : α) : Erases (Pure.pure a) (Pure.pure a) := fun _ => rfl

theorem quietly (action : ShellM α) : Erases (Journal.quietly action) action := by
  intro j
  simp only [Journal.quietly]
  cases action j.shell <;> rfl

theorem bind {c : JournalM α} {action : ShellM α} {k : α → JournalM β} {l : α → ShellM β}
    (hc : Erases c action) (hk : ∀ a, Erases (k a) (l a)) : Erases (c >>= k) (action >>= l) := by
  intro j
  have h := hc j
  simp only [Bind.bind, EStateM.bind, h]
  cases c j with
  | ok a j' => exact hk a j'
  | error e j' => rfl

theorem run (source : String) : Erases (Journal.run source)
    (discard (inSession (Session.guarded (Session.run source promptPath)))) :=
  fun j => quietly _ { j with sources := j.sources ++ [source] }

theorem ite {q : Prop} [Decidable q] {c d : JournalM α} {action other : ShellM α}
    (hc : Erases c action) (hd : Erases d other) :
    Erases (if q then c else d) (if q then action else other) := by
  split
  · exact hc
  · exact hd

theorem settle (entry : String) : Erases (Journal.settle entry) (Shell.settle entry) :=
  ite (pure ()) (run _)

theorem submit (line : String) : Erases (Journal.submit line) (Shell.submit line) := fun j =>
  ite (q := isOpen (join j.shell.pending line)) (quietly _) (bind (quietly _) fun _ => settle _) j

theorem command (line : String) :
    Erases (Journal.command line) (Shell.command line) := by
  unfold Journal.command Shell.command
  cases readLine line with
  | blank => exact pure false
  | help => exact bind (quietly _) fun _ => pure false
  | exit => exact pure true
  | endOfInput => exact bind (quietly _) fun _ => pure true
  | source text => exact bind (submit text) fun _ => pure false

theorem step (line : String) : Erases (Journal.step line) (Shell.step line) := fun j =>
  ite (q := j.shell.pending.isEmpty) (command line) (bind (submit line) fun _ => pure false) j

end Erases

variable {j : Journal} {entries : List String} {pending line : String}

theorem shell_left {α : Type} {c : JournalM α} {action : ShellM α} (h : Erases c action)
    (j : Journal) : (j.left c).shell = j.shell.left action := by
  rw [left, Shell.left, h j]
  cases c j <;> rfl

/-- What is noted has no influence on the prompt. -/
theorem shell_afterAll (j : Journal) (lines : List String) :
    (j.afterAll lines).shell = j.shell.afterAll lines := by
  induction lines generalizing j with
  | nil => rfl
  | cons line lines ih =>
    rw [afterAll, Shell.afterAll, ih, shell_left (.step line)]

theorem left_bind_return (c : JournalM Unit) (b : Bool) (j : Journal) :
    j.left (do c; return b) = j.left c := by
  simp only [left, bind, EStateM.bind, pure, EStateM.pure]
  cases c j <;> rfl

theorem left_quietly {α : Type} (action : ShellM α) (j : Journal) :
    j.left (quietly action) = { j with shell := j.shell.left action } := by
  simp only [left, quietly, Shell.left]
  cases action j.shell <;> rfl

theorem left_inSession {α : Type} (c : SessionM α) (sh : Shell) :
    ∃ session, sh.left (inSession c) = { sh with session := session } := by
  simp only [Shell.left, inSession]
  cases c sh.session <;> exact ⟨_, rfl⟩

theorem left_run (source : String) (j : Journal) : ∃ session,
    j.left (run source) = ⟨{ j.shell with session := session }, j.sources ++ [source]⟩ := by
  obtain ⟨session, hsession⟩ :=
    left_inSession (Session.guarded (Session.run source promptPath)) j.shell
  have hdiscard : j.shell.left (discard (inSession
      (Session.guarded (Session.run source promptPath)))) =
        { j.shell with session := session } := by
    rw [← hsession]
    simp only [Shell.left, discard, Functor.discard, Functor.mapConst, EStateM.map,
      Function.comp_apply]
    cases inSession (Session.guarded (Session.run source promptPath)) j.shell <;> rfl
  have hrun : j.left (run source) = ({ j with sources := j.sources ++ [source] } : Journal).left
      (quietly (discard (inSession (Session.guarded (Session.run source promptPath))))) := rfl
  exact ⟨session, by rw [hrun, left_quietly, hdiscard]⟩

theorem submit_eq (line : String) (j : Journal) :
    submit line j =
      (if isOpen (join j.shell.pending line) then
        quietly (modify fun sh => { sh with pending := join j.shell.pending line, prompt := .more })
      else do
        quietly (modify fun sh => { sh with pending := "", prompt := .entry })
        settle (join j.shell.pending line) : JournalM Unit) j := rfl

theorem step_eq (line : String) (j : Journal) :
    step line j =
      (if j.shell.pending.isEmpty then command line else do submit line; return false :
        JournalM Bool) j := rfl

/-- A prompt has run some entries, and another one is open, if it is not empty. -/
structure Keeps (j : Journal) (entries : List String) (rest : String) : Prop where
  sources : j.sources = entries.map complete
  pending : j.shell.pending = rest
  prompt : j.shell.prompt = .more ↔ rest ≠ ""

namespace Keeps
variable {rest : String}

/-- An entry in which something is open is kept. -/
theorem opened (h : j.Keeps entries rest) (hopen : isOpen (join rest line))
    (hne : join rest line ≠ "") : (j.left (submit line)).Keeps entries (join rest line) := by
  have hleft : j.left (submit line) =
      { j with shell := { j.shell with pending := join rest line, prompt := .more } } := by
    rw [left, submit_eq, h.pending, if_pos hopen]
    rfl
  rw [hleft]
  exact ⟨h.sources, rfl, by simpa using hne⟩

/-- An entry in which nothing is open is run. -/
theorem closed (h : j.Keeps entries rest) (hclosed : ¬ isOpen (join rest line))
    (hne : Text.trim (join rest line).toList ≠ []) :
    (j.left (submit line)).Keeps (entries ++ [join rest line]) "" := by
  have hleft : j.left (submit line) =
      ({ j with shell := { j.shell with pending := "", prompt := .entry } } : Journal).left
        (run (complete (join rest line))) := by
    have hempty : ¬ (Text.trim (join rest line).toList).isEmpty := by simpa using hne
    rw [left, submit_eq, h.pending, if_neg hclosed, settle, if_neg hempty]
    rfl
  obtain ⟨session, hsession⟩ := left_run (complete (join rest line))
    { j with shell := { j.shell with pending := "", prompt := .entry } }
  rw [hleft, hsession]
  exact ⟨by simp [h.sources], rfl, by simp⟩

/-- A line that starts no entry leaves everything as it is, but for the session. -/
theorem idle (h : j.Keeps entries "") (hidle : Idle line) :
    (j.left (step line)).Keeps entries "" := by
  have hsaid (text : String) (ended : Bool) :
      (j.left (do quietly (say text); return ended)).Keeps entries "" := by
    obtain ⟨session, hsession⟩ := left_inSession (Session.say text) j.shell
    rw [left_bind_return, left_quietly, say, hsession]
    exact ⟨h.sources, h.pending, h.prompt⟩
  have hstep : j.left (step line) = j.left (command line) := by
    rw [left, step_eq, if_pos (by simp [h.pending])]
    rfl
  rw [hstep, command]
  cases hread : readLine line with
  | blank => exact h
  | help => exact hsaid helpText false
  | exit => exact h
  | endOfInput => exact hsaid "\n" true
  | source text => exact absurd hread (readLine_ne_source hidle text)

/-- Any other line starts an entry, without the white space around it. -/
theorem left_starts (h : j.Keeps entries "") (hstart : ¬ Idle line) :
    j.left (step line) = j.left (submit (strip line)) := by
  have hstep : j.left (step line) = j.left (command line) := by
    rw [left, step_eq, if_pos (by simp [h.pending])]
    rfl
  rw [hstep, command, readLine_source hstart]
  exact left_bind_return _ _ _

/-- While an entry is open, every line is taken into it. -/
theorem left_goes_on (h : j.Keeps entries rest) (hne : rest ≠ "") :
    j.left (step line) = j.left (submit line) := by
  have hstep : j.left (step line) = j.left (do submit line; return false) := by
    rw [left, step_eq, if_neg (by simpa [h.pending] using hne)]
    rfl
  rw [hstep, left_bind_return]

end Keeps

/-- Behind some lines a prompt has run the entries into which they are cut. -/
def Gathers (j : Journal) (entries lines cut : List String) : Prop :=
  ∃ more rest, Division cut more rest ∧ (j.afterAll lines).Keeps (entries ++ more) rest

/-- Behind a line with which an entry is `entryOf first more` the entry goes on, or the next one may
start. -/
theorem gathers_submit {first text : String} (more lines : List String) (hstart : ¬ Idle first)
    (hfront : ∀ front, front <+: more → front ≠ more → isOpen (entryOf first front)) {rest : String}
    (h : j.Keeps entries rest) (hjoin : join rest text = entryOf first more)
    (hclosed : ∀ {j entries}, Keeps j entries "" → j.Gathers entries lines lines)
    (hopened : ∀ {j : Journal}, j.Keeps entries (entryOf first more) →
      (∀ front, front <+: more → isOpen (entryOf first front)) →
      j.Gathers entries lines (first :: (more ++ lines))) :
    (j.left (submit text)).Gathers entries lines (first :: (more ++ lines)) := by
  by_cases hopen : isOpen (entryOf first more)
  · rw [← hjoin] at hopen
    have hkeeps := h.opened hopen (hjoin ▸ entryOf_ne_nothing hstart more)
    rw [hjoin] at hkeeps hopen
    refine hopened hkeeps fun front hinit => ?_
    by_cases hsame : front = more
    · rwa [hsame]
    · exact hfront front hinit hsame
  · rw [← hjoin] at hopen
    have hkeeps := h.closed hopen (hjoin ▸ trim_entryOf hstart more)
    rw [hjoin] at hkeeps hopen
    obtain ⟨others, rest, hdivision, hlast⟩ := hclosed hkeeps
    refine ⟨entryOf first more :: others, rest, .entry hstart hfront hopen hdivision, ?_⟩
    rwa [List.append_assoc] at hlast

/-- Lines are gathered into entries, from where no entry is open and from within one. -/
theorem gathers (lines : List String) :
    (∀ {j entries}, Keeps j entries "" → j.Gathers entries lines lines) ∧
    ∀ {j entries first front}, Keeps j entries (entryOf first front) → ¬ Idle first →
      (∀ other, other <+: front → isOpen (entryOf first other)) →
      j.Gathers entries lines (first :: (front ++ lines)) := by
  induction lines with
  | nil =>
    refine ⟨fun h => ⟨[], "", .nothing, ?_⟩, fun {j entries first front} h hstart hopen =>
      ⟨[], entryOf first front, ?_, ?_⟩⟩
    · rwa [List.append_nil]
    · rw [List.append_nil]
      exact .open hstart hopen
    · rwa [List.append_nil]
  | cons line lines ih =>
    obtain ⟨ihclosed, ihopen⟩ := ih
    constructor
    · intro j entries h
      by_cases hidle : Idle line
      · obtain ⟨more, rest, hdivision, hlast⟩ := ihclosed (h.idle hidle)
        exact ⟨more, rest, .idle hidle hdivision, hlast⟩
      · have hnext := gathers_submit [] lines hidle
          (fun front hinit hne => absurd (List.prefix_nil.mp hinit) hne) h
          ((join_nothing _).trans (entryOf_nil line).symm) ihclosed
          (fun hkeeps hopen => ihopen hkeeps hidle hopen)
        rwa [← h.left_starts hidle] at hnext
    · intro j entries first front h hstart hopen
      have hnext := gathers_submit (front ++ [line]) lines hstart
        (fun other hinit hne => hopen other
          ((List.prefix_concat_iff.mp hinit).resolve_left hne)) h
        (join_entryOf hstart front line) ihclosed (fun hkeeps hopen => ihopen hkeeps hstart hopen)
      rw [← h.left_goes_on (entryOf_ne_nothing hstart front), List.append_assoc] at hnext
      exact hnext

end Journal

/-- The prompt loses, repeats and reorders nothing: whatever lines it is given, and whatever becomes
of what it runs, they are cut into entries in one way, and the sources that it runs are these
entries, completed. What the last lines leave open is what it waits with, and it asks for more of it
exactly if there is any; a brace or a parenthesis is open in it then. -/
theorem entries_run (session : Session) (lines : List String) :
    ∃ entries rest, Division lines entries rest ∧
      (∀ entries' rest', Division lines entries' rest' → entries' = entries ∧ rest' = rest) ∧
      ((Journal.start session).afterAll lines).shell = (start session).afterAll lines ∧
      ((Journal.start session).afterAll lines).sources = entries.map complete ∧
      ((start session).afterAll lines).pending = rest ∧
      (((start session).afterAll lines).prompt = .more ↔ rest ≠ "") ∧
      (rest ≠ "" → rest.toList.count '\x7d' < rest.toList.count '\x7b' ∨
        rest.toList.count ')' < rest.toList.count '(') := by
  have hstart : (Journal.start session).Keeps [] "" := ⟨rfl, rfl, nofun, absurd rfl⟩
  obtain ⟨entries, rest, hdivision, hkeeps⟩ := (Journal.gathers lines).1 hstart
  have hshell := (Journal.start session).shell_afterAll lines
  refine ⟨entries, rest, hdivision, fun _ _ h => hdivision.unique h, hshell, hkeeps.sources, ?_, ?_,
    fun hne => ?_⟩
  · exact (congrArg Shell.pending hshell).symm.trans hkeeps.pending
  · have hprompt := hkeeps.prompt
    rwa [hshell] at hprompt
  · have hopen := hdivision.isOpen hne
    rw [Shell.isOpen, Bool.or_eq_true] at hopen
    exact hopen.imp of_decide_eq_true of_decide_eq_true

end Shell
end LoxScript
