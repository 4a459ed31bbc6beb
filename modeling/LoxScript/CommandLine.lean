import LoxScript.CommandLine.Options
import LoxScript.Shell

/-!
The whole program as a function of its words, its files and its input.
-/
namespace LoxScript.CommandLine

/-- What a run of the program leaves: a status if it ends by itself, or what escapes from it, and
the texts of its two outputs. -/
structure Completion where
  result : Except Escape (Option Status)
  out : String
  err : String

/-- The lines of an input, each without its newline. A last line may lack one. -/
def inputLines (input : String) : List String :=
  let parts := input.splitOn "\n"
  if parts.getLast? = some "" then parts.dropLast else parts

def stopped : Stop → Completion
  | .help => ⟨.error (.exit 0), helpText, ""⟩
  | .error message => ⟨.error (.exit 2), "", usage ++ "lox: error: " ++ message ++ "\n"⟩

def completion (result : Except Escape (Option Status)) (s : Session) : Completion :=
  ⟨result, s.machine.printed, s.reporter.output⟩

def fileRun (files : Files) (path : String) (tree : Bool) : SessionM Status := do
  if tree then
    match ← Session.readSource files path with
    | none => return .dataError
    | some source => do
      let text ← Session.dump source path
      Session.say (text ++ "\n")
      if (← get).reporter.hadError then return .dataError else return .success
  else Session.runFile files path

def promptRun (lines : List String) : SessionM Unit := fun s =>
  match Shell.loop lines (.start s) with
  | .ok _ sh => .ok () sh.session
  | .error e sh => .error e sh.session

/-- Runs the program. Its reporter guards the whole of it. -/
def run (words : List String) (files : Files) (input : String) (library : Library)
    (colored : Bool) : Completion :=
  match Options.ofWords words with
  | .error stop => stopped stop
  | .ok options =>
    let reporter := Reporter.start true colored
    match options.file with
    | some path =>
      match Session.guarded (fileRun files path options.tree) (.start library reporter false) with
      | .ok status s => completion (.ok status) s
      | .error e s => completion (.error e) s
    | none =>
      match Session.guarded (promptRun (inputLines input)) (.start library reporter true) with
      | .ok _ s => completion (.ok none) s
      | .error e s => completion (.error e) s

end LoxScript.CommandLine
