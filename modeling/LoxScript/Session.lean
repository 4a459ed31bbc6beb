import LoxScript.Eval
import LoxScript.Folder
import LoxScript.Reporter
import LoxScript.Tree.Printer

/-!
Sessions. A session runs sources one after another on one machine, so that what one defines the
next can use. A source with a static error is not run.
-/
namespace LoxScript

inductive Status where
  | success
  /-- A static error. -/
  | dataError
  /-- An error of the running program. -/
  | runtimeError
deriving DecidableEq, Repr

def Status.code : Status → Nat
  | .success => 0
  | .dataError => 65
  | .runtimeError => 70

/-- What a failure of a run is to those outside of it. A loop that is taken for endless ends as if
the user had interrupted it. -/
def Failure.escape : Failure → Escape
  | .fault _ cause => .language cause.message
  | .unbound name => .unknown "KeyError" (Text.quoted name)
  | .noFrame => .unknown "FrameError" "distance out of range"
  | .infiniteRemainder => .unknown "ValueError" "math domain error"
  | .tooDeep => .tooDeep
  | .endless => .interrupted

/-- The state of a session. -/
structure Session where
  host : Host
  machine : Machine
  reporter : Reporter

/-- Steps of a session. A step from which something escapes keeps what it did. -/
abbrev SessionM := EStateM Escape Session

/-- The name of a source that comes from no file. -/
def promptPath : String := "<stdin>"

/-- The depth to which calls may nest. A deeper one ends the run, so that a recursion
without end does. -/
def callDepth : Nat := 8000

/-- The number of turns of a loop that is taken for endless. -/
def loopTurns : Nat := Number.twoPow 60

/-- The functions that every program can use: both give the time in milliseconds, as the clock of
the host shows it at the call. -/
def Library.standard (readings : Nat → Float) : Library :=
  [("clock", ⟨0, fun calls _ => .number (readings calls)⟩),
    ("time", ⟨0, fun calls _ => .number (readings calls)⟩)]

namespace Session

/-- A session before its first run. An interactive one never ends the process by a report. -/
def start (library : Library) (reporter : Reporter) (interactive : Bool) : Session where
  host := ⟨library, callDepth, loopTurns⟩
  machine := .start library.globals
  reporter := { reporter with fatal := reporter.fatal && !interactive }

def say (text : String) : SessionM Unit :=
  modify fun s => { s with machine := { s.machine with output := text :: s.machine.output } }

/-- A session with nothing written to either output. -/
def flushed (s : Session) : Session :=
  { s with
    machine := { s.machine with output := [] }
    reporter := { s.reporter with written := [] } }

def report (f : Reporter → Reporter) : SessionM Unit :=
  modify fun s => { s with reporter := f s.reporter }

/-- Reports an error that belongs to no line. -/
def raise (message : String) (internal : Bool) : SessionM Unit := do
  let (r, ended) := (← get).reporter.raise message internal
  modify fun s => { s with reporter := r }
  match ended with
  | some e => throw e
  | none => return

/-- Runs a step under the guard of the reporter. A step that the guard ended has no result. -/
def guarded {α : Type} (step : SessionM α) : SessionM (Option α) := fun s =>
  match step s with
  | .ok a s => .ok (some a) s
  | .error e s =>
    let (r, passed) := s.reporter.guard e
    let s := { s with reporter := r }
    match passed with
    | some e => .error e s
    | none => .ok none s

def parse (source path : String) : SessionM (List RawStmt) := do
  let scanned := scan source
  let parsed := LoxScript.parse scanned.tokens
  report fun r =>
    ((r.reset.registerSource path source).reportAll scanned.diagnostics).reportAll
      parsed.diagnostics
  return parsed.program

/-- Executes a program. An error of the program ends it and is reported. -/
def interpret (program : List ResolvedStmt) : SessionM Unit := fun s =>
  match s.host.execProgram program s.machine with
  | .ok _ m => .ok () { s with machine := m }
  | .error (.fault token cause) m =>
    .ok () { s with
      machine := { m with environment := .global }
      reporter := s.reporter.reportRuntime (some token) cause.message }
  | .error failure m => .error failure.escape { s with machine := m }

def run (source path : String) : SessionM Status := do
  let program ← parse source path
  if (← get).reporter.hadError then return .dataError
  let resolution := resolve program
  report (·.reportAll resolution.diagnostics)
  if (← get).reporter.hadError then return .dataError
  interpret resolution.program
  if (← get).reporter.hadRuntimeError then return .runtimeError
  return .success

/-- Parses a source and gives its trees in printed form. -/
def dump (source path : String) : SessionM String := do
  let program ← parse source path
  return printProgram program

/-- Reads a file. One that cannot be opened is reported. -/
def readSource (files : Files) (path : String) : SessionM (Option String) := do
  match files path with
  | .refused => do
    raise ("'" ++ path ++ "' could not be opened") false
    return none
  | .badPath => throw (.unknown "ValueError" "embedded null byte")
  | .content bytes =>
    match readText bytes with
    | .ok source => return some source
    | .error e => throw (.unknown "UnicodeDecodeError" e.message)

def runFile (files : Files) (path : String) : SessionM Status := do
  match ← readSource files path with
  | none => return .dataError
  | some source => run source path

end Session
end LoxScript
