import LoxScript.Diagnostic
import LoxScript.Text.Find
import LoxScript.Text.Lines

/-!
Reports. A reporter keeps what was reported since it was last reset, and writes it out together
with the line of the registered source to which it belongs. It also stands between the program and
what escapes from it: some of that it reports and ends, the rest it reports and lets pass.
-/
namespace LoxScript

/-- What can escape from a run, beyond the errors that are reported as the program's own. -/
inductive Escape where
  /-- The user interrupts. -/
  | interrupted
  /-- The process is to end with a status. -/
  | exit (status : Int)
  /-- Calls are nested too deeply. -/
  | tooDeep
  /-- An error of the language that nobody reported. -/
  | language (message : String)
  /-- Anything else: its kind, and what it says. -/
  | unknown (kind detail : String)
deriving DecidableEq, Repr

/-- The state of a reporter. What it wrote stands latest first, each text with its line end. -/
structure Reporter where
  fatal : Bool
  colored : Bool
  path : Option String
  lines : List String
  hadError : Bool
  hadRuntimeError : Bool
  errors : List String
  runtimeErrors : List String
  written : List String
deriving Inhabited

/-- The offset of a token in a line, if it is certain: at its column if it stands there, or where
its lexeme stands if that occurs once. -/
def locate? (line : String) (token : Option Token) : Option Nat := do
  let token ← token
  let word := token.lexeme.toList
  if word.isEmpty then none
  else
    let here := token.column.filter fun c => (line.toList.drop c).take word.length == word
    here.or (Text.onlyOffset? word line.toList)

namespace Reporter

def start (fatal colored : Bool) : Reporter :=
  ⟨fatal, colored, none, [], false, false, [], [], []⟩

/-- Registers the source whose lines reports quote. -/
def registerSource (r : Reporter) (path : String) (source : String) : Reporter :=
  { r with path := some path, lines := (Text.lines source.toList).map .ofList }

def reset (r : Reporter) : Reporter :=
  { r with hadError := false, hadRuntimeError := false, errors := [], runtimeErrors := [] }

def bold (r : Reporter) (s : String) : String :=
  if r.colored then "\x1b[1m" ++ s ++ "\x1b[0m" else s

def alarm (r : Reporter) (s : String) : String :=
  if r.colored then "\x1b[1m\x1b[31m" ++ s ++ "\x1b[0m" else s

def write (r : Reporter) (s : String) : Reporter := { r with written := (s ++ "\n") :: r.written }

def output (r : Reporter) : String := String.join r.written.reverse

/-- A mark under `length` characters. -/
def underline (length : Nat) : String := .ofList ('^' :: List.replicate (length - 1) '~')

/-- A line with the token at an offset highlighted, and a mark under it. -/
def quote (r : Reporter) (line : String) (start length : Nat) : String :=
  let cs := line.toList
  "  " ++ .ofList (cs.take start) ++ r.alarm (.ofList ((cs.drop start).take length)) ++
    .ofList (cs.drop (start + length)) ++ "\n" ++
    "  " ++ .ofList (List.replicate start ' ') ++ r.alarm (underline length)

def line? (r : Reporter) (line : Option Nat) : Option String :=
  match line with
  | none => none
  | some 0 => none
  | some (n + 1) => r.lines[n]?

/-- The registered line of an error, with its token marked if that can be placed. -/
def diagnose? (r : Reporter) (line : Option Nat) (token : Option Token) : Option String :=
  (r.line? line).map fun text =>
    match locate? text token, token with
    | some start, some token => r.quote text start token.lexeme.length
    | _, _ => "  " ++ text

/-- Writes the line of an error, if it is known. -/
def writeLine (r : Reporter) (line : Option Nat) (token : Option Token) : Reporter :=
  match r.diagnose? line token with
  | some text => r.write text
  | none => r

def report (r : Reporter) (d : Diagnostic) : Reporter :=
  let r := { r with errors := r.errors ++ [d.plain], hadError := true }
  let r := r.write (r.bold d.lineMark ++ r.alarm d.heading ++ d.message)
  r.writeLine d.anchor.line? d.anchor.token?

def reportAll (r : Reporter) (ds : List Diagnostic) : Reporter := ds.foldl report r

/-- Reports an error of a running program at a token, if one is known. -/
def reportRuntime (r : Reporter) (token : Option Token) (message : String) : Reporter :=
  let line := token.map (·.line)
  let place := "[line " ++ lineText line ++ "]"
  let r := { r with
    runtimeErrors := r.runtimeErrors ++ [message ++ "\n" ++ place], hadRuntimeError := true }
  let r := r.write (r.alarm "runtime error: " ++ message ++ "\n" ++ r.bold place)
  r.writeLine line token

/-- The status with which a fatal report ends the process. -/
def fatalStatus (internal : Bool) : Int := if internal then 70 else 65

/-- Reports an error that belongs to no line, and ends the process if the reporter is fatal. -/
def raise (r : Reporter) (message : String) (internal : Bool) : Reporter × Option Escape :=
  let source := match r.path with
    | some path => if path.isEmpty then "" else r.bold (path ++ ": ")
    | none => ""
  let mark := if internal then r.alarm "[internal] " else ""
  let r := { r with errors := r.errors ++ [message], hadError := true }
  let r := r.write (source ++ mark ++ r.alarm "error: " ++ message)
  (r, if r.fatal then some (.exit (fatalStatus internal)) else none)

/-- Meets what escapes from a guarded run, and says what escapes from the guard. -/
def guard (r : Reporter) (e : Escape) : Reporter × Option Escape :=
  match e with
  | .interrupted => r.raise "keyboard interrupt" false
  | .exit status => (r, some (.exit status))
  | .tooDeep => r.raise "maximum recursion depth exceeded" true
  | .language message => r.raise message false
  | .unknown kind detail =>
    let (r, ended) := r.raise ("unknown error: '" ++ kind ++ ": " ++ detail ++ "'") true
    (r, ended.or (some e))

end Reporter
end LoxScript
