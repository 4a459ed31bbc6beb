import LoxScript.Session
import LoxScript.Text.Blank
import LoxScript.Text.Word

/-!
The interactive prompt. Lines are gathered into entries until no brace and no parenthesis is left
open; an entry is completed to a statement and run. While no entry is open, a line can also be a
command.
-/
namespace LoxScript

/-- What the prompt asks for: a new entry, or more of an open one. -/
inductive Prompt where
  | entry
  | more
deriving DecidableEq, Repr

def Prompt.text : Prompt → String
  | .entry => "> "
  | .more => ". "

namespace Shell

/-- How often a character occurs in a text. -/
def occurrences (c : Char) (s : String) : Nat := s.toList.count c

/-- Whether a text has more opening than closing braces or parentheses, wherever they stand. -/
def isOpen (s : String) : Bool :=
  occurrences '\x7d' s < occurrences '\x7b' s || occurrences ')' s < occurrences '(' s

/-- A line joined to the open entry, if there is one. -/
def join (pending line : String) : String :=
  if pending.isEmpty then line else pending ++ "\n" ++ line

/-- The words with which a statement can start. -/
def statementWords : List String :=
  ["var", "print", "return", "break", "continue", "if", "while", "for", "class", "fun"]

/-- Whether a text starts with a word that is not part of a longer one. -/
def startsWith (word : String) (cs : List Char) : Bool :=
  word.toList.isPrefixOf cs &&
    match cs.drop word.length with
    | [] => true
    | c :: _ => !Text.isWord c

/-- The source that an entry stands for: a statement may lack its semicolon, and a bare expression
is printed. -/
def complete (entry : String) : String :=
  let stripped := Text.trim entry.toList
  if stripped.getLast? = some ';' ∨ stripped.getLast? = some '\x7d' then entry
  else if statementWords.any (startsWith · stripped) then .ofList stripped ++ ";"
  else "print " ++ .ofList stripped ++ ";"

/-- What a line means while no entry is open. -/
inductive Line where
  | blank
  | help
  | exit
  | endOfInput
  | source (text : String)
deriving DecidableEq, Repr

/-- The characters of a command's name. -/
def isCommandPart (c : Char) : Bool := Scan.isWordPart c

/-- Reads a line. A question mark asks for help, and the word at the front can name a command,
whatever stands behind it. -/
def readLine (line : String) : Line :=
  let stripped := Text.trim line.toList
  match stripped with
  | [] => .blank
  | '?' :: _ => .help
  | cs =>
    match String.ofList (cs.takeWhile isCommandPart) with
    | "help" => .help
    | "exit" => .exit
    | "EOF" => .endOfInput
    | _ => .source (.ofList cs)

def intro : String :=
  "Lox interpreter :: Python backend\nType 'help' for more information, 'exit' to quit.\n"

def helpText : String :=
  "Welcome to the lox interpreter!\n\n" ++
  "Lox is a small dynamically-typed scripting language with first-class functions, \n" ++
  "closures, and classes. Statements end with ';' and blocks are delimited by braces; \n" ++
  "a block that is left open continues on the next line.\n\n" ++
  "Try it out by typing 'var greeting = \"hello\";'. Next, try typing 'greeting + \" world\"'. \n" ++
  "A bare expression is printed, so this will show 'hello world'.\n"

end Shell

/-- The state of a prompt: its session, the open entry, and what it asks for. -/
structure Shell where
  session : Session
  pending : String
  prompt : Prompt

abbrev ShellM := EStateM Escape Shell

namespace Shell

def start (session : Session) : Shell := ⟨session, "", .entry⟩

def inSession {α : Type} (step : SessionM α) : ShellM α := fun sh =>
  match step sh.session with
  | .ok a s => .ok a { sh with session := s }
  | .error e s => .error e { sh with session := s }

def say (text : String) : ShellM Unit := inSession (Session.say text)

/-- Adds a line to the open entry, or starts one with it, and runs the entry once
nothing is open. -/
def submit (line : String) : ShellM Unit := do
  let entry := join (← get).pending line
  if isOpen entry then modify fun sh => { sh with pending := entry, prompt := .more }
  else
    modify fun sh => { sh with pending := "", prompt := .entry }
    if (Text.trim entry.toList).isEmpty then return
    else discard (inSession (Session.guarded (Session.run (complete entry) promptPath)))

/-- Takes one line and says whether the prompt is to end. -/
def step (line : String) : ShellM Bool := do
  if (← get).pending.isEmpty then
    match readLine line with
    | .blank => return false
    | .help => do
      say helpText
      return false
    | .exit => return true
    | .endOfInput => do
      say "\n"
      return true
    | .source text => do
      submit text
      return false
  else
    submit line
    return false

/-- What the prompt is given at the end of its input. -/
def endOfInput : String := "EOF"

/-- Takes lines until the prompt ends, then the end of the input, which ends it unless an entry is
open; an open entry would never be closed. -/
def converse : List String → ShellM Unit
  | [] => do
    say (← get).prompt.text
    if ← step endOfInput then return else throw .interrupted
  | line :: lines => do
    say (← get).prompt.text
    if ← step line then return else converse lines

/-- Greets and takes the lines of an input. -/
def loop (lines : List String) : ShellM Unit := do
  say intro
  converse lines

end Shell
end LoxScript
