import LoxScript.Token.Scan

/-!
Static errors: where they are and what they say.
-/
namespace LoxScript

/-- The place of a static error: a line, or a token. -/
inductive Anchor where
  | line (number : Option Nat)
  | token (t : Token)
deriving DecidableEq

namespace Anchor

def line? : Anchor → Option Nat
  | line number => number
  | token t => some t.line

def token? : Anchor → Option Token
  | line _ => none
  | token t => some t

/-- The words that name the place inside its line. -/
def describe : Anchor → String
  | line _ => ""
  | token t => if t.kind = .eof then " at end" else " at '" ++ t.lexeme ++ "'"

end Anchor

structure Diagnostic where
  anchor : Anchor
  message : String
deriving DecidableEq

/-- A line number as text; an unknown line has a word of its own. -/
def lineText : Option Nat → String
  | some n => toString n
  | none => "None"

/-- The line in front of a static error. -/
def Diagnostic.lineMark (d : Diagnostic) : String := "[line " ++ lineText d.anchor.line? ++ "] "

/-- The kind and place in front of a static error's message. -/
def Diagnostic.heading (d : Diagnostic) : String := "Error" ++ d.anchor.describe ++ ": "

/-- A static error as one line of plain text. -/
def Diagnostic.plain (d : Diagnostic) : String := d.lineMark ++ d.heading ++ d.message

def Scan.Outcome.diagnostics (o : Scan.Outcome) : List Diagnostic :=
  o.faults.map fun (line, fault) => ⟨.line (some line), fault.message⟩

end LoxScript
