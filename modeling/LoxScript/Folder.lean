import LoxScript.Text.Lines
import LoxScript.Text.Utf8

/-!
The files that a program can be read from, and their text. Files are known by what happens when a
path is opened; a folder with files, and with folders that hold nothing, is one way to give them.
-/
namespace LoxScript

/-- The answer to an attempt to open a file. -/
inductive Opened where
  | content (bytes : List Nat)
  | refused
  /-- The path holds a character that no path may hold. -/
  | badPath
deriving Inhabited

/-- The answers to all attempts to open a file. -/
abbrev Files := String → Opened

inductive Entry where
  | file (bytes : List Nat)
  | folder
deriving Inhabited

abbrev Folder := List (String × Entry)

/-- Whether a path holds the character that ends a path for the system. -/
def isBadPath (path : String) : Bool := path.toList.contains '\x00'

namespace Folder

/-- Follows the parts of a path from the folder, or from inside one of the folders in it. -/
def follow (f : Folder) (inside : Bool) : List String → Opened
  | [] => .refused
  | part :: parts =>
    if part = "" ∨ part = "." then f.follow inside parts
    else if part = ".." then if inside then f.follow false parts else .refused
    else if inside then .refused
    else
      match f.lookup part with
      | none => .refused
      | some .folder => f.follow true parts
      | some (.file bytes) => if parts.isEmpty then .content bytes else .refused

def files (f : Folder) : Files := fun path =>
  if isBadPath path then .badPath
  else if path.toList.head? = some '/' then .refused
  else f.follow false (path.splitOn "/")

end Folder

/-- The text of a file: UTF-8, with unified line ends. -/
def readText (bytes : List Nat) : Except Text.Utf8.Malformed String :=
  (Text.Utf8.decode bytes).map fun cs => .ofList (Text.unifyLineEnds cs)

end LoxScript
