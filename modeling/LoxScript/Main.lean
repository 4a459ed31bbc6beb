import LoxScript.CommandLine
import Std.Time.DateTime.Timestamp

/-!
The program: it reads files and lines, calls the library, and writes what that gives.
-/
namespace LoxScript.Main

/-- The library whose clock shows the present time. A run is over before the outside is looked at
again, so the clock stands still in it. -/
def currentLibrary : IO Library := do
  let time ← Std.Time.Timestamp.now
  return .standard fun _ => Float.ofInt time.toMillisecondsSinceUnixEpoch.val

/-- The session with another library of the same names. -/
def withLibrary (library : Library) (s : Session) : Session :=
  { s with host := { s.host with library := library } }

def openFile (path : String) : IO Opened := do
  if isBadPath path then return .badPath
  try
    let bytes ← IO.FS.readBinFile path
    return .content (bytes.toList.map (·.toNat))
  catch _ => return .refused

/-- The status of the process for what escapes from the program. -/
def escapeStatus : Escape → UInt32
  | .exit status => UInt32.ofNat status.toNat
  | _ => 1

/-- Writes out what a session has written so far. -/
def flush (s : Session) : IO Session := do
  IO.print s.machine.printed
  IO.eprint s.reporter.output
  (← IO.getStdout).flush
  return s.flushed

/-- Takes lines from standard input until the prompt ends. -/
partial def converse (sh : Shell) : IO UInt32 := do
  IO.print sh.prompt.text
  (← IO.getStdout).flush
  let line ← (← IO.getStdin).getLine
  let ended := line.isEmpty
  let text := if ended then Shell.endOfInput else .ofList (line.toList.takeWhile (· != '\n'))
  -- The clock has gone on since the line before.
  let session := withLibrary (← currentLibrary) sh.session
  match Shell.step text { sh with session := session } with
  | .ok stop sh => do
    let session ← flush sh.session
    if stop || ended then return 0 else converse { sh with session := session }
  | .error e sh => do
    let (reporter, passed) := sh.session.reporter.guard e
    let _ ← flush { sh.session with reporter := reporter }
    return (passed.map escapeStatus).getD 0

/-- Runs a file, or gives the help or the error that the words ask for. -/
def runOnce (words : List String) (files : Files) (library : Library) (colored : Bool) :
    IO UInt32 := do
  let completion := CommandLine.run words files "" library colored
  IO.print completion.out
  IO.eprint completion.err
  match completion.result with
  | .ok status => return UInt32.ofNat ((status.map (·.code)).getD 0)
  | .error e => return escapeStatus e

end LoxScript.Main

open LoxScript LoxScript.Main in
def main (words : List String) : IO UInt32 := do
  let library ← currentLibrary
  let colored ← (← IO.getStdout).isTty
  match CommandLine.Options.ofWords words with
  | .ok ⟨none, _⟩ => do
    IO.print Shell.intro
    converse (.start (.start library (.start true colored) true))
  | .ok ⟨some path, _⟩ => do
    let opened ← openFile path
    runOnce words (fun _ => opened) library colored
  | .error _ => runOnce words (fun _ => .refused) library colored
