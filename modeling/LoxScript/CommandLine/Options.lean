import LoxScript.Text.Quoted
import LoxScript.Text.Word

/-!
The words of the command line: one optional file name, a switch for the syntax tree and one for
help. Switches may be abbreviated, and two dashes end them. A word that fits nowhere is an error
at the end, so that help asked for behind it is still given.
-/
namespace LoxScript.CommandLine

/-- What the words ask for. -/
structure Options where
  file : Option String
  tree : Bool
deriving DecidableEq, Repr

/-- Why no program is run. -/
inductive Stop where
  | help
  | error (message : String)
deriving DecidableEq, Repr

inductive Switch where
  | help
  | tree
deriving DecidableEq, Repr

def switchNames : List (String × Switch) :=
  [("-h", .help), ("--help", .help), ("--ast", .tree)]

/-- All names of a switch, as errors give them. -/
def Switch.title : Switch → String
  | .help => "-h/--help"
  | .tree => "--ast"

/-- The meaning of a word. A switch may come with a value. -/
inductive Word where
  | argument (text : String)
  | separator
  | switch (name : String) (s : Switch) (value : Option (List Char))
  | unknown (text : String)
deriving DecidableEq, Repr

/-- A word up to its first equals sign, and what is behind that. -/
def splitEqual (cs : List Char) : List Char × Option (List Char) :=
  (cs.takeWhile (· != '='), (cs.dropWhile (· != '=')).tail?)

/-- A number: digits, or a point with digits behind it and possibly in front of it. -/
def isNumber (cs : List Char) : Bool :=
  match cs.dropWhile Text.isDecimal with
  | [] => !cs.isEmpty
  | '.' :: fraction => !fraction.isEmpty && fraction.all Text.isDecimal
  | _ => false

/-- A number that may end its line. -/
def isNumberLine (cs : List Char) : Bool :=
  isNumber cs || (cs.getLast? == some '\n' && isNumber cs.dropLast)

/-- The switches that a word can stand for, with the value that it gives them. -/
def candidates (cs : List Char) : List (String × Switch × Option (List Char)) :=
  match cs with
  | '-' :: '-' :: _ =>
    let (name, value) := splitEqual cs
    (switchNames.filter fun (full, _) => name.isPrefixOf full.toList).map
      fun (full, s) => (full, s, value)
  | _ =>
    switchNames.filterMap fun (full, s) =>
      if full.toList = cs.take 2 then some (full, s, some (cs.drop 2))
      else if cs.isPrefixOf full.toList then some (full, s, none)
      else none

/-- Reads a word in front of the separator. -/
def readWord (word : String) : Except Stop Word :=
  let cs := word.toList
  let (name, value) := splitEqual cs
  match cs with
  | [] => .ok (.argument word)
  | first :: rest =>
    if first ≠ '-' then .ok (.argument word)
    else if let some s := switchNames.lookup word then .ok (.switch word s none)
    else if rest.isEmpty then .ok (.argument word)
    else
      match switchNames.lookup (.ofList name), value with
      | some s, some value => .ok (.switch (.ofList name) s (some value))
      | _, _ =>
        match candidates cs with
        | [(full, s, value)] => .ok (.switch full s value)
        | [] =>
          if isNumberLine rest || cs.contains ' ' then .ok (.argument word) else .ok (.unknown word)
        | several =>
          .error (.error ("ambiguous option: " ++ word ++ " could match " ++
            ", ".intercalate (several.map (·.1))))

/-- Reads all words. Behind the separator every word is an argument. -/
def readWords : List String → Except Stop (List Word)
  | [] => .ok []
  | word :: words =>
    if word = "--" then .ok (.separator :: words.map .argument)
    else
      match readWord word with
      | .error e => .error e
      | .ok w => (readWords words).map (w :: ·)

/-- A switch takes no value. -/
def refuseValue (s : Switch) (value : List Char) : Stop :=
  .error ("argument " ++ s.title ++ ": ignored explicit argument " ++ Text.quoted (.ofList value))

/-- What is left of a short switch holds further short switches, of which only help exists. The
value that is refused starts at the first character that is none. -/
def shortHelp : List Char → Stop
  | ['h'] => .help
  | 'h' :: cs => shortHelp cs
  | cs => refuseValue .help cs

/-- What a switch does: it stops, or asks for the tree. -/
def applySwitch (name : String) (s : Switch) (value : Option (List Char)) : Option Stop :=
  match s, value with
  | .help, none => some .help
  | .tree, none => none
  | .help, some value =>
    if name = "-h" then some (shortHelp value) else some (refuseValue .help value)
  | .tree, some value => some (refuseValue .tree value)

/-- What has been understood so far: the options, whether the place of the file name is taken, and
the words that fit nowhere. -/
structure Progress where
  options : Options
  taken : Bool
  extras : List String

/-- Goes through the words in order. The separator is dropped where it stands next to the file
name, or in its place. -/
def understand (p : Progress) : List Word → Except Stop Progress
  | [] => .ok p
  | .argument text :: words =>
    if p.taken then understand { p with extras := p.extras ++ [text] } words
    else
      let p := { p with taken := true, options := { p.options with file := some text } }
      match words with
      | .separator :: words => understand p words
      | words => understand p words
  | .separator :: words =>
    if p.taken then understand { p with extras := p.extras ++ ["--"] } words
    else
      match words with
      | .argument text :: words =>
        understand { p with taken := true, options := { p.options with file := some text } } words
      | words => understand { p with taken := true } words
  | .switch name s value :: words =>
    match applySwitch name s value with
    | some stop => .error stop
    | none => understand { p with options := { p.options with tree := true } } words
  | .unknown text :: words => understand { p with extras := p.extras ++ [text] } words

def Options.ofWords (words : List String) : Except Stop Options :=
  match readWords words with
  | .error e => .error e
  | .ok words =>
    match understand ⟨⟨none, false⟩, false, []⟩ words with
    | .error e => .error e
    | .ok p =>
      if p.extras.isEmpty then .ok p.options
      else .error (.error ("unrecognized arguments: " ++ " ".intercalate p.extras))

def usage : String := "usage: lox [-h] [--ast] [file]\n"

def helpText : String :=
  usage ++ "\n" ++
  "positional arguments:\n" ++
  "  file        file to interpret and run (if empty, goes to command-line mode)\n\n" ++
  "options:\n" ++
  "  -h, --help  show this help message and exit\n" ++
  "  --ast       print the syntax tree of file instead of running it\n"

end LoxScript.CommandLine
