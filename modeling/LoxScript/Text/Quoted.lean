import LoxScript.Text.Printable

/-!
Quoted text: single quotes, or double quotes around a text that holds single quotes only. The
quote and the backslash are escaped, line ends and tabs have short escapes, and an unprintable
character is written by its code point.
-/
namespace LoxScript.Text

def singleQuote : Char := '\x27'

def doubleQuote : Char := '\x22'

/-- The lower-case hexadecimal digits of `n`, padded with zeros to `width`. -/
def hexDigits (width n : Nat) : List Char :=
  let digits := Nat.toDigits 16 n
  List.replicate (width - digits.length) '0' ++ digits

/-- A character as it is written between quotes of the given kind. -/
def escape (quote c : Char) : List Char :=
  if c = quote ∨ c = '\\' then ['\\', c]
  else if c = '\n' then ['\\', 'n']
  else if c = '\r' then ['\\', 'r']
  else if c = '\t' then ['\\', 't']
  else if isPrintable c then [c]
  else if c.toNat < 0x100 then '\\' :: 'x' :: hexDigits 2 c.toNat
  else if c.toNat < 0x10000 then '\\' :: 'u' :: hexDigits 4 c.toNat
  else '\\' :: 'U' :: hexDigits 8 c.toNat

/-- The quote around a text: single unless the text holds a single quote and no double quote. -/
def quoteFor (cs : List Char) : Char :=
  if cs.contains singleQuote && !cs.contains doubleQuote then doubleQuote else singleQuote

def quoted (s : String) : String :=
  let quote := quoteFor s.toList
  .ofList (quote :: s.toList.flatMap (escape quote) ++ [quote])

end LoxScript.Text
