import LoxScript.Text.Quoted

/-!
Reading UTF-8. The first sequence that is not well formed stops the reading, and the error names its
bytes and what is wrong with them.
-/
namespace LoxScript.Text.Utf8

/-- What is wrong with a sequence of bytes. -/
inductive Defect where
  /-- No sequence starts with this byte. -/
  | invalidStart
  /-- A byte that should continue the sequence does not. -/
  | invalidContinuation
  /-- The text ends inside the sequence. -/
  | unexpectedEnd
deriving DecidableEq, Repr

def Defect.message : Defect → String
  | .invalidStart => "invalid start byte"
  | .invalidContinuation => "invalid continuation byte"
  | .unexpectedEnd => "unexpected end of data"

/-- A malformed sequence: its first byte, that byte's offset, the offset after its last byte, and
what is wrong. -/
structure Malformed where
  byte : Nat
  start : Nat
  stop : Nat
  defect : Defect
deriving DecidableEq, Repr

def Malformed.message (e : Malformed) : String :=
  let place :=
    if e.stop = e.start + 1 then
      "byte 0x" ++ .ofList (hexDigits 2 e.byte) ++ " in position " ++ toString e.start
    else "bytes in position " ++ toString e.start ++ "-" ++ toString (e.stop - 1)
  "'utf-8' codec can't decode " ++ place ++ ": " ++ e.defect.message

/-- A sequence that is being read: its first byte and offset, how many bytes it still needs, the
range of the next one, and the bits of the character so far. -/
structure Open where
  byte : Nat
  start : Nat
  needs : Nat
  low : Nat
  high : Nat
  bits : Nat
deriving Repr

/-- The sequence that a byte at an offset starts, if any. The second byte of some sequences has a
narrower range, so that no character has two forms and no surrogate is written. -/
def openSequence? (byte start : Nat) : Option Open :=
  if byte < 0x80 then some ⟨byte, start, 0, 0x80, 0xBF, byte⟩
  else if byte < 0xC2 then none
  else if byte < 0xE0 then some ⟨byte, start, 1, 0x80, 0xBF, byte - 0xC0⟩
  else if byte = 0xE0 then some ⟨byte, start, 2, 0xA0, 0xBF, 0⟩
  else if byte = 0xED then some ⟨byte, start, 2, 0x80, 0x9F, 0xD⟩
  else if byte < 0xF0 then some ⟨byte, start, 2, 0x80, 0xBF, byte - 0xE0⟩
  else if byte = 0xF0 then some ⟨byte, start, 3, 0x90, 0xBF, 0⟩
  else if byte < 0xF4 then some ⟨byte, start, 3, 0x80, 0xBF, byte - 0xF0⟩
  else if byte = 0xF4 then some ⟨byte, start, 3, 0x80, 0x8F, 4⟩
  else none

def Open.extend (o : Open) (byte : Nat) : Open :=
  { o with needs := o.needs - 1, low := 0x80, high := 0xBF, bits := o.bits * 64 + byte % 64 }

/-- Reads the bytes from `offset` on, the characters read before them standing reversed in `done`
and an unfinished sequence in `opened`. -/
def decodeFrom (done : List Char) (offset : Nat) (opened : Option Open) :
    List Nat → Except Malformed (List Char)
  | [] =>
    match opened with
    | none => .ok done.reverse
    | some o => .error ⟨o.byte, o.start, offset, .unexpectedEnd⟩
  | byte :: bytes =>
    match opened with
    | none =>
      match openSequence? byte offset with
      | none => .error ⟨byte, offset, offset + 1, .invalidStart⟩
      | some o =>
        if o.needs = 0 then decodeFrom (Char.ofNat o.bits :: done) (offset + 1) none bytes
        else decodeFrom done (offset + 1) (some o) bytes
    | some o =>
      if o.low ≤ byte ∧ byte ≤ o.high then
        if o.needs = 1 then
          decodeFrom (Char.ofNat (o.extend byte).bits :: done) (offset + 1) none bytes
        else decodeFrom done (offset + 1) (some (o.extend byte)) bytes
      else .error ⟨o.byte, o.start, offset, .invalidContinuation⟩

/-- The characters of a byte sequence, or its first malformed part. -/
def decode (bytes : List Nat) : Except Malformed (List Char) := decodeFrom [] 0 none bytes

end LoxScript.Text.Utf8
