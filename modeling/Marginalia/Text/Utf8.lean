import Marginalia.Text.Hex
import Marginalia.Text.Scan

/-!
# Reading UTF-8

Bytes as characters.  A malformed sequence is reported with the longest beginning of it that a
well-formed character could have, and reading may either stop there or put the replacement character
in its place.
-/

namespace Marginalia.Text.Utf8

/-- What is wrong with a malformed sequence. -/
inductive Flaw where
  /-- No character starts with this byte. -/
  | start
  /-- A byte that cannot continue the character follows. -/
  | continuation
  /-- The data end inside the character. -/
  | ended
deriving Repr, DecidableEq

/-- A malformed sequence: where it starts, how many bytes of a character it holds, its first byte
    and what is wrong with it. -/
structure Malformed where
  position : Nat
  length : Nat
  byte : UInt8
  flaw : Flaw
deriving Repr, DecidableEq

def Flaw.message : Flaw → String
  | .start => "invalid start byte"
  | .continuation => "invalid continuation byte"
  | .ended => "unexpected end of data"

/-- The wording of a malformed sequence: its first byte if it has only that, or its place. -/
def Malformed.message (malformed : Malformed) : String :=
  let place :=
    if malformed.length = 1 then
      s!"byte 0x{String.ofList (hexDigits 2 malformed.byte.toNat)} in position {malformed.position}"
    else
      s!"bytes in position {malformed.position}-{malformed.position + malformed.length - 1}"
  s!"'utf-8' codec can't decode {place}: {malformed.flaw.message}"

/-- What the first byte of a character announces: the value of its own bits, how many bytes follow,
    and between which bounds the next of them lies.  The bounds leave out overlong forms, the
    surrogates and whatever lies above the last code point. -/
structure Lead where
  bits : Nat
  owed : Nat
  low : Nat := 0x80
  high : Nat := 0xBF

/-- What a first byte announces, if a character can start with it. -/
def lead? (byte : UInt8) : Option Lead :=
  let b := byte.toNat
  if b ≤ 0x7F then some { bits := b, owed := 0 }
  else if b < 0xC2 then none
  else if b ≤ 0xDF then some { bits := b - 0xC0, owed := 1 }
  else if b = 0xE0 then some { bits := 0, owed := 2, low := 0xA0 }
  else if b = 0xED then some { bits := 0xD, owed := 2, high := 0x9F }
  else if b ≤ 0xEF then some { bits := b - 0xE0, owed := 2 }
  else if b = 0xF0 then some { bits := 0, owed := 3, low := 0x90 }
  else if b ≤ 0xF3 then some { bits := b - 0xF0, owed := 3 }
  else if b = 0xF4 then some { bits := 4, owed := 3, high := 0x8F }
  else none

/-- Reads the bytes that a character still owes: the number of bytes read, and the code point or
    what is wrong. -/
def finish : (bits owed low high taken : Nat) → List UInt8 → Nat × Except Flaw Char
  | bits, 0, _, _, taken, _ => (taken, .ok (Char.ofNat bits))
  | _, _ + 1, _, _, taken, [] => (taken, .error .ended)
  | bits, owed + 1, low, high, taken, byte :: rest =>
    if low ≤ byte.toNat ∧ byte.toNat ≤ high then
      finish (64 * bits + (byte.toNat - 0x80)) owed 0x80 0xBF (taken + 1) rest
    else (taken, .error .continuation)

/-- Reads one character, or the beginning of one that is malformed. -/
def readUnit : List UInt8 → Option (Nat × Except (UInt8 × Flaw) Char)
  | [] => none
  | byte :: rest =>
    match lead? byte with
    | none => some (1, .error (byte, .start))
    | some lead =>
      let (length, result) := finish lead.bits lead.owed lead.low lead.high 1 rest
      some (length, result.mapError (byte, ·))

/-- The characters of the bytes, or the first malformed sequence. -/
def decode (bytes : List UInt8) : Except Malformed (List Char) :=
  (hits readUnit bytes).mapM fun hit =>
    hit.token.mapError fun (byte, flaw) => ⟨hit.start, hit.length, byte, flaw⟩

/-- The characters of the bytes, with the replacement character for each malformed sequence. -/
def decodeLossy (bytes : List UInt8) : List Char :=
  (hits readUnit bytes).map fun hit =>
    match hit.token with
    | .ok c => c
    | .error _ => '\uFFFD'

/-- The bytes of the characters. -/
def encode (text : List Char) : List UInt8 :=
  text.flatMap String.utf8EncodeChar

end Marginalia.Text.Utf8
