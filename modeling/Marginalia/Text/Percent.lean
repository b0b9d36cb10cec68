import Marginalia.Text.Hex
import Marginalia.Text.Utf8

/-!
# Percent encoding of paths

A path inside a URI writes each byte of a character that is not plain as a percent sign with two
hexadecimal digits.  Decoding collects the bytes again; bytes that are no UTF-8 become replacement
characters, and a percent sign without two digits stands for itself.
-/

namespace Marginalia.Text.Percent

/-- The characters that a path keeps as they are: letters, digits, `_`, `.`, `-`, `~` and the
    slash. -/
def isPlain (c : Char) : Bool :=
  c.isAlphanum || c = '_' || c = '.' || c = '-' || c = '~' || c = '/'

/-- A byte as a percent sign and two digits. -/
def encodeByte (byte : UInt8) : List Char :=
  '%' :: hexDigitsUpper 2 byte.toNat

/-- The path with every character that is not plain percent-encoded. -/
def encode (path : List Char) : List Char :=
  path.flatMap fun c =>
    if isPlain c then [c] else (String.utf8EncodeChar c).flatMap encodeByte

/-- Reads one unit of an encoded path: a byte, written as an escape or as an ASCII character, or
    a character beyond ASCII, which stands for itself. -/
def readUnit : List Char → Option (Nat × (UInt8 ⊕ Char))
  | [] => none
  | c :: rest =>
    match (if c = '%' then hexPrefix? 2 rest else none) with
    | some value => some (3, .inl (UInt8.ofNat value))
    | none =>
      if c.toNat < 0x80 then some (1, .inl (UInt8.ofNat c.toNat)) else some (1, .inr c)

/-- Decodes each longest run of bytes; `run` holds the bytes of the run so far, last one first. -/
def joinRuns : (run : List UInt8) → List (UInt8 ⊕ Char) → List Char
  | run, [] => Utf8.decodeLossy run.reverse
  | run, .inl byte :: rest => joinRuns (byte :: run) rest
  | run, .inr c :: rest => Utf8.decodeLossy run.reverse ++ c :: joinRuns [] rest

/-- The path with its escapes decoded. -/
def decode (path : List Char) : List Char :=
  joinRuns [] ((hits readUnit path).map Hit.token)

end Marginalia.Text.Percent
