import Marginalia.Data.Value
import Marginalia.Number.Shortest
import Marginalia.Text.Hex

/-!
# Writing JSON

A value as JSON text, one entry a line and two spaces deeper for each level.  Only printable ASCII is
written as it is.
-/

namespace Marginalia.Json

open Number (Binary64)

/-- A code unit of sixteen bits as an escape. -/
def writeUnit (unit : Nat) : List Char :=
  '\\' :: 'u' :: Text.hexDigits 4 unit

/-- One character of a string.  A character beyond sixteen bits becomes two escapes. -/
def writeChar (c : Char) : List Char :=
  if c = '"' then ['\\', '"']
  else if c = '\\' then ['\\', '\\']
  else if c = '\n' then ['\\', 'n']
  else if c = '\r' then ['\\', 'r']
  else if c = '\t' then ['\\', 't']
  else if c = '\x0c' then ['\\', 'f']
  else if c = '\x08' then ['\\', 'b']
  else if 0x20 ≤ c.toNat ∧ c.toNat ≤ 0x7E then [c]
  else if c.toNat < 0x10000 then writeUnit c.toNat
  else
    let beyond := c.toNat - 0x10000
    writeUnit (0xD800 + beyond / 0x400) ++ writeUnit (0xDC00 + beyond % 0x400)

/-- A string with its quotes. -/
def writeString (content : String) : List Char :=
  '"' :: content.toList.flatMap writeChar ++ ['"']

/-- A line break and the indentation of a level. -/
def breakLine (depth : Nat) : List Char :=
  '\n' :: List.replicate (2 * depth) ' '

/-- The text of a number with a point or an exponent. -/
def writeFloat : Binary64 → String
  | .notANumber => "NaN"
  | .infinite negative => if negative then "-Infinity" else "Infinity"
  | number => number.text

mutual

/-- The text of a value that stands at some depth.  A moment has no JSON form and is written as
    `null`. -/
def writeAt (depth : Nat) : Value → List Char
  | .null => "null".toList
  | .bool truth => if truth then "true".toList else "false".toList
  | .int number => (toString number).toList
  | .float number => (writeFloat number).toList
  | .text content | .torn content => writeString content
  | .moment => "null".toList
  | .list [] => "[]".toList
  | .list (item :: items) =>
    '[' :: breakLine (depth + 1) ++ writeAt (depth + 1) item ++ writeItems (depth + 1) items ++
      breakLine depth ++ [']']
  | .table [] => ['\x7b', '\x7d']
  | .table (entry :: entries) =>
    '\x7b' :: breakLine (depth + 1) ++ writeEntry (depth + 1) entry ++
      writeEntries (depth + 1) entries ++ breakLine depth ++ ['\x7d']

/-- The items behind the first one of a list. -/
def writeItems (depth : Nat) : List Value → List Char
  | [] => []
  | item :: items => ',' :: breakLine depth ++ writeAt depth item ++ writeItems depth items

/-- An entry of a table. -/
def writeEntry (depth : Nat) : String × Value → List Char
  | (key, value) => writeString key ++ ':' :: ' ' :: writeAt depth value

/-- The entries behind the first one of a table. -/
def writeEntries (depth : Nat) : List (String × Value) → List Char
  | [] => []
  | entry :: entries =>
    ',' :: breakLine depth ++ writeEntry depth entry ++ writeEntries depth entries

end

/-- The JSON text of a value. -/
def write (value : Value) : String :=
  String.ofList (writeAt 0 value)

example : write (.table [("a", .list [.int 1, .null]), ("é", .text "\"\n")]) =
    "\x7b\n  \"a\": [\n    1,\n    null\n  ],\n  \"\\u00e9\": \"\\\"\\n\"\n\x7d" := by decide

end Marginalia.Json
