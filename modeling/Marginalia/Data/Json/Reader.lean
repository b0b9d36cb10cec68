import Marginalia.Data.Ordered
import Marginalia.Data.Value
import Marginalia.Stack
import Marginalia.Text.Hex
import Marginalia.Text.Machine

/-!
# Reading JSON

A JSON text as a value.  The reader is a machine with a stack of the lists and tables that are still
open; it reports the first thing that cannot be read and where.  Beyond the standard it reads `NaN`
and the two infinities, keeps integers of any size apart from numbers with a point or an exponent,
and lets a repeated key keep its first place and its last value.  An integer with more digits than
`digitLimit` is refused, and so are lists and tables nested deeper than `depthLimit`.
-/

namespace Marginalia.Json

open Number (Binary64)

/-- Why a text is no JSON. -/
inductive Complaint where
  | expectedValue
  | expectedKey
  | expectedColon
  | expectedComma
  | trailing
  | unterminated
  | control
  | escape
  | unicodeEscape
  | byteOrderMark
deriving Repr, DecidableEq

def Complaint.message : Complaint → String
  | .expectedValue => "Expecting value"
  | .expectedKey => "Expecting property name enclosed in double quotes"
  | .expectedColon => "Expecting ':' delimiter"
  | .expectedComma => "Expecting ',' delimiter"
  | .trailing => "Extra data"
  | .unterminated => "Unterminated string starting at"
  | .control => "Invalid control character at"
  | .escape => "Invalid \\escape"
  | .unicodeEscape => "Invalid \\uXXXX escape"
  | .byteOrderMark => "Unexpected UTF-8 BOM (decode using utf-8-sig)"

/-- What holds other values. -/
inductive Container where
  | list
  | table
deriving Repr, DecidableEq

def Container.word : Container → String
  | .list => "array"
  | .table => "object"

/-- What stops a reading: a complaint about some offset, an integer with too many digits, or a
    container inside too many others. -/
inductive Problem where
  | malformed (complaint : Complaint) (offset : Nat)
  | longInteger (digits : Nat)
  | tooDeep (container : Container)
deriving Repr, DecidableEq

/-- The largest number of digits of an integer. -/
def digitLimit : Nat := 4300

/-- The largest number of lists and tables that are open at once.  Each of them takes a call, and about
    fifteen calls are open around a reading. -/
def depthLimit : Nat := Stack.size - 15

/-! ## Strings -/

/-- The character behind a backslash that stands for another one. -/
def simpleEscape? : Char → Option Char
  | '"' => some '"'
  | '\\' => some '\\'
  | '/' => some '/'
  | 'b' => some '\x08'
  | 'f' => some '\x0c'
  | 'n' => some '\n'
  | 'r' => some '\r'
  | 't' => some '\t'
  | _ => none

/-- The first half of a surrogate pair. -/
def isHighSurrogate (unit : Nat) : Bool := 0xD800 ≤ unit && unit < 0xDC00

/-- The second half of a surrogate pair. -/
def isLowSurrogate (unit : Nat) : Bool := 0xDC00 ≤ unit && unit < 0xE000

/-- The character of a code unit that stands alone; half a pair has none. -/
def unitChar? (unit : Nat) : Option Char :=
  if isHighSurrogate unit || isLowSurrogate unit then none else some (Char.ofNat unit)

/-- Reads the escape behind a backslash at `offset` from the opening quote: its character, and how
    many characters were read.  The text must go on behind the digits of a `\u` escape, and a second
    escape is looked at only when it is followed by more than the closing quote could be. -/
def readEscape (offset : Nat) : List Char → Except (Complaint × Nat) (Option Char × Nat)
  | [] => .error (.unterminated, 0)
  | 'u' :: rest =>
    if rest.length ≤ 4 then .error (.unicodeEscape, offset + 1)
    else
      match Text.hexPrefix? 4 rest with
      | none => .error (.unicodeEscape, offset + 1)
      | some unit =>
        match rest.drop 4 with
        | '\\' :: 'u' :: second =>
          if isHighSurrogate unit && 4 < second.length then
            match Text.hexPrefix? 4 second with
            | none => .error (.unicodeEscape, offset + 7)
            | some low =>
              if isLowSurrogate low then
                .ok (some (Char.ofNat (0x10000 + (unit - 0xD800) * 0x400 + (low - 0xDC00))), 11)
              else .ok (unitChar? unit, 5)
          else .ok (unitChar? unit, 5)
        | _ => .ok (unitChar? unit, 5)
  | c :: _ =>
    match simpleEscape? c with
    | some plain => .ok (some plain, 1)
    | none => .error (.escape, offset)

/-- Reads the body of a string: its characters, and how many characters the string has with its
    quotes.  `offset` counts from the opening quote, `busy` counts the characters of an escape that
    are still to be passed. -/
def readBody : (offset busy : Nat) → List Char → Except (Complaint × Nat) (List (Option Char) × Nat)
  | _, _, [] => .error (.unterminated, 0)
  | offset, busy + 1, _ :: rest => readBody (offset + 1) busy rest
  | offset, 0, c :: rest =>
    if c = '"' then .ok ([], offset + 1)
    else if c = '\\' then do
      let (plain, length) ← readEscape offset rest
      let (body, stop) ← readBody (offset + 1) length rest
      return (plain :: body, stop)
    else if c.toNat < 0x20 then .error (.control, offset)
    else do
      let (body, stop) ← readBody (offset + 1) 0 rest
      return (some c :: body, stop)

/-- Reads a string from its opening quote on: its characters, and its length with the quotes. -/
def readString (text : List Char) : Except (Complaint × Nat) (List (Option Char) × Nat) :=
  readBody 1 0 (text.drop 1)

/-- The text of some characters, with the replacement character for each that is missing. -/
def contentOf (body : List (Option Char)) : String :=
  String.ofList (body.map fun c => c.getD '\uFFFD')

/-- The value of a string. -/
def valueOf (body : List (Option Char)) : Value :=
  if body.all Option.isSome then .text (contentOf body) else .torn (contentOf body)

/-! ## Numbers and words -/

/-- The number that decimal digits spell. -/
def numberOf (digits : List Char) : Nat :=
  digits.foldl (fun value c => 10 * value + (c.toNat - '0'.toNat)) 0

/-- The digits in front of a text. -/
def leadingDigits (text : List Char) : List Char :=
  text.takeWhile Char.isDigit

/-- The parts of a number as it is written. -/
structure Numeral where
  negative : Bool
  whole : List Char
  /-- The digits behind the point; empty when there is no point. -/
  fraction : List Char
  /-- The sign and the digits of the exponent. -/
  power? : Option (Bool × List Char)
  length : Nat

/-- Reads the longest number in front of a text. -/
def readNumeral? (text : List Char) : Option Numeral :=
  let negative := text.head? == some '-'
  let unsigned := if negative then text.drop 1 else text
  let digits := leadingDigits unsigned
  let whole := if digits.head? = some '0' then ['0'] else digits
  if whole.isEmpty then none
  else
    let rest := unsigned.drop whole.length
    let fraction := if rest.head? = some '.' then leadingDigits (rest.drop 1) else []
    let rest := if fraction.isEmpty then rest else rest.drop (fraction.length + 1)
    let marked := rest.head? == some 'e' || rest.head? == some 'E'
    let sign := (rest.drop 1).head?
    let signed := sign == some '+' || sign == some '-'
    let power := leadingDigits (rest.drop (if signed then 2 else 1))
    let power? := if marked && !power.isEmpty then some (sign == some '-', power) else none
    let length := text.length - rest.length +
      (if power?.isSome then power.length + (if signed then 2 else 1) else 0)
    some ⟨negative, whole, fraction, power?, length⟩

/-- The value of a number: an integer if it has neither a point nor an exponent. -/
def Numeral.value (numeral : Numeral) : Except Problem Value :=
  if numeral.fraction.isEmpty && numeral.power?.isNone then
    if digitLimit < numeral.whole.length then .error (.longInteger numeral.whole.length)
    else
      let magnitude : Int := numberOf numeral.whole
      .ok (.int (if numeral.negative then -magnitude else magnitude))
  else
    let power : Int := match numeral.power? with
      | none => 0
      | some (negative, digits) => if negative then -(numberOf digits : Int) else numberOf digits
    .ok (.float (Binary64.ofDecimal numeral.negative (numberOf (numeral.whole ++ numeral.fraction))
      (power - numeral.fraction.length)))

/-- The words that are values. -/
def words : List (List Char × Value) :=
  [("null".toList, .null), ("true".toList, .bool true), ("false".toList, .bool false),
    ("NaN".toList, .float .notANumber), ("Infinity".toList, .float (.infinite false)),
    ("-Infinity".toList, .float (.infinite true))]

/-- Reads a word that is a value: the value and the length of the word. -/
def readWord? (text : List Char) : Option (Value × Nat) :=
  (words.find? fun word => word.1.isPrefixOf text).map fun word => (word.2, word.1.length)

/-! ## The machine -/

/-- A list or table that is still open: the items so far with the last in front, the entries of a
    table in which a key is expected, or those with the key whose value is expected. -/
inductive Frame where
  | list (items : List Value)
  | table (entries : List (String × Value))
  | keyed (entries : List (String × Value)) (key : String)

inductive Phase where
  | value
  /-- A value or the end of an empty list. -/
  | firstItem
  /-- A key or the end of an empty table. -/
  | firstKey
  | key
  /-- The colon behind a key. -/
  | colon
  /-- Whatever may follow the value that was read. -/
  | behind (value : Value)

/-- What is still open, innermost first, and what is read next. -/
structure State where
  frames : List Frame
  phase : Phase

/-- Opens a list or a table. -/
def openContainer (frames : List Frame) (container : Container) : Except Problem (State × Nat) :=
  if depthLimit ≤ frames.length then .error (.tooDeep container)
  else
    match container with
    | .list => .ok (⟨.list [] :: frames, .firstItem⟩, 1)
    | .table => .ok (⟨.table [] :: frames, .firstKey⟩, 1)

/-- Reads a value that is neither a list nor a table, or opens one of those. -/
def readValue (offset : Nat) (frames : List Frame) (text : List Char) :
    Except Problem (State × Nat) :=
  match text with
  | '[' :: _ => openContainer frames .list
  | '\x7b' :: _ => openContainer frames .table
  | '"' :: _ =>
    match readString text with
    | .ok (body, length) => .ok (⟨frames, .behind (valueOf body)⟩, length)
    | .error (complaint, place) => .error (.malformed complaint (offset + place))
  | _ =>
    match readWord? text with
    | some (value, length) => .ok (⟨frames, .behind value⟩, length)
    | none =>
      match readNumeral? text with
      | some numeral => numeral.value.map fun value => (⟨frames, .behind value⟩, numeral.length)
      | none => .error (.malformed .expectedValue offset)

/-- Reads a key of the table that is open. -/
def readKey (offset : Nat) (frames : List Frame) (text : List Char) :
    Except Problem (State × Nat) :=
  match text, frames with
  | '"' :: _, .table entries :: outer =>
    match readString text with
    | .ok (body, length) => .ok (⟨.keyed entries (contentOf body) :: outer, .colon⟩, length)
    | .error (complaint, place) => .error (.malformed complaint (offset + place))
  | _, _ => .error (.malformed .expectedKey offset)

/-- Reads what follows a value: a comma or the end of the list or table it stands in. -/
def readBehind (offset : Nat) (value : Value) (frames : List Frame) (c : Char) :
    Except Problem State :=
  match frames with
  | [] => .error (.malformed .trailing offset)
  | .list items :: outer =>
    if c = ',' then .ok ⟨.list (value :: items) :: outer, .value⟩
    else if c = ']' then .ok ⟨outer, .behind (.list (value :: items).reverse)⟩
    else .error (.malformed .expectedComma offset)
  | .keyed entries key :: outer =>
    if c = ',' then .ok ⟨.table (Ordered.put key value entries) :: outer, .key⟩
    else if c = '\x7d' then .ok ⟨outer, .behind (.table (Ordered.put key value entries))⟩
    else .error (.malformed .expectedComma offset)
  | .table _ :: _ => .error (.malformed .expectedKey offset)

/-- What JSON takes for white space. -/
def isSpace (c : Char) : Bool :=
  c = ' ' || c = '\t' || c = '\n' || c = '\r'

def step (offset : Nat) (state : State) (text : List Char) : Except Problem (State × Nat) :=
  match text with
  | [] => .ok (state, 0)
  | c :: _ =>
    if isSpace c then .ok (state, 1)
    else
      match state.phase with
      | .value => readValue offset state.frames text
      | .firstItem =>
        if c = ']' then .ok (⟨state.frames.drop 1, .behind (.list [])⟩, 1)
        else readValue offset state.frames text
      | .firstKey =>
        if c = '\x7d' then .ok (⟨state.frames.drop 1, .behind (.table [])⟩, 1)
        else readKey offset state.frames text
      | .key => readKey offset state.frames text
      | .colon =>
        if c = ':' then .ok (⟨state.frames, .value⟩, 1)
        else .error (.malformed .expectedColon offset)
      | .behind value => (readBehind offset value state.frames c).map (·, 1)

/-- What the machine has read when the text ends, or what is missing there. -/
def State.finish (state : State) (length : Nat) : Except Problem Value :=
  match state.phase with
  | .behind value =>
    if state.frames.isEmpty then .ok value else .error (.malformed .expectedComma length)
  | .value | .firstItem => .error (.malformed .expectedValue length)
  | .firstKey | .key => .error (.malformed .expectedKey length)
  | .colon => .error (.malformed .expectedColon length)

/-- The value that a text spells. -/
def read (text : List Char) : Except Problem Value := do
  if text.head? = some '\uFEFF' then
    throw (.malformed .byteOrderMark 0)
  let state ← Text.run step ⟨[], .value⟩ text
  state.finish text.length

/-- Where an offset lies: its line and column, both counted from one; only a newline ends a line. -/
def lineAndColumn (text : List Char) (offset : Nat) : Nat × Nat :=
  let ahead := text.take offset
  (ahead.count '\n' + 1, (ahead.reverse.takeWhile (· ≠ '\n')).length + 1)

/-- A complaint with its place in the text. -/
def Complaint.describe (complaint : Complaint) (text : List Char) (offset : Nat) : String :=
  let (line, column) := lineAndColumn text offset
  s!"{complaint.message}: line {line} column {column} (char {offset})"

end Marginalia.Json
