import Marginalia.Data.Json.Reader
import Marginalia.Text.Search

/-!
# Pieces of TOML

The pieces of a TOML text that hold no other values: parts of keys, strings, dates and times, numbers
and words.  Each reader looks at the front of a text and gives what it read together with the text
behind it.
-/

namespace Marginalia.Toml

open Number (Binary64)

/-- What stops a reading: a text that is no TOML, an integer with too many digits, or a value inside
    too many others. -/
inductive Problem where
  | unreadable
  | longInteger (digits : Nat)
  | tooDeep
deriving Repr, DecidableEq

/-- White space inside a line. -/
def isSpace (c : Char) : Bool :=
  c = ' ' || c = '\t'

/-- White space over lines. -/
def isSpaceOrLine (c : Char) : Bool :=
  isSpace c || c = '\n'

/-- Whether a character may stand in a comment or in a string on one line: no control but the tab. -/
def isLegal (c : Char) : Bool :=
  (0x20 ≤ c.toNat && c.toNat != 0x7F) || c = '\t'

/-- Whether a character may stand in a string, which may go over lines. -/
def isLegalIn (multiline : Bool) (c : Char) : Bool :=
  isLegal c || (multiline && c = '\n')

/-! ## Strings -/

/-- The character behind a backslash that stands for another one. -/
def simpleEscape? : Char → Option Char
  | '"' => some '"'
  | '\\' => some '\\'
  | 'b' => some '\x08'
  | 'f' => some '\x0c'
  | 'n' => some '\n'
  | 'r' => some '\r'
  | 't' => some '\t'
  | _ => none

/-- The character of a code point that is written with `width` digits. -/
def readCodePoint? (width : Nat) (text : List Char) : Option Char :=
  (Text.hexPrefix? width text).bind fun code =>
    if code.isValidChar then some (Char.ofNat code) else none

/-- How many characters a folded line end has behind its backslash: blanks, a newline, and the white
    space of the lines that follow. -/
def foldLength? (text : List Char) : Option Nat :=
  let blanks := (text.takeWhile isSpace).length
  match text.drop blanks with
  | '\n' :: rest => some (blanks + 1 + (rest.takeWhile isSpaceOrLine).length)
  | _ => none

/-- Reads what stands behind a backslash: the characters it stands for, and how many were read. -/
def readEscape? (multiline : Bool) (text : List Char) : Option (List Char × Nat) :=
  match text with
  | 'u' :: rest => (readCodePoint? 4 rest).map fun c => ([c], 5)
  | 'U' :: rest => (readCodePoint? 8 rest).map fun c => ([c], 9)
  | c :: _ =>
    if isSpaceOrLine c then
      if multiline then (foldLength? text).map fun length => ([], length) else none
    else (simpleEscape? c).map fun plain => ([plain], 1)
  | [] => none

/-- The text behind the closing quotes of a string over lines, where up to two more quotes belong to
    the string: those quotes, and the text behind. -/
def closeLines (quote : Char) (text : List Char) : List Char × List Char :=
  let more := (text.take 2).takeWhile (· = quote)
  (more, text.drop more.length)

/-- Reads the body of a string with escapes: its characters and the text behind its closing quotes.
    `busy` counts the characters of an escape that are still to be passed. -/
def readBody? (multiline : Bool) : (busy : Nat) → List Char → Option (List Char × List Char)
  | _, [] => none
  | busy + 1, _ :: rest => readBody? multiline busy rest
  | 0, c :: rest =>
    if c = '"' then
      if !multiline then some ([], rest)
      else if ['"', '"'].isPrefixOf rest then some (closeLines '"' (rest.drop 2))
      else (readBody? multiline 0 rest).map fun (body, behind) => (c :: body, behind)
    else if c = '\\' then
      (readEscape? multiline rest).bind fun (plain, length) =>
        (readBody? multiline length rest).map fun (body, behind) => (plain ++ body, behind)
    else if isLegalIn multiline c then
      (readBody? multiline 0 rest).map fun (body, behind) => (c :: body, behind)
    else none

/-- The text without the newline in front, if there is one. -/
def dropNewline (text : List Char) : List Char :=
  if text.head? = some '\n' then text.drop 1 else text

/-- Reads a string on one line, from its opening quote on. -/
def readLineString? : List Char → Option (String × List Char)
  | '"' :: rest => (readBody? false 0 rest).map fun (body, behind) => (String.ofList body, behind)
  | '\'' :: rest =>
    let body := rest.takeWhile (· ≠ '\'')
    match rest.drop body.length with
    | _ :: behind => if body.all isLegal then some (String.ofList body, behind) else none
    | [] => none
  | _ => none

/-- Reads a string over lines, from the text behind its three opening quotes on. -/
def readLines? (quote : Char) (text : List Char) : Option (String × List Char) :=
  let text := dropNewline text
  if quote = '"' then
    (readBody? true 0 text).map fun (body, behind) => (String.ofList body, behind)
  else
    (Text.before? [quote, quote, quote] text).bind fun body =>
      if body.all (isLegalIn true) then
        let (more, behind) := closeLines quote (text.drop (body.length + 3))
        some (String.ofList (body ++ more), behind)
      else none

/-- Reads a string from its opening quote on. -/
def readString? (text : List Char) : Option (String × List Char) :=
  if ['"', '"', '"'].isPrefixOf text then readLines? '"' (text.drop 3)
  else if ['\'', '\'', '\''].isPrefixOf text then readLines? '\'' (text.drop 3)
  else readLineString? text

/-! ## Keys -/

/-- A character of a key that stands without quotes. -/
def isBareKey (c : Char) : Bool :=
  c.isAlphanum || c = '-' || c = '_'

/-- Reads one part of a key. -/
def readKeyPart? (text : List Char) : Option (String × List Char) :=
  let bare := text.takeWhile isBareKey
  if bare.isEmpty then readLineString? text else some (String.ofList bare, text.drop bare.length)

/-! ## Dates and times -/

/-- Reads the digits of a number with a fixed count of digits that lies between bounds. -/
def readFixed? (width low high : Nat) (text : List Char) : Option (Nat × List Char) :=
  let digits := text.take width
  if digits.length = width ∧ digits.all Char.isDigit then
    let number := Json.numberOf digits
    if low ≤ number ∧ number ≤ high then some (number, text.drop width) else none
  else none

/-- The text behind an expected character. -/
def expect? (mark : Char) : List Char → Option (List Char)
  | c :: rest => if c = mark then some rest else none
  | [] => none

/-- The number of days of a month. -/
def daysOf (year month : Nat) : Nat :=
  if month = 2 then
    if year % 4 = 0 ∧ (year % 100 ≠ 0 ∨ year % 400 = 0) then 29 else 28
  else if month = 4 ∨ month = 6 ∨ month = 9 ∨ month = 11 then 30
  else 31

/-- The text behind a date of the calendar. -/
def passDate? (text : List Char) : Option (List Char) := do
  let (year, text) ← readFixed? 4 1 9999 text
  let (month, text) ← readFixed? 2 1 12 (← expect? '-' text)
  let (_, text) ← readFixed? 2 1 (daysOf year month) (← expect? '-' text)
  return text

/-- The text behind the fraction of a second, if there is one. -/
def passFraction (text : List Char) : List Char :=
  match text with
  | '.' :: rest =>
    let digits := rest.takeWhile Char.isDigit
    if digits.isEmpty then text else rest.drop digits.length
  | _ => text

/-- The text behind hours and minutes. -/
def passMinutes? (text : List Char) : Option (List Char) := do
  let (_, text) ← readFixed? 2 0 23 text
  let (_, text) ← readFixed? 2 0 59 (← expect? ':' text)
  return text

/-- The text behind a time of day. -/
def passTime? (text : List Char) : Option (List Char) := do
  let (_, text) ← readFixed? 2 0 59 (← expect? ':' (← passMinutes? text))
  return passFraction text

/-- The text behind the distance from universal time, if there is one. -/
def passZone (text : List Char) : List Char :=
  match text with
  | c :: rest =>
    if c = 'Z' || c = 'z' then rest
    else if c = '+' || c = '-' then (passMinutes? rest).getD text
    else text
  | [] => text

/-- The text behind the time of a date, if there is one. -/
def passTimeOfDate (text : List Char) : List Char :=
  match text with
  | c :: rest =>
    if c = 'T' || c = 't' || c = ' ' then ((passTime? rest).map passZone).getD text else text
  | [] => text

/-- The text behind a date, a time or both. -/
def passMoment? (text : List Char) : Option (List Char) :=
  ((passDate? text).map passTimeOfDate).or (passTime? text)

/-! ## Numbers -/

/-- Reads digits, between which single underscores may stand. -/
def readDigits (accepts : Char → Bool) : List Char → List Char × List Char
  | [] => ([], [])
  | c :: rest =>
    if accepts c then
      let (digits, behind) := readDigits accepts rest
      (c :: digits, behind)
    else if c = '_' && (rest.head?.map accepts).getD false then readDigits accepts rest
    else ([], c :: rest)

/-- Reads digits of which at least the first is there. -/
def readDigits? (accepts : Char → Bool) (text : List Char) : Option (List Char × List Char) :=
  if (text.head?.map accepts).getD false then some (readDigits accepts text) else none

/-- The bases other than ten, by their letter. -/
def bases : List (Char × Nat) :=
  [('x', 16), ('b', 2), ('o', 8)]

/-- Whether a character is a digit of a base. -/
def isDigitOf (base : Nat) (c : Char) : Bool :=
  ((Text.hexValue? c).map (decide <| · < base)).getD false

/-- The number that digits of a base spell. -/
def numberIn (base : Nat) (digits : List Char) : Nat :=
  digits.foldl (fun value c => base * value + (Text.hexValue? c).getD 0) 0

/-- Reads an integer in a base other than ten. -/
def readBased? : List Char → Option (Nat × List Char)
  | '0' :: letter :: rest =>
    (bases.lookup letter).bind fun base =>
      (readDigits? (isDigitOf base) rest).map fun (digits, behind) => (numberIn base digits, behind)
  | _ => none

/-- Reads the sign of a number, if there is one: whether it is a minus. -/
def readSign : List Char → Bool × List Char
  | '-' :: rest => (true, rest)
  | '+' :: rest => (false, rest)
  | text => (false, text)

/-- Reads the digits of a number in front of its point: a zero stands alone. -/
def readWhole? : List Char → Option (List Char × List Char)
  | '0' :: rest => some (['0'], rest)
  | text => readDigits? Char.isDigit text

/-- Reads the point and the digits behind it, if they are there. -/
def readFraction (text : List Char) : List Char × List Char :=
  ((expect? '.' text).bind (readDigits? Char.isDigit)).getD ([], text)

/-- Reads the exponent of a number, if it is there. -/
def readPower (text : List Char) : Option Int × List Char :=
  match text with
  | mark :: rest =>
    if mark = 'e' || mark = 'E' then
      let (negative, rest) := readSign rest
      match readDigits? Char.isDigit rest with
      | some (digits, behind) =>
        let power : Int := Json.numberOf digits
        (some (if negative then -power else power), behind)
      | none => (none, text)
    else (none, text)
  | [] => (none, text)

/-- Reads a number in base ten: an integer if it has neither a point nor an exponent. -/
def readDecimal (text : List Char) : Except Problem (Value × List Char) :=
  let (negative, rest) := readSign text
  match readWhole? rest with
  | none => .error .unreadable
  | some (whole, rest) =>
    let (fraction, rest) := readFraction rest
    let (power?, rest) := readPower rest
    if fraction.isEmpty && power?.isNone then
      if Json.digitLimit < whole.length then .error (.longInteger whole.length)
      else
        let magnitude : Int := Json.numberOf whole
        .ok (.int (if negative then -magnitude else magnitude), rest)
    else
      let digits := Json.numberOf (whole ++ fraction)
      .ok (.float (Binary64.ofDecimal negative digits (power?.getD 0 - fraction.length)), rest)

/-- The words that are values. -/
def words : List (String × Value) :=
  [("true", .bool true), ("false", .bool false), ("inf", .float (.infinite false)),
    ("+inf", .float (.infinite false)), ("-inf", .float (.infinite true)),
    ("nan", .float .notANumber), ("+nan", .float .notANumber), ("-nan", .float .notANumber)]

/-- Reads a word that is a value. -/
def readWord? (text : List Char) : Option (Value × List Char) :=
  (words.find? fun word => word.1.toList.isPrefixOf text).map fun word =>
    (word.2, text.drop word.1.length)

/-- Reads a value that holds no other values. -/
def readScalar (text : List Char) : Except Problem (Value × List Char) :=
  let ready := [(readString? text).map fun (content, rest) => (Value.text content, rest),
    readWord? text, (passMoment? text).map fun rest => (Value.moment, rest),
    (readBased? text).map fun (number, rest) => (Value.int number, rest)]
  match ready.findSome? id with
  | some found => .ok found
  | none => readDecimal text

end Marginalia.Toml
