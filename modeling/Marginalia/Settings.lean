import Marginalia.Data.Json.Reader
import Marginalia.Data.Mismatch
import Marginalia.Data.Value
import Marginalia.Report.Level
import Marginalia.Text.Blank
import Marginalia.Text.Quoted

/-!
# Settings

The settings of a workspace: how deep variables may refer to each other, which declaration of a name
counts, which namespaces may go without a value, how declaration files are named and which notices are
shown.  Each has a default; a key that is none of them is refused.
-/

namespace Marginalia

/-- Which declaration of a name counts when several files declare it. -/
inductive Precedence where
  /-- The one in the earliest file. -/
  | first
  /-- The one in the latest file. -/
  | last
deriving Repr, DecidableEq

namespace Precedence

def all : List Precedence := [.first, .last]

def word : Precedence → String
  | .first => "first"
  | .last => "last"

def ofWord? (word : String) : Option Precedence :=
  all.find? fun precedence => precedence.word = word

theorem ofWord?_word (precedence : Precedence) : ofWord? precedence.word = some precedence := by
  cases precedence <;> decide

theorem word_of_ofWord? {word : String} {precedence : Precedence}
    (found : ofWord? word = some precedence) : precedence.word = word := by
  rw [ofWord?] at found
  simpa using List.find?_some found

end Precedence

/-- The file name patterns of declaration files where nothing else is set. -/
def defaultSheetPatterns : List String := [".acp.vars.json", "acp.vars.json"]

/-- The settings of a workspace. -/
structure Settings where
  depthLimit : Int := 10
  precedence : Precedence := .first
  alsoOptional : List String := []
  sheetPatterns : List String := defaultSheetPatterns
  logLevel : Level := .warning
deriving Repr, DecidableEq, Inhabited

namespace Settings

/-! ## Integers -/

/-- White space at the ends of a text that spells an integer. -/
def isSpace (c : Char) : Bool :=
  Text.isBlank c && !(0x1C ≤ c.toNat && c.toNat ≤ 0x1F)

/-- The sign of an integer and the text behind it; none if a minus follows a plus. -/
def splitSign? : List Char → Option (Bool × List Char)
  | '+' :: '-' :: _ => none
  | '+' :: rest => some (false, rest)
  | '-' :: rest => some (true, rest)
  | text => some (false, text)

/-- The text without zeros in front, except for one before a point or the end.  Underscores between
    zeros go with them, and zeros may stand in front of a minus. -/
def dropZeros? (text : List Char) : Option (List Char) :=
  match text with
  | '0' :: _ =>
    let zeros := text.takeWhile fun c => c = '0' || c = '_'
    match text.drop zeros.length with
    | [] => some (text.drop (text.length - 1))
    | '.' :: _ => some (text.drop (zeros.length - 1))
    | c :: rest => if c.isDigit || c = '-' then some (c :: rest) else none
  | c :: _ => if c.isDigit then some text else none
  | [] => none

/-- The text without a point that zeros follow, and nothing else. -/
def dropFraction (text : List Char) : List Char :=
  let whole := text.takeWhile (· ≠ '.')
  let fraction := text.drop (whole.length + 1)
  if !fraction.isEmpty && fraction.all (· = '0') then whole else text

/-- The text without underscores, if each of them stands alone between other characters. -/
def dropUnderscores (text : List Char) : List Char :=
  if (text.splitOn '_').any List.isEmpty then text else text.filter (· ≠ '_')

/-- The largest number of digits of an integer in plain digits. -/
def plainLimit : Nat := 4300

/-- Reads an integer in plain digits, without zeros in front. -/
def readPlain? (text : List Char) : Option Int :=
  let negative := text.head? = some '-'
  let digits := if negative then text.drop 1 else text
  if digits.isEmpty || !digits.all Char.isDigit || (digits.head? = some '0' && digits != ['0']) ||
      plainLimit < digits.length then none
  else
    let magnitude : Int :=
      (digits.foldl (fun value c => 10 * value + (c.toNat - '0'.toNat)) 0 : Nat)
    some (if negative then -magnitude else magnitude)

/-- Whether a text starts with an integer in plain digits that has too many of them. -/
def startsTooLong (text : List Char) : Bool :=
  let unsigned := if text.head? = some '-' then text.drop 1 else text
  let digits := unsigned.takeWhile Char.isDigit
  digits.head? ≠ some '0' && plainLimit < digits.length

/-- The plain digits of an integer that may have a plus, zeros in front, underscores and a fraction of
    zeros. -/
def toPlain? (text : List Char) : Option (List Char) := do
  let (negative, rest) ← splitSign? text
  let digits := dropFraction (← dropZeros? rest)
  return dropUnderscores (if negative then '-' :: digits else digits)

/-- Reads an integer that a text spells. -/
def readIntegerText (content : String) : Except Mismatch Int :=
  if startsTooLong content.toList then unexpected .integerSize
  else
    let trimmed := ((content.toList.dropWhile isSpace).reverse.dropWhile isSpace).reverse
    match (toPlain? trimmed).bind readPlain? with
    | some number => .ok number
    | none => unexpected .integerText

/-- Reads an integer: one as such, a truth value, a number without a fraction or a text that spells
    one. -/
def readInteger : Value → Except Mismatch Int
  | .int number => .ok number
  | .bool truth => .ok (if truth then 1 else 0)
  | .float number =>
    if !number.isFinite then unexpected .finite
    else
      match number.toInt? with
      | some whole => if whole.natAbs < Nat.pow 2 63 then .ok whole else unexpected .integerSize
      | none => unexpected .whole
  | .text content => readIntegerText content
  | .torn _ => unexpected .wholeCharacters
  | _ => unexpected .integer

/-! ## The settings one by one -/

/-- Reads the largest number of variables that may be open at once. -/
def readDepthLimit (value : Value) : Except Mismatch Int := do
  let number ← readInteger value
  if number < 1 then unexpected (.atLeast 1) else return number

/-- Reads one of some words. -/
def readWord {α : Type} (ofWord? : String → Option α) (words : List String) (value : Value) :
    Except Mismatch α :=
  match value with
  | .text content =>
    match ofWord? content with
    | some meaning => .ok meaning
    | none => unexpected (.oneOf words)
  | .torn _ => unexpected .wholeCharacters
  | _ => unexpected (.oneOf words)

/-- Reads the texts of a list, of which the first has the given place. -/
def readTexts : (place : Nat) → List Value → Except Mismatch (List String)
  | _, [] => .ok []
  | place, .text content :: rest | place, .torn content :: rest =>
    (readTexts (place + 1) rest).map (content :: ·)
  | place, _ :: _ => behindKey (toString place) (unexpected .text)

/-- Reads a list of texts. -/
def readTextList : Value → Except Mismatch (List String)
  | .list items => readTexts 0 items
  | _ => unexpected .list

/-- Reads a setting; it keeps its default where its key is missing. -/
def readSetting {α : Type} (entries : List (String × Value)) (key : String)
    (read : Value → Except Mismatch α) (default : α) : Except Mismatch α :=
  match entries.lookup key with
  | none => .ok default
  | some value => behindKey key (read value)

/-- The keys of the settings. -/
def keys : List String :=
  ["max_depth", "duplicate_policy", "value_optional_namespaces", "vars_file_patterns", "log_level"]

/-- Reads the settings of a table.  Of several mismatches the first in the order of the settings is
    reported, and unknown keys last. -/
def ofEntries (entries : List (String × Value)) : Except Mismatch Settings := do
  let standard : Settings := {}
  let depthLimit ← readSetting entries "max_depth" readDepthLimit standard.depthLimit
  let precedence ← readSetting entries "duplicate_policy"
    (readWord Precedence.ofWord? (Precedence.all.map Precedence.word)) standard.precedence
  let alsoOptional ←
    readSetting entries "value_optional_namespaces" readTextList standard.alsoOptional
  let sheetPatterns ← readSetting entries "vars_file_patterns" readTextList standard.sheetPatterns
  let logLevel ← readSetting entries "log_level"
    (readWord Level.ofWord? (Level.all.map Level.word)) standard.logLevel
  match entries.find? fun entry => !keys.contains entry.1 with
  | some (key, _) => behindKey key (unexpected .absent)
  | none => return { depthLimit, precedence, alsoOptional, sheetPatterns, logLevel }

/-- Reads the settings of a value, which is a table. -/
def ofValue : Value → Except Mismatch Settings
  | .table entries => ofEntries entries
  | _ => ofEntries []

/-- Whether the settings hold an integer with too many digits to be written. -/
def isVast (settings : Settings) : Bool :=
  Nat.pow 10 Json.digitLimit ≤ settings.depthLimit.natAbs

/-- The settings as they are shown in a notice. -/
def display (settings : Settings) : String :=
  let shown := [toString settings.depthLimit, Text.display settings.precedence.word,
    Text.displayList settings.alsoOptional, Text.displayList settings.sheetPatterns,
    Text.display settings.logLevel.word]
  let entries := (keys.zip shown).map fun (key, value) => s!"'{key}': {value}"
  "\x7b" ++ ", ".intercalate entries ++ "\x7d"

end Settings

end Marginalia
