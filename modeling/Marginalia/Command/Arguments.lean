import Marginalia.Text.Digit
import Marginalia.Text.Search

/-!
# Arguments of commands

A command takes flags, some of them with a value, and at most one operand.  Flags may stand in any
order and before or behind the operand.  A long flag may be shortened as long as no other flag starts
the same way, its value follows or stands behind `=`; short flags may be joined behind one dash, the
value of the last of them too.  Behind `--` everything is an operand; where `--` is attached to a flag
as its value, the flag is given without one.
-/

namespace Marginalia.Command

/-- A flag of a command. -/
structure Flag where
  /-- How the flag is written; the first of these is its name. -/
  names : List String
  takesValue : Bool := false
  /-- The values it may have; any, if none is listed. -/
  choices : List String := []
deriving Repr, DecidableEq

def Flag.name (flag : Flag) : String :=
  flag.names.headD ""

/-- The flag that asks for help; every command has it. -/
def Flag.help : Flag := { names := ["--help", "-h"] }

/-- What a command takes. -/
structure Form where
  flags : List Flag
  needsOperand : Bool
deriving Repr, DecidableEq

/-- The arguments that a command was given: the operand, and the flags by name with their values, the
    last one in front. -/
structure Given where
  operand : Option String := none
  flags : List (String × Option String) := []
deriving Repr, DecidableEq

namespace Given

def has (given : Given) (name : String) : Bool :=
  (given.flags.lookup name).isSome

/-- The value that was given last for a flag. -/
def value? (given : Given) (name : String) : Option String :=
  (given.flags.lookup name).join

/-- Whether a flag was given, and the last time without a value. -/
def lacksValue (given : Given) (name : String) : Bool :=
  given.has name && (given.value? name).isNone

end Given

/-- Why a command does not run. -/
inductive Refusal where
  | misuse
  | help
deriving Repr, DecidableEq

/-! ## Words -/

/-- A word of the command line, as far as it can be told without the words around it. -/
inductive Word where
  | operand (text : String)
  /-- The two dashes behind which everything is an operand. -/
  | separator
  /-- Flags behind one dash, of which the last may have a value attached. -/
  | flags (before : List Flag) (last : Flag) (attached : Option String)
  /-- A flag that does not exist. -/
  | stray
  /-- Something is attached to a flag that has no place for it. -/
  | broken
deriving Repr, DecidableEq

namespace Form

/-- All flags with all the ways in which they are written. -/
def spellings (form : Form) : List (String × Flag) :=
  (Flag.help :: form.flags).flatMap fun flag => flag.names.map (·, flag)

/-- The flag that is written this way. -/
def flag? (form : Form) (spelling : List Char) : Option Flag :=
  form.spellings.lookup (String.ofList spelling)

/-- A short flag behind some others, with `text` attached: the value of the flag, if it takes one;
    otherwise the letter of the next flag and what is attached to that. -/
def joined (form : Form) (before : List Flag) (flag : Flag) : (text : List Char) → Word
  | [] => .broken
  | c :: rest =>
    if flag.takesValue then .flags before flag (some (String.ofList (c :: rest)))
    else
      match form.flag? ['-', c], rest with
      | none, _ => .broken
      | some next, [] => .flags (before ++ [flag]) next none
      | some next, d :: more => form.joined (before ++ [flag]) next (d :: more)

/-- A flag with a value behind `=`. -/
def withValue (form : Form) (flag : Flag) (isShort : Bool) (value : List Char) : Word :=
  if flag.takesValue then .flags [] flag (some (String.ofList value))
  else if isShort then form.joined [] flag value
  else .broken

/-- Whether a word is a negative number, which is an operand.  A newline may stand at its end. -/
def isNegativeNumber (word : List Char) : Bool :=
  match word with
  | '-' :: rest =>
    let rest := if rest.getLast? = some '\n' then rest.dropLast else rest
    let whole := rest.takeWhile Text.isDecimal
    match rest.drop whole.length with
    | [] => !whole.isEmpty
    | '.' :: fraction => !fraction.isEmpty && fraction.all Text.isDecimal
    | _ => false
  | _ => false

/-- Reads a word that is no flag as it stands; none if more than one flag starts like it. -/
def readShortened? (form : Form) (word : List Char) : Option Word :=
  let head := word.takeWhile (· ≠ '=')
  let value := if head.length < word.length then some (word.drop (head.length + 1)) else none
  let candidates :=
    if word.take 2 = ['-', '-'] then
      form.spellings.filter fun entry => head.isPrefixOf entry.1.toList
    else form.spellings.filter fun entry => entry.1.toList = word.take 2
  match candidates with
  | [(_, flag)] =>
    if word.take 2 = ['-', '-'] then
      match value with
      | some value => some (form.withValue flag false value)
      | none => some (.flags [] flag none)
    else some (form.joined [] flag (word.drop 2))
  | [] =>
    if isNegativeNumber word || word.contains ' ' then some (.operand (String.ofList word))
    else some .stray
  | _ => none

/-- Reads a word in front of the separator; none if it could be more than one flag. -/
def readWord? (form : Form) (word : List Char) : Option Word :=
  match word with
  | '-' :: _ :: _ =>
    let head := word.takeWhile (· ≠ '=')
    match form.flag? word, form.flag? head with
    | some flag, _ => some (.flags [] flag none)
    | none, some flag =>
      some (form.withValue flag (word.take 2 ≠ ['-', '-']) (word.drop (head.length + 1)))
    | none, none => form.readShortened? word
  | _ => some (.operand (String.ofList word))

/-- Reads the words of a command line; none if one of them could be more than one flag. -/
def readWords? (form : Form) : List String → Option (List Word)
  | [] => some []
  | word :: rest =>
    if word = "--" then some (.separator :: rest.map .operand)
    else
      (form.readWord? word.toList).bind fun first =>
        (form.readWords? rest).map (first :: ·)

end Form

/-! ## The whole line -/

/-- The arguments so far, whether something does not belong there, and whether the word before was an
    operand. -/
structure Reading where
  given : Given := {}
  hasStray : Bool := false
  behindOperand : Bool := false

namespace Reading

/-- Adds a flag with its value. -/
def addFlag (reading : Reading) (flag : Flag) (value : Option String) : Except Refusal Reading :=
  let value := value.filter (· ≠ "--")
  if flag = Flag.help then .error .help
  else if !flag.choices.isEmpty && !(value.map flag.choices.contains).getD true then .error .misuse
  else
    let flags := (flag.name, value) :: reading.given.flags
    .ok { reading with given := { reading.given with flags }, behindOperand := false }

/-- Adds flags without values, and then one that may have a value. -/
def addFlags (reading : Reading) (before : List Flag) (last : Flag) (value : Option String) :
    Except Refusal Reading := do
  let reading ← before.foldlM (fun reading flag => reading.addFlag flag none) reading
  reading.addFlag last value

/-- Passes a flag that does not exist. -/
def passStray (reading : Reading) : Reading :=
  { reading with hasStray := true, behindOperand := false }

/-- Adds an operand; a second one does not belong there. -/
def addOperand (reading : Reading) (text : String) : Reading :=
  if reading.given.operand.isSome then { reading with hasStray := true, behindOperand := true }
  else { reading with given := { reading.given with operand := some text }, behindOperand := true }

/-- Passes the separator, which belongs in front of the operand or directly behind it. -/
def passSeparator (reading : Reading) : Reading :=
  if reading.given.operand.isNone || reading.behindOperand then reading
  else { reading with hasStray := true }

/-- Reads the words of a command line one after the other. -/
def readAll (reading : Reading) : List Word → Except Refusal Reading
  | [] => .ok reading
  | .operand text :: rest => (reading.addOperand text).readAll rest
  | .separator :: rest => reading.passSeparator.readAll rest
  | .broken :: _ => .error .misuse
  | .stray :: rest => reading.passStray.readAll rest
  | .flags before flag (some value) :: rest =>
    (reading.addFlags before flag (some value)).bind fun reading => reading.readAll rest
  | .flags before flag none :: rest =>
    if flag.takesValue then
      match rest with
      | .operand value :: rest =>
        (reading.addFlags before flag (some value)).bind fun reading => reading.readAll rest
      | _ => .error .misuse
    else (reading.addFlags before flag none).bind fun reading => reading.readAll rest

end Reading

/-- Reads the arguments of a command. -/
def Form.read (form : Form) (words : List String) : Except Refusal Given :=
  match form.readWords? words with
  | none => .error .misuse
  | some words =>
    (({} : Reading).readAll words).bind fun reading =>
      if reading.hasStray || (form.needsOperand && reading.given.operand.isNone) then .error .misuse
      else .ok reading.given

end Marginalia.Command
