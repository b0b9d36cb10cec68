import Marginalia.Data.Json.Reader
import Marginalia.Data.Mismatch
import Marginalia.Document.Disk
import Marginalia.Uri

/-!
# Faults

What keeps a request from being answered.  Flaws of documents are no faults: they are reported and
passed over.
-/

namespace Marginalia

/-- What is done with a value and only fits some kinds of values. -/
inductive ValueUse where
  /-- It is taken for the path of a directory. -/
  | directory
  /-- Parts of it are replaced. -/
  | replacement
  /-- It is matched with a pattern. -/
  | matching
  /-- It is looked up. -/
  | lookup
deriving Repr, DecidableEq

/-- The wording for a value of a kind that does not fit what is done with it. -/
def ValueUse.message (kind : String) : ValueUse → String
  | .directory => s!"'{kind}' object has no attribute 'is_dir'"
  | .replacement => s!"'{kind}' object has no attribute 'replace'"
  | .matching => s!"expected string or bytes-like object, got '{kind}'"
  | .lookup => s!"unhashable type: '{kind}'"

/-- Why a request has no answer. -/
inductive Fault where
  /-- A URI has a host that is none. -/
  | host (flaw : HostFlaw)
  /-- An integer has too many digits to be read. -/
  | longInteger (digits : Nat)
  /-- An integer has too many digits to be written. -/
  | vastInteger
  /-- Values are nested too deep, in JSON a container of some kind. -/
  | tooDeep (container : Option Json.Container)
  /-- A value is not what is expected. -/
  | mismatch (found : Mismatch)
  | file (flaw : FileFlaw)
  /-- A path holds the character with code zero. -/
  | nulInPath
  /-- A pattern for paths has two stars beside other characters. -/
  | starsInName
  | unknownPrecedence (word : String)
  | unknownKind (word : String)
  /-- A value is of a kind that does not fit what is done with it. -/
  | misfit (use : ValueUse) (kind : String)
  /-- A name is taken off a trail that does not end with it. -/
  | trailOutOfOrder (name : String) (trail : List String)
  /-- There is no room on the stack for one more open name. -/
  | stackFull
deriving Repr, DecidableEq

/-- What is said of an integer with too many digits. -/
def digitLimitText : String :=
  s!"Exceeds the limit ({Json.digitLimit} digits) for integer string conversion"

/-- What is said of how to have longer integers. -/
def digitLimitAdvice : String :=
  "; use sys.set_int_max_str_digits() to increase the limit"

def Fault.message : Fault → String
  | .host flaw => flaw.message
  | .longInteger digits => digitLimitText ++ s!": value has {digits} digits" ++ digitLimitAdvice
  | .vastInteger => digitLimitText ++ digitLimitAdvice
  | .tooDeep none => Stack.fullText
  | .tooDeep (some container) =>
    Stack.fullText ++ s!" while decoding a JSON {container.word} from a unicode string"
  | .mismatch found => found.message
  | .file flaw => flaw.message
  | .nulInPath => "embedded null byte"
  | .starsInName => "Invalid pattern: '**' can only be an entire path component"
  | .unknownPrecedence word => s!"{Text.display word} is not a valid DuplicatePolicy"
  | .unknownKind word => s!"{Text.display word} is not a valid VariableType"
  | .misfit use kind => use.message kind
  | .trailOutOfOrder name trail =>
    s!"Expansion stack out of order: expected '{name}' on top of {Text.displayList trail}"
  | .stackFull => Stack.fullText ++ " while calling a Python object"

end Marginalia
