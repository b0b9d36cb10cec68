import Marginalia.Annotation.Namespace
import Marginalia.Text.Range

/-!
# Diagnostics

What can be wrong with an annotation, how severe it is, and the rules by which a namespace and its
value are judged.
-/

namespace Marginalia

inductive Severity where
  | error
  | warning
deriving Repr, DecidableEq

/-- The number of a severity, as editors number them. -/
def Severity.rank : Severity → Nat
  | .error => 1
  | .warning => 2

def Severity.word : Severity → String
  | .error => "ERROR"
  | .warning => "WARNING"

/-- The sign in front of every annotation. -/
def sigil : String := "@acp:"

/-- What is wrong with an annotation. -/
inductive Flaw where
  /-- The namespace is in no category. -/
  | unknownNamespace (space : String)
  /-- The value of a lock is no level. -/
  | invalidLockLevel (level : String)
  /-- A value is required and there is none. -/
  | missingValue (space : String)
  /-- No namespace follows the sigil. -/
  | missingNamespace
  /-- A reference in the value cannot be resolved, for the given reason. -/
  | unresolved (reason : String)
deriving Repr, DecidableEq

namespace Flaw

def code : Flaw → String
  | .unknownNamespace _ => "acp-unknown-namespace"
  | .invalidLockLevel _ => "acp-invalid-lock-level"
  | .missingValue _ => "acp-missing-value"
  | .missingNamespace => "acp-invalid-syntax"
  | .unresolved _ => "acp-unresolved-variable"

def severity : Flaw → Severity
  | .invalidLockLevel _ | .missingValue _ => .error
  | .unknownNamespace _ | .missingNamespace | .unresolved _ => .warning

def message : Flaw → String
  | .unknownNamespace space => s!"Unknown namespace '{space}'"
  | .invalidLockLevel level =>
    s!"Invalid lock level '{level}'. Valid levels: " ++ ", ".intercalate lockLevels
  | .missingValue space => s!"Annotation {sigil}{space} requires a value"
  | .missingNamespace => s!"Expected a namespace after '{sigil}'"
  | .unresolved reason => reason

end Flaw

/-- A flaw at a place of a document. -/
structure Diagnostic where
  flaw : Flaw
  range : Range
deriving Repr, DecidableEq

/-- Whether the diagnostic is an error. -/
def Diagnostic.isError (diagnostic : Diagnostic) : Bool :=
  diagnostic.flaw.severity = .error

/-- The rules for values: the namespaces that may go without one, besides those that always may. -/
structure ValueRules where
  alsoOptional : List String := []
deriving Repr, DecidableEq

namespace ValueRules

/-- Whether a namespace may go without a value. -/
def isOptional (rules : ValueRules) (space : String) : Bool :=
  valueOptional.contains space || rules.alsoOptional.contains space

/-- The flaws of a namespace and a value that may be absent, apart from a missing value. -/
def judge (space : String) (value : Option String) : List Flaw :=
  (if (classify space).isNone then [.unknownNamespace space] else []) ++
    match value with
    | some level =>
      if space = "lock" && !isLockLevel level then [.invalidLockLevel level] else []
    | none => []

/-- All flaws of a namespace and a value that may be absent. -/
def flaws (rules : ValueRules) (space : String) (value : Option String) : List Flaw :=
  judge space value ++
    if value.isNone && !rules.isOptional space then [.missingValue space] else []

end ValueRules

end Marginalia
