/-!
# Namespaces of annotations

The namespace of an annotation says what it is about.  The known namespaces form four categories;
some of them may be used without a value.  The levels of a lock are ordered from the most to the
least restrictive.
-/

namespace Marginalia

/-- What an annotation is about. -/
inductive Category where
  | fileLevel
  | symbolLevel
  | constraint
  | inlineNote
deriving Repr, DecidableEq, Inhabited

namespace Category

def all : List Category := [.fileLevel, .symbolLevel, .constraint, .inlineNote]

def word : Category → String
  | .fileLevel => "file-level"
  | .symbolLevel => "symbol-level"
  | .constraint => "constraint"
  | .inlineNote => "inline"

def members : Category → List String
  | .fileLevel => ["purpose", "module", "domain", "owner", "layer", "stability", "ref"]
  | .symbolLevel =>
    ["fn", "class", "method", "param", "returns", "throws", "example", "deprecated"]
  | .constraint => ["lock", "lock-reason", "style", "behavior", "quality", "test"]
  | .inlineNote => ["critical", "todo", "fixme", "perf", "hack", "debug"]

end Category

/-- The category of a known namespace. -/
def classify (space : String) : Option Category :=
  Category.all.find? fun category => category.members.contains space

/-- The category under which an annotation is kept: an unknown namespace counts as symbol-level. -/
def categoryOf (space : String) : Category :=
  (classify space).getD .symbolLevel

/-- The namespaces that may always be used without a value. -/
def valueOptional : List String :=
  ["deprecated", "todo", "fixme", "hack", "debug", "critical", "perf"]

/-- The levels of a lock, from the most to the least restrictive. -/
def lockLevels : List String :=
  ["frozen", "restricted", "approval-required", "tests-required", "docs-required",
    "review-required", "normal", "experimental"]

/-- Whether a lock can have this level. -/
def isLockLevel (level : String) : Bool :=
  lockLevels.contains level

/-- The place of a level in the order of levels, zero for the most restrictive. -/
def lockRank? (level : String) : Option Nat :=
  lockLevels.idxOf? level

end Marginalia
