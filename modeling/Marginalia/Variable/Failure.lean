import Marginalia.Report.Notice
import Marginalia.Variable.Identifier

/-!
# Failures of resolution

Why a reference cannot be resolved.  Except for names and modifiers that no variable has, a failure
comes with its chain: the names from the first reference to the one that fails.
-/

namespace Marginalia

/-- Why a reference cannot be resolved. -/
inductive Failure where
  /-- No variable can have the name. -/
  | invalidName (name : String)
  /-- There is no such modifier. -/
  | invalidModifier (word : String)
  /-- The last name of the chain is among those before it. -/
  | circular (chain : List String)
  /-- More names are open than the limit allows. -/
  | tooDeep (limit : Int) (chain : List String)
  /-- The variable is neither built in nor declared. -/
  | undefined (name : String) (chain : List String)
deriving Repr, DecidableEq

namespace Failure

def word : Failure → String
  | .invalidName _ | .invalidModifier _ => "invalid"
  | .circular _ => "circular"
  | .tooDeep .. => "depth"
  | .undefined .. => "undefined"

/-- The names from the first reference to the one that fails. -/
def chain : Failure → List String
  | .invalidName _ | .invalidModifier _ => []
  | .circular chain | .tooDeep _ chain | .undefined _ chain => chain

/-- Names with arrows between them. -/
def arrows (names : List String) : String :=
  " -> ".intercalate names

def message : Failure → String
  | .invalidName name => s!"Invalid variable name '{name}'. Names must match {Notice.nameRule}"
  | .invalidModifier word =>
    s!"Invalid modifier '{word}'. Valid modifiers: " ++
      ", ".intercalate (Modifier.all.map Modifier.word)
  | .circular chain => "Circular reference detected: " ++ arrows chain
  | .tooDeep limit _ => s!"Maximum variable nesting depth ({limit}) exceeded"
  | .undefined name _ =>
    s!"Undefined variable: '{name}'. Define it in .acp.vars.json or use a built-in variable."

/-- What stands in a text where a reference cannot be resolved. -/
def marker (failure : Failure) : String :=
  s!"[ERROR: {failure.message}]"

end Failure

end Marginalia
