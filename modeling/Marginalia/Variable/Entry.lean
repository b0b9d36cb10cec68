import Marginalia.Data.Mismatch
import Marginalia.Data.Value
import Marginalia.Number.Shortest
import Marginalia.Variable.Identifier

/-!
# Declarations of variables

What a declaration says about a variable: its kind, its value as a text, and a description.  A
declaration is written as the value alone or as a table; numbers and truth values are kept as texts.
-/

namespace Marginalia

/-- The declaration of a variable. -/
structure Entry where
  kind : Option VariableKind := none
  value : String
  description : Option String := none
deriving Repr, DecidableEq

namespace Entry

/-- The text of a value that is a text, a number or a truth value. -/
def scalarText? : Value → Option String
  | .text content | .torn content => some content
  | .bool truth => some (if truth then "true" else "false")
  | .int number => some (toString number)
  | .float number => some number.text
  | _ => none

/-- Reads the kind that a declaration gives, if it gives one. -/
def readKind : Option Value → Except Mismatch (Option VariableKind)
  | none | some .null => .ok none
  | some (.text word) =>
    match VariableKind.ofWord? word with
    | some kind => .ok (some kind)
    | none => unexpected (.oneOf (VariableKind.all.map VariableKind.word))
  | some (.torn _) => unexpected .wholeCharacters
  | some _ => unexpected (.oneOf (VariableKind.all.map VariableKind.word))

/-- Reads the value that a declaration gives. -/
def readValue : Option Value → Except Mismatch String
  | none => unexpected .present
  | some value =>
    match scalarText? value with
    | some text => .ok text
    | none => unexpected .text

/-- Reads the description that a declaration gives, if it gives one. -/
def readDescription : Option Value → Except Mismatch (Option String)
  | none | some .null => .ok none
  | some (.text content) | some (.torn content) => .ok (some content)
  | some _ => unexpected .text

/-- Reads a declaration that is a table; other keys are passed over. -/
def ofTable (entries : List (String × Value)) : Except Mismatch Entry := do
  let kind ← behindKey "type" (readKind (entries.lookup "type"))
  let value ← behindKey "value" (readValue (entries.lookup "value"))
  let description ← behindKey "description" (readDescription (entries.lookup "description"))
  return { kind, value, description }

def ofValue (declared : Value) : Except Mismatch Entry :=
  match scalarText? declared with
  | some value => .ok { value }
  | none =>
    match declared with
    | .table entries => ofTable entries
    | _ => unexpected .declaration

/-- The kind of a variable of the given name: the declared one, or the one that the name suggests. -/
def kindFor (name : String) (entry : Entry) : VariableKind :=
  (entry.kind.or (VariableKind.suggestedBy? name)).getD .plain

end Entry

end Marginalia
