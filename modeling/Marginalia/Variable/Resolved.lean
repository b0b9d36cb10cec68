import Marginalia.Data.Json.Printer
import Marginalia.Variable.Builtin
import Marginalia.Variable.Identifier

/-!
# Resolved variables

A variable whose value is known, and its renderings: the value itself, a table of everything known
about it, a short reference to it, or a signature.
-/

namespace Marginalia

/-- Where a variable comes from. -/
inductive Origin where
  | builtin
  /-- The sheet that declares it, and the line of its name there; zero if that is not found. -/
  | sheet (name : String) (line : Nat)
deriving Repr, DecidableEq

def Origin.word : Origin → String
  | .builtin => "built-in"
  | .sheet name _ => name

/-- The line of a declaration; zero where there is none. -/
def Origin.line : Origin → Nat
  | .builtin => 0
  | .sheet _ line => line

/-- A variable whose value is known. -/
structure Variable where
  name : String
  kind : VariableKind
  value : String
  description : Option String
  origin : Origin
deriving Repr, DecidableEq

/-- A text that is there and not empty. -/
def nonempty? (text : Option String) : Option String :=
  text.filter (! ·.isEmpty)

/-- The short reference to a variable of the given name, kind and value. -/
def referenceTo (name : String) (kind : VariableKind) (value : String) : String :=
  match kind with
  | .symbol => if "SYM_".toList.isPrefixOf name.toList then s!"${name}" else s!"$SYM_{name}"
  | .file => value
  | .domain => s!"@domain:{value}"
  | .plain => s!"${name}"

namespace Variable

/-- What a variable is in one line: its description, or its value where it has none. -/
def summary (found : Variable) : String :=
  (nonempty? found.description).getD found.value

/-- The short reference to the variable. -/
def reference (found : Variable) : String :=
  referenceTo found.name found.kind found.value

/-- The signature of a symbol. -/
def signature (found : Variable) : Option String :=
  if found.kind = .symbol then some found.value else none

/-- Everything known about the variable, by key. -/
def members (found : Variable) : List (String × String) :=
  match found.origin with
  | .builtin =>
    [("type", "builtin"), ("name", found.name), ("value", found.value),
      ("description", found.description.getD "")]
  | .sheet .. =>
    [("name", found.name), ("type", found.kind.word), ("value", found.value)] ++
      ((nonempty? found.description).map ("description", ·)).toList

/-- Everything known about the variable, as a table. -/
def full (found : Variable) : Value :=
  .table (found.members.map fun (key, text) => (key, .text text))

/-- A variable as a modifier asks for it; its value without a modifier. -/
def render (found : Variable) : Option Modifier → String
  | none => found.value
  | some .full => Json.write found.full
  | some .ref => found.reference
  | some .signature => (nonempty? found.signature).getD found.summary

/-- The variable that a built-in one is at a place; where its value is not known there, its sample
    stands in. -/
def ofBuiltin (builtin : Builtin) (place : Option Surroundings) : Variable :=
  { name := builtin.name
    kind := .plain
    value := (place.bind fun known => known.valueOf builtin).getD builtin.sample
    description := some builtin.description
    origin := .builtin }

end Variable

end Marginalia
