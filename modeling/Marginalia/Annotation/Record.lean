import Marginalia.Annotation.Diagnostic
import Marginalia.Annotation.Grammar
import Marginalia.Text.Search
import Marginalia.Variable.Reference

/-!
# Annotations

An annotation as it is kept, and its reading from the text of a comment.  Where a text does not fit
the grammar, the namespace alone is kept, so that an unfinished annotation is still noticed.
-/

namespace Marginalia

open Text (trim trimRight)

/-- An annotation: how it is written, its parts, its place in the document, the references in its
    value and what is wrong with it. -/
structure Annotation where
  raw : String
  space : String
  value : Option String := none
  description : Option String := none
  metadata : List String := []
  range : Range
  references : List Reference := []
  diagnostics : List Diagnostic := []
deriving Repr, DecidableEq

namespace Annotation

/-- The category of an annotation is that of its namespace. -/
def category (note : Annotation) : Category :=
  categoryOf note.space

/-- Whether one of the diagnostics is an error. -/
def hasErrors (note : Annotation) : Bool :=
  note.diagnostics.any Diagnostic.isError

end Annotation

/-! ## Values and metadata -/

/-- The text with a backslash removed in front of each quote and of each backslash. -/
def unescape : List Char → List Char
  | [] => []
  | ['\\'] => ['\\']
  | '\\' :: c :: rest =>
    if c = '"' || c = '\'' || c = '\\' then c :: unescape rest else '\\' :: unescape (c :: rest)
  | c :: rest => c :: unescape rest

/-- The text between a quote and the closing one, given the text behind the opening quote: the
    closing one stands at the end, or in front of a line end there. -/
def betweenQuotes? (quote : Char) (text : List Char) : Option (List Char) :=
  if text.getLast? = some quote then some text.dropLast
  else if text.getLast? = some '\n' ∧ text.dropLast.getLast? = some quote then
    some text.dropLast.dropLast
  else none

/-- The value that a written value stands for: one layer of quotes is taken off. -/
def unquote (written : List Char) : List Char :=
  match written with
  | quote :: rest =>
    if quote = '"' || quote = '\'' then
      match betweenQuotes? quote rest with
      | some body => unescape body
      | none => written
    else written
  | [] => []

/-- The items of metadata: the pieces between bars, trimmed, without the blank ones. -/
def metadataItems (written : List Char) : List String :=
  ((written.splitOn '|').map trim).filter (! ·.isEmpty) |>.map String.ofList

/-! ## Reading -/

/-- The annotation of the parts that the text behind the sigil was read as; the sigil stands at
    `place` in the document. -/
def Annotation.ofParts (rules : ValueRules) (text : List Char) (place : Int) (parts : Parts) :
    Annotation :=
  let raw := trimRight (sigil.toList ++ text)
  let space := String.ofList parts.space
  let value := parts.value.map fun written => String.ofList (unquote (trim written))
  let range : Range := ⟨place, place + raw.length⟩
  { raw := String.ofList raw
    space, value, range
    description := parts.description.map fun written => String.ofList (trim written)
    metadata := metadataItems (parts.metadata.getD [])
    references := match parts.value with
      | some written => referencesIn written (place + sigil.length + parts.valuePlace)
      | none => []
    diagnostics := (rules.flaws space value).map (⟨·, range⟩) }

/-- The annotation of a namespace alone. -/
def Annotation.ofNamespace (rules : ValueRules) (space : List Char) (place : Int) : Annotation :=
  let raw := sigil.toList ++ space
  let range : Range := ⟨place, place + raw.length⟩
  { raw := String.ofList raw
    space := String.ofList space
    range
    diagnostics := (rules.flaws (String.ofList space) none).map (⟨·, range⟩) }

/-- Reads the annotation of the text behind a sigil that stands at `place`. -/
def Annotation.readBehind? (rules : ValueRules) (text : List Char) (place : Int) :
    Option Annotation :=
  match Parts.read? text with
  | some parts => some (.ofParts rules text place parts)
  | none => (readNamespace? text).map fun space => .ofNamespace rules space place

/-- Reads the first annotation of a text whose first character stands at `origin`; none if the text
    has no sigil or no namespace follows it. -/
def Annotation.read? (rules : ValueRules) (text : List Char) (origin : Int) : Option Annotation :=
  (Text.find? sigil.toList text).bind fun place =>
    Annotation.readBehind? rules (text.drop (place + sigil.length)) (origin + place)

end Marginalia
