import Marginalia.Annotation.Record

/-!
# Written annotations

The texts of annotations: the parts of an annotation, in a form that the grammar has room for, and the
text that they are written as.  Every text can be a value, since quotes and backslashes in it are
escaped between quotes.
-/

namespace Marginalia

open Text (trim)

/-! ## Values -/

/-- Whether a character is escaped between quotes. -/
def isEscaped (c : Char) : Bool :=
  c = '"' || c = '\'' || c = '\\'

/-- The text with a backslash in front of each quote and of each backslash. -/
def escape (text : List Char) : List Char :=
  text.flatMap fun c => if isEscaped c then ['\\', c] else [c]

/-- A value and the way it is written. -/
inductive ValueLayout where
  /-- Any text, between quotes. -/
  | quoted (quote : Char) (isQuote : quote = '"' ∨ quote = '\'') (value : String)
  /-- A text without blanks at its ends and without a closing parenthesis, that begins with no
      quote. -/
  | bare (value : String) (trimmed : trim value.toList = value.toList)
      (unclosed : ')' ∉ value.toList)
      (unquoted : value.toList.head? ≠ some '"' ∧ value.toList.head? ≠ some '\'')

namespace ValueLayout

def value : ValueLayout → String
  | .quoted _ _ value => value
  | .bare value .. => value

def written : ValueLayout → List Char
  | .quoted quote _ value => quote :: escape value.toList ++ [quote]
  | .bare value .. => value.toList

end ValueLayout

/-! ## Annotations -/

/-- A namespace of the grammar: a letter, and then letters, digits and dashes. -/
def IsNamespace : List Char → Prop
  | [] => False
  | c :: rest => c.isAlpha = true ∧ ∀ other ∈ rest, isNamespaceRest other = true

/-- A text that can stand between bars: not empty, without blanks at its ends and without a bar. -/
structure IsItem (text : List Char) : Prop where
  nonempty : text ≠ []
  trimmed : trim text = text
  unbarred : '|' ∉ text

/-- The parts of an annotation that can be written. -/
structure Layout where
  space : String
  value : Option ValueLayout
  description : Option String
  metadata : List String
  isNamespace : IsNamespace space.toList
  descriptionIsItem : ∀ text, description = some text → IsItem text.toList
  metadataAreItems : ∀ item ∈ metadata, IsItem item.toList
  metadataOnOneLine : ∀ item ∈ metadata, '\n' ∉ item.toList

/-- A value that may be absent, in parentheses. -/
def writeValue : Option ValueLayout → List Char
  | none => []
  | some value => '(' :: value.written ++ [')']

/-- A description that may be absent, behind a dash. -/
def writeDescription : Option String → List Char
  | none => []
  | some text => ' ' :: '-' :: ' ' :: text.toList

/-- Metadata, each item behind a bar. -/
def writeMetadata : List String → List Char
  | [] => []
  | item :: rest => ' ' :: '|' :: ' ' :: item.toList ++ writeMetadata rest

namespace Layout

def behind (layout : Layout) : List Char :=
  layout.space.toList ++
    (writeValue layout.value ++ (writeDescription layout.description ++ writeMetadata layout.metadata))

def text (layout : Layout) : List Char :=
  sigil.toList ++ layout.behind

end Layout

end Marginalia
