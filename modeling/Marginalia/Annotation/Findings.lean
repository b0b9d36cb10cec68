import Marginalia.Annotation.Record
import Marginalia.Comment.Span

/-!
# Annotations of a document

Everything that reading a document finds: its comments, the annotations in them, and the diagnostics
in the order of the document.  A documentation comment may have an annotation on each line, another
comment has at most one.
-/

namespace Marginalia

/-- What reading a document finds. -/
structure Findings where
  annotations : List Annotation
  comments : List Comment
  diagnostics : List Diagnostic
deriving Repr, DecidableEq

/-- Whether a text has a sigil at all. -/
def hasSigil (text : List Char) : Bool :=
  Text.occursIn sigil.toList text

/-- The texts of a comment that can each have one annotation: the lines of documentation, or the
    content as a whole; only those with a sigil. -/
def Comment.units (comment : Comment) : List Row :=
  let rows := match comment.kind with
    | .doc => comment.rows
    | _ => [⟨comment.contentStart, comment.content⟩]
  rows.filter fun row => hasSigil row.text

/-- What a text with a sigil turns out to be: an annotation, or a sigil without a namespace. -/
def Row.read (rules : ValueRules) (row : Row) : Except Diagnostic Annotation :=
  match Annotation.read? rules row.text row.start with
  | some note => .ok note
  | none =>
    let place : Int := row.start + ((Text.find? sigil.toList row.text).getD 0 : Nat)
    .error ⟨.missingNamespace, ⟨place, place + sigil.length⟩⟩

/-- What the comments of a document turn out to hold, in order. -/
def readComments (rules : ValueRules) (comments : List Comment) :
    List (Except Diagnostic Annotation) :=
  comments.flatMap fun comment => comment.units.map (Row.read rules)

/-- Reads a document in the language of the given name. -/
def Findings.ofText (rules : ValueRules) (languageName : String) (text : List Char) : Findings :=
  let comments := commentsIn languageName text
  let outcomes := readComments rules comments
  { comments
    annotations := outcomes.filterMap Except.toOption
    diagnostics := outcomes.flatMap fun outcome =>
      match outcome with
      | .ok note => note.diagnostics
      | .error diagnostic => [diagnostic] }

/-- Whether nothing was found that would be shown. -/
def Findings.isEmpty (findings : Findings) : Bool :=
  findings.annotations.isEmpty && findings.diagnostics.isEmpty

end Marginalia
