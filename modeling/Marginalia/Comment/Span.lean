import Marginalia.Comment.Token
import Marginalia.Text.Blank
import Marginalia.Text.Range

/-!
# Comments

The comments of a source text.  Each is kept as rows: the lines of its content without the marks and
decoration, together with the offset in the document at which each of them starts.  So every row is a
piece of the document, and what is found in a row has a place there.
-/

namespace Marginalia

open Text (trim trimLeft trimRight allBlank indent lines isBlank)

/-- The forms of comments. -/
inductive CommentKind where
  | line
  | block
  | doc
deriving Repr, DecidableEq

def CommentKind.word : CommentKind → String
  | .line => "line"
  | .block => "block"
  | .doc => "doc"

/-- A line of a comment: the offset of its first character and its text. -/
structure Row where
  start : Nat
  text : List Char
deriving Repr, DecidableEq

/-- A comment: its form, where it starts and stops with its marks, and its rows. -/
structure Comment where
  kind : CommentKind
  start : Nat
  stop : Nat
  rows : List Row
deriving Repr, DecidableEq

namespace Comment

/-- The content of a comment: its rows with line ends between them. -/
def content (comment : Comment) : List Char :=
  ['\n'].intercalate (comment.rows.map Row.text)

/-- The offset of the first character of the content. -/
def contentStart (comment : Comment) : Nat :=
  (comment.rows.head?.map Row.start).getD comment.start

/-- The span of the document that the comment covers with its marks. -/
def range (comment : Comment) : Range :=
  ⟨comment.start, comment.stop⟩

end Comment

/-- The rows of text that stands unbroken in the document from an offset on. -/
def rowsFrom : (start : Nat) → List (List Char) → List Row
  | _, [] => []
  | start, row :: more => ⟨start, row⟩ :: rowsFrom (start + row.length + 1) more

/-- A row without the blanks at its ends. -/
def Row.trim (row : Row) : Row :=
  ⟨row.start + indent row.text, Text.trim row.text⟩

/-- A row without the blanks in front. -/
def Row.trimLeft (row : Row) : Row :=
  ⟨row.start + indent row.text, Text.trimLeft row.text⟩

/-- A row without its first characters. -/
def Row.drop (count : Nat) (row : Row) : Row :=
  ⟨row.start + count, row.text.drop count⟩

/-- How many characters the decoration in front of a line of documentation has: blanks, a star and
    at most one blank more. -/
def decoration (row : List Char) : Nat :=
  match row.dropWhile isBlank with
  | '*' :: rest => indent row + 1 + (rest.take 1).countP isBlank
  | _ => 0

/-- A row of a documentation comment, without decoration and without blanks at the end. -/
def Row.undecorate (row : Row) : Row :=
  let bare := row.drop (decoration row.text)
  ⟨bare.start, trimRight bare.text⟩

/-- A row of line documentation without its mark and without blanks at its ends. -/
def Row.unmark (mark : List Char) (row : Row) : Row :=
  (row.drop ((Text.find? mark row.text).getD 0 + mark.length)).trim

/-- Rows without the blank ones at either end, and without the blanks in front of the first.  Where
    all are blank, an empty row at the end of the comment remains. -/
def tidyRows (stop : Nat) (rows : List Row) : List Row :=
  let isEmpty := fun row : Row => allBlank row.text
  match ((rows.dropWhile isEmpty).reverse.dropWhile isEmpty).reverse with
  | [] => [⟨stop, []⟩]
  | first :: more => first.trimLeft :: more

namespace Comment

/-- A comment whose content is one piece of the document, without the blanks at its ends. -/
def ofPiece (kind : CommentKind) (start stop bodyStart : Nat) (body : List Char) : Comment :=
  ⟨kind, start, stop, rowsFrom (bodyStart + indent body) (lines (trim body))⟩

/-- A documentation comment of the given rows. -/
def ofRows (start stop : Nat) (rows : List Row) : Comment :=
  ⟨.doc, start, stop, tidyRows stop rows⟩

/-- The comment that a token is; none for a literal. -/
def ofHit? (style : CommentStyle) (hit : Text.Hit CommentToken) : Option Comment :=
  match hit.token with
  | .doc body =>
    let bodyStart := hit.start + ((style.doc.map fun marks => marks.opener.length).getD 0)
    some (ofRows hit.start hit.stop ((rowsFrom bodyStart (lines body)).map Row.undecorate))
  | .block body =>
    some (ofPiece .block hit.start hit.stop (hit.start + style.block.opener.length) body)
  | .docLines rows =>
    let mark := (style.lineDoc.getD "").toList
    some (ofRows hit.start hit.stop ((rowsFrom hit.start rows).map (Row.unmark mark)))
  | .line body =>
    some (ofPiece .line hit.start hit.stop (hit.start + style.line.length) body)
  | .literal => none

end Comment

/-- The comments of a text in a style, from left to right. -/
def CommentStyle.comments (style : CommentStyle) (text : List Char) : List Comment :=
  (Text.hits style.read text).filterMap (Comment.ofHit? style)

/-- The comments of a text in the language of the given name; none in an unknown language. -/
def commentsIn (languageName : String) (text : List Char) : List Comment :=
  match Language.ofName? languageName with
  | none => []
  | some language => language.style.comments text

end Marginalia
