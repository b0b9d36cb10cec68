import Marginalia.Language
import Marginalia.Text.Scan
import Marginalia.Text.Search

/-!
# Comment tokens

What can stand at a place of a source text as far as comments are concerned: a comment of one of the
forms of the language, or a literal, whose text is passed over.  A comment that needs a closing mark
and has none is no comment.
-/

namespace Marginalia

open Text (before? lines)

/-- A comment as it is written, less its marks, or a literal. -/
inductive CommentToken where
  | doc (body : List Char)
  | block (body : List Char)
  /-- Lines of documentation, each with its mark and the blanks in front of it. -/
  | docLines (rows : List (List Char))
  | line (body : List Char)
  | literal
deriving Repr, DecidableEq

/-- The length of a literal with backslash escapes behind its opening quote, up to and with the
    closing one. -/
def literalLength? (quote : Char) (manyLines : Bool) : List Char → Option Nat
  | [] => none
  | '\\' :: [] => none
  | '\\' :: _ :: rest => (literalLength? quote manyLines rest).map (· + 2)
  | c :: rest =>
    if c = quote then some 1
    else if c = '\n' && !manyLines then none
    else (literalLength? quote manyLines rest).map (· + 1)

/-- The length of a character literal behind its opening quote. -/
def characterLength? : List Char → Option Nat
  | '\\' :: _ :: '\'' :: _ => some 3
  | c :: '\'' :: _ => if c = '\'' || c = '\\' || c = '\n' then none else some 2
  | _ => none

/-- The length of the literal in front of a text. -/
def LiteralForm.read? (form : LiteralForm) : List Char → Option Nat
  | [] => none
  | c :: rest =>
    match form with
    | .doubleQuoted => if c = '"' then (literalLength? '"' false rest).map (· + 1) else none
    | .singleQuoted => if c = '\'' then (literalLength? '\'' false rest).map (· + 1) else none
    | .character => if c = '\'' then (characterLength? rest).map (· + 1) else none
    | .template => if c = '`' then (literalLength? '`' true rest).map (· + 1) else none
    | .rawString => if c = '`' then (Text.find? ['`'] rest).map (· + 2) else none

/-- The body of the closed comment in front of a text. -/
def Delimiters.read? (marks : Delimiters) (text : List Char) : Option (List Char) :=
  if marks.opener.toList.isPrefixOf text then
    before? marks.closer.toList (text.drop marks.opener.length)
  else none

/-- How many characters a closed comment with this body has. -/
def Delimiters.extent (marks : Delimiters) (body : List Char) : Nat :=
  marks.opener.length + body.length + marks.closer.length

/-- Whether the opener of a documentation comment is also an opener and the first character of a
    closer of a block comment that is empty, as in `/**/`. -/
def CommentStyle.isEmptyBlock (style : CommentStyle) (marks : Delimiters) (text : List Char) :
    Bool :=
  style.block.opener.toList.isPrefixOf marks.opener.toList && marks.closer = style.block.closer &&
    (text.drop marks.opener.length).head? == marks.closer.toList.getLast?

def CommentStyle.readDoc? (style : CommentStyle) (text : List Char) :
    Option (Nat × CommentToken) :=
  style.doc.bind fun marks =>
    if style.isEmptyBlock marks text then none
    else (marks.read? text).map fun body => (marks.extent body, .doc body)

def CommentStyle.readBlock? (style : CommentStyle) (text : List Char) :
    Option (Nat × CommentToken) :=
  (style.block.read? text).map fun body => (style.block.extent body, .block body)

/-- Whether a text goes on with line documentation: its mark stands behind spaces and tabs only. -/
def continuesDoc (mark : List Char) (text : List Char) : Bool :=
  mark.isPrefixOf (text.dropWhile fun c => c = ' ' || c = '\t')

/-- How many characters line documentation has: those in front of the first line end behind which it
    does not go on. -/
def docLength (mark : List Char) : List Char → Nat
  | [] => 0
  | c :: rest => if c = '\n' && !continuesDoc mark rest then 0 else docLength mark rest + 1

/-- Reads line documentation: the line in front of the text and the lines that go on with it. -/
def CommentStyle.readDocLines? (style : CommentStyle) (text : List Char) :
    Option (Nat × CommentToken) :=
  style.lineDoc.bind fun mark =>
    if mark.toList.isPrefixOf text then
      let length := docLength mark.toList text
      some (length, .docLines (lines (text.take length)))
    else none

def CommentStyle.readLine? (style : CommentStyle) (text : List Char) :
    Option (Nat × CommentToken) :=
  if style.line.toList.isPrefixOf text then
    let body := (text.drop style.line.length).takeWhile (· ≠ '\n')
    some (style.line.length + body.length, .line body)
  else none

/-- Reads a literal of one of the forms of the language. -/
def CommentStyle.readLiteral? (style : CommentStyle) (text : List Char) :
    Option (Nat × CommentToken) :=
  (style.literals.findSome? fun form => form.read? text).map (·, .literal)

/-- Reads the comment or literal in front of a text.  Of the forms that could start here the first
    wins: documentation, a block, line documentation, a line, a literal. -/
def CommentStyle.read (style : CommentStyle) (text : List Char) : Option (Nat × CommentToken) :=
  style.readDoc? text <|> style.readBlock? text <|> style.readDocLines? text <|>
    style.readLine? text <|> style.readLiteral? text

end Marginalia
