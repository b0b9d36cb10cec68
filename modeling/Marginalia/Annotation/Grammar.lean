import Marginalia.Text.Blank

/-!
# The grammar of annotations

What follows the sigil: a namespace, a value in parentheses, a description behind a dash and metadata
behind bars, each of the last three optional.

    namespace ( value ) - description | metadata | metadata

The whole text has to fit.  Blanks may stand between the parts.  Where more than one reading fits, the
first of these wins: the longest namespace, a value over none, a quoted value over a bare one, a
description over none, and the shortest description that leaves a fitting rest.  So a namespace gives
way only to a description whose dash stands inside the longest namespace.
-/

namespace Marginalia

open Text (trimLeft trimRight allBlank indent)

/-- A character that a namespace can go on with. -/
def isNamespaceRest (c : Char) : Bool :=
  c.isAlphanum || c = '-'

/-- The longest namespace in front of a text. -/
def readNamespace? : List Char → Option (List Char)
  | [] => none
  | c :: rest => if c.isAlpha then some (c :: rest.takeWhile isNamespaceRest) else none

/-- The parts of an annotation as they are written: `valuePlace` counts the characters between the
    sigil and the value. -/
structure Parts where
  space : List Char
  value : Option (List Char)
  valuePlace : Nat
  description : Option (List Char)
  metadata : Option (List Char)
deriving Repr, DecidableEq

/-! ## Metadata -/

/-- Reads metadata up to the end of the text: a bar, at least one character more on its line, and
    blank lines behind. -/
def readMetadata? : List Char → Option (List Char)
  | '|' :: rest =>
    let line := rest.takeWhile (· ≠ '\n')
    if !line.isEmpty && allBlank (rest.dropWhile (· ≠ '\n')) then some line else none
  | _ => none

/-- Reads the end of an annotation without a description: metadata behind blanks, or blanks alone. -/
def readEnd? (text : List Char) : Option (Option (List Char)) :=
  match readMetadata? (trimLeft text) with
  | some metadata => some (some metadata)
  | none => if allBlank text then some none else none

/-! ## Description -/

/-- Where a description starts behind its dash: at the first character that is not blank, or at the
    last blank where nothing or a bar follows the blanks. -/
def descriptionText? (text : List Char) : Option (List Char) :=
  let blanks := indent text
  match text.drop blanks with
  | c :: rest =>
    if c ≠ '|' then some (c :: rest)
    else if 0 < blanks then some (text.drop (blanks - 1))
    else none
  | [] => if 0 < blanks then some (text.drop (blanks - 1)) else none

/-- A description without the blanks at its end, except that its first character stays. -/
def closeDescription : List Char → List Char
  | [] => []
  | c :: rest => c :: trimRight rest

/-- Reads a description and the metadata behind it, up to the end of the text. -/
def readDescription? (text : List Char) : Option (List Char × Option (List Char)) :=
  match trimLeft text with
  | '-' :: rest =>
    (descriptionText? rest).bind fun body =>
      let description := closeDescription (body.takeWhile (· ≠ '|'))
      match body.dropWhile (· ≠ '|') with
      | [] => some (description, none)
      | bar => (readMetadata? bar).map fun metadata => (description, some metadata)
  | _ => none

/-- Reads what follows the value or, where there is none, the namespace. -/
def readRest? (text : List Char) : Option (Option (List Char) × Option (List Char)) :=
  match readDescription? text with
  | some (description, metadata) => some (some description, metadata)
  | none => (readEnd? text).map fun metadata => (none, metadata)

/-! ## Value -/

/-- The length of a quoted value behind its opening quote, up to and with the closing one.  A
    backslash takes the next character with it, unless that ends the line. -/
def quotedLength? (quote : Char) : List Char → Option Nat
  | [] => none
  | '\\' :: [] => none
  | '\\' :: c :: rest => if c = '\n' then none else (quotedLength? quote rest).map (· + 2)
  | c :: rest => if c = quote then some 1 else (quotedLength? quote rest).map (· + 1)

/-- A value as it is written, how many blanks stand in front of it, and the text behind the closing
    parenthesis. -/
structure WrittenValue where
  blanks : Nat
  value : List Char
  rest : List Char

/-- Reads a quoted value, given the text behind the opening parenthesis. -/
def readQuoted? (text : List Char) : Option WrittenValue :=
  match trimLeft text with
  | quote :: body =>
    if quote = '"' || quote = '\'' then
      (quotedLength? quote body).bind fun length =>
        match trimLeft (body.drop length) with
        | ')' :: rest => some ⟨indent text, quote :: body.take length, rest⟩
        | _ => none
    else none
  | [] => none

/-- Reads a bare value, given the text behind the opening parenthesis: up to the first closing
    parenthesis. -/
def readBare? (text : List Char) : Option WrittenValue :=
  let body := trimLeft text
  match body.dropWhile (· ≠ ')') with
  | ')' :: rest => some ⟨indent text, trimRight (body.takeWhile (· ≠ ')')), rest⟩
  | _ => none

/-! ## The whole annotation -/

/-- Reads an annotation with a value, whose opening parenthesis follows the namespace `space`. -/
def readWithValue? (space text : List Char) : Option Parts :=
  match trimLeft text with
  | '(' :: body =>
    [readQuoted?, readBare?].findSome? fun read =>
      (read body).bind fun written =>
        (readRest? written.rest).map fun (description, metadata) =>
          { space, value := some written.value
            valuePlace := space.length + indent text + 1 + written.blanks
            description, metadata }
  | _ => none

/-- Reads an annotation without a value, given what follows the namespace `space`. -/
def readWithoutValue? (space text : List Char) : Option Parts :=
  (readRest? text).map fun (description, metadata) =>
    { space, value := none, valuePlace := 0, description, metadata }

/-- The places of the dashes inside a namespace, the last one first. -/
def dashes (space : List Char) : List Nat :=
  ((List.range space.length).filter fun place => space[place]? = some '-').reverse

/-- Reads an annotation whose namespace ends in front of a dash of the longest namespace. -/
def readShortened? (space text : List Char) : Option Parts :=
  (dashes space).findSome? fun place =>
    (readDescription? (space.drop place ++ text)).map fun (description, metadata) =>
      { space := space.take place, value := none, valuePlace := 0
        description := some description, metadata }

/-- The parts of the annotation that the whole text behind a sigil is. -/
def Parts.read? (text : List Char) : Option Parts :=
  (readNamespace? text).bind fun space =>
    let rest := text.drop space.length
    readWithValue? space rest <|> readWithoutValue? space rest <|> readShortened? space rest

end Marginalia
