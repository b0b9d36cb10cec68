import Marginalia.Text.Range
import Marginalia.Text.Scan
import Marginalia.Variable.Builtin
import Marginalia.Variable.Identifier

/-!
# References to variables

`$NAME` and `$NAME.modifier` in a text refer to a variable.  Two dollar signs stand for one and begin
no reference: they are taken two at a time from the left.
-/

namespace Marginalia

/-- A reference in a text: how it is written, the name and the modifier, and where it stands. -/
structure Reference where
  raw : String
  name : String
  modifier : Option String
  range : Range
deriving Repr, DecidableEq

namespace Reference

/-- Whether the reference is to a built-in variable. -/
def isBuiltin (reference : Reference) : Bool :=
  (Builtin.ofName? reference.name).isSome

/-- The kind of variable that the name suggests. -/
def suggestedKind? (reference : Reference) : Option VariableKind :=
  VariableKind.suggestedBy? reference.name

/-- Whether a variable may have this name. -/
def isValid (reference : Reference) : Bool :=
  isValidName reference.name

end Reference

/-- What a dollar sign can begin: a dollar sign written twice, or a reference. -/
inductive DollarToken where
  | escaped
  | reference (name : List Char) (modifier : Option (List Char))
deriving Repr, DecidableEq

/-- The longest name in front of a text. -/
def readName? : List Char → Option (List Char)
  | [] => none
  | c :: rest => if isNameStart c then some (c :: rest.takeWhile isNameRest) else none

/-- The modifier that follows a name: a point and a name. -/
def readModifier? : List Char → Option (List Char)
  | '.' :: rest => readName? rest
  | _ => none

/-- Reads what a dollar sign in front of the text begins. -/
def readDollar : List Char → Option (Nat × DollarToken)
  | '$' :: '$' :: _ => some (2, .escaped)
  | '$' :: rest =>
    match readName? rest with
    | none => none
    | some name =>
      match readModifier? (rest.drop name.length) with
      | none => some (1 + name.length, .reference name none)
      | some modifier =>
        some (2 + name.length + modifier.length, .reference name (some modifier))
  | _ => none

/-- The text of a reference. -/
def spellReference (name : List Char) : Option (List Char) → List Char
  | none => '$' :: name
  | some modifier => '$' :: name ++ '.' :: modifier

/-- The reference that a token is, in a document where the text starts at `origin`. -/
def Reference.ofHit? (origin : Int) (hit : Text.Hit DollarToken) : Option Reference :=
  match hit.token with
  | .escaped => none
  | .reference name modifier =>
    some {
      raw := String.ofList (spellReference name modifier)
      name := String.ofList name
      modifier := modifier.map String.ofList
      range := ⟨origin + hit.start, origin + hit.stop⟩ }

/-- The references in a text, from left to right, in a document where the text starts at
    `origin`. -/
def referencesIn (text : List Char) (origin : Int := 0) : List Reference :=
  (Text.hits readDollar text).filterMap (Reference.ofHit? origin)

/-- The first reference that a cursor at the offset touches. -/
def referenceAt? (text : List Char) (offset : Int) : Option Reference :=
  (referencesIn text).find? fun reference => reference.range.touches offset

end Marginalia
