/-!
# Mismatches

Where a value of a data file is not what is expected there, and what was expected.
-/

namespace Marginalia

/-- What is expected of a value. -/
inductive Expectation where
  /-- It has to be there. -/
  | present
  /-- No value has this key. -/
  | absent
  | text
  /-- A text of whole characters. -/
  | wholeCharacters
  | list
  /-- The declaration of a variable. -/
  | declaration
  /-- One of some words. -/
  | oneOf (words : List String)
  | atLeast (bound : Int)
  | integer
  /-- A text that spells an integer. -/
  | integerText
  /-- An integer that is not too large. -/
  | integerSize
  /-- A number without a fraction. -/
  | whole
  | finite
deriving Repr, DecidableEq

/-- Words as alternatives, each between quotes. -/
def alternatives (words : List String) : String :=
  match (words.map fun word => s!"'{word}'").reverse with
  | [] => ""
  | [only] => only
  | last :: before => ", ".intercalate before.reverse ++ " or " ++ last

/-- The wording of an expectation that is not met. -/
def Expectation.message : Expectation → String
  | .present => "Field required"
  | .absent => "Extra inputs are not permitted"
  | .text => "Input should be a valid string"
  | .wholeCharacters =>
    "Input should be a valid string, unable to parse raw data as a unicode string"
  | .list => "Input should be a valid list"
  | .declaration => "Input should be a valid dictionary or instance of VariableEntry"
  | .oneOf words => "Input should be " ++ alternatives words
  | .atLeast bound => s!"Input should be greater than or equal to {bound}"
  | .integer => "Input should be a valid integer"
  | .integerText => "Input should be a valid integer, unable to parse string as an integer"
  | .integerSize => "Unable to parse input string as an integer, exceeded maximum size"
  | .whole => "Input should be a valid integer, got a number with a fractional part"
  | .finite => "Input should be a finite number"

/-- A value that is not what is expected: the keys and places that lead to it, and what was
    expected. -/
structure Mismatch where
  place : List String
  expected : Expectation
deriving Repr, DecidableEq

namespace Mismatch

def message (mismatch : Mismatch) : String :=
  ".".intercalate mismatch.place ++ ": " ++ mismatch.expected.message

/-- The mismatch one level further out, behind a key. -/
def behind (key : String) (mismatch : Mismatch) : Mismatch :=
  ⟨key :: mismatch.place, mismatch.expected⟩

end Mismatch

/-- The result of a check that a value does not pass. -/
def unexpected {α : Type} (expected : Expectation) : Except Mismatch α :=
  .error ⟨[], expected⟩

/-- The result of a check of the value behind a key. -/
def behindKey {α : Type} (key : String) (result : Except Mismatch α) : Except Mismatch α :=
  result.mapError (Mismatch.behind key)

theorem behindKey_eq_ok_iff {α : Type} {key : String} {result : Except Mismatch α} {found : α} :
    behindKey key result = .ok found ↔ result = .ok found := by
  cases result with
  | error mismatch => exact ⟨fun isOk => (by cases isOk), fun isOk => (by cases isOk)⟩
  | ok value => exact Iff.rfl

example : (Expectation.oneOf ["a", "b", "c"]).message = "Input should be 'a', 'b' or 'c'" := by decide

end Marginalia
