import Marginalia.Number.Binary64

/-!
# Values of data files

What a data file can hold: the one type for the values of declaration files, of settings files and of
tool arguments.  Tables keep their entries in the order of first appearance.
-/

namespace Marginalia

open Number (Binary64)

/-- A value read from a data file. -/
inductive Value where
  | null
  | bool (truth : Bool)
  | int (number : Int)
  | float (number : Binary64)
  | text (content : String)
  /-- A text in which halves of characters stand alone; in its content, the replacement character
      stands for each of them. -/
  | torn (content : String)
  | list (items : List Value)
  | table (entries : List (String × Value))
  /-- A date, a time of day or both. -/
  | moment
deriving Inhabited

namespace Value

/-- The value filed under a key of a table. -/
def get? (key : String) : Value → Option Value
  | .table entries => entries.lookup key
  | _ => none

/-- The text of a value that is a text. -/
def text? : Value → Option String
  | .text content | .torn content => some content
  | _ => none

end Value

end Marginalia
