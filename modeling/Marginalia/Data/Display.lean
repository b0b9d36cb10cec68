import Marginalia.Data.Value
import Marginalia.Number.Shortest
import Marginalia.Text.Quoted

/-!
# Display of values

How a value is shown inside a message, and the words for the kinds of values.  Texts stand between
quotes, lists and tables between brackets.
-/

namespace Marginalia.Value

mutual

/-- A value as it is shown inside a message. -/
def display : Value → String
  | .null => "None"
  | .bool truth => if truth then "True" else "False"
  | .int number => toString number
  | .float number => number.text
  | .text content | .torn content => Text.display content
  | .list items => "[" ++ ", ".intercalate (displayItems items) ++ "]"
  | .table entries => "\x7b" ++ ", ".intercalate (displayEntries entries) ++ "\x7d"
  | .moment => "moment"

/-- The items of a list as they are shown. -/
def displayItems : List Value → List String
  | [] => []
  | item :: items => item.display :: displayItems items

/-- The entries of a table as they are shown. -/
def displayEntries : List (String × Value) → List String
  | [] => []
  | (key, value) :: entries => (Text.display key ++ ": " ++ value.display) :: displayEntries entries

end

/-- A value inside running text: a text stands there as it is. -/
def inline (value : Value) : String :=
  value.text?.getD value.display

def kindWord : Value → String
  | .null => "NoneType"
  | .bool _ => "bool"
  | .int _ => "int"
  | .float _ => "float"
  | .text _ | .torn _ => "str"
  | .list _ => "list"
  | .table _ => "dict"
  | .moment => "datetime"

/-- Whether a value says nothing: no value, the truth value for no, zero, and the text, list and table
    that hold nothing. -/
def isEmpty : Value → Bool
  | .null | .bool false | .text "" | .list [] | .table [] => true
  | .int number => number = 0
  | .float number => number.toInt? = some 0
  | _ => false

/-- Whether a value holds other values. -/
def isContainer : Value → Bool
  | .list _ | .table _ => true
  | _ => false

example : display (.list [.int 1, .text "it's", .null, .bool true]) = "[1, \"it's\", None, True]" := by
  decide
example : display (.table [("k", .list []), ("", .text "é")]) = "\x7b'k': [], '': 'é'\x7d" := by
  decide

end Marginalia.Value
