import Marginalia.Text.Hex
import Marginalia.Text.Printable

/-!
# Quoted display of texts

How a text is shown inside a message when its exact characters matter: between quotes, with the
characters that cannot be seen written as escapes.
-/

namespace Marginalia.Text

/-- The quote around a displayed text: the single one, unless the text holds single quotes and no
    double ones. -/
def quoteFor (text : List Char) : Char :=
  if text.contains '\'' && !text.contains '"' then '"' else '\''

/-- One character of a displayed text between the given quotes. -/
def displayChar (quote c : Char) : List Char :=
  if c = quote || c = '\\' then ['\\', c]
  else if c = '\n' then ['\\', 'n']
  else if c = '\r' then ['\\', 'r']
  else if c = '\t' then ['\\', 't']
  else if isPrintable c then [c]
  else if c.toNat < 0x100 then '\\' :: 'x' :: hexDigits 2 c.toNat
  else if c.toNat < 0x10000 then '\\' :: 'u' :: hexDigits 4 c.toNat
  else '\\' :: 'U' :: hexDigits 8 c.toNat

/-- A text between quotes, with escapes for the quote, the backslash and whatever cannot be seen. -/
def display (text : String) : String :=
  let quote := quoteFor text.toList
  String.ofList (quote :: text.toList.flatMap (displayChar quote) ++ [quote])

/-- A list of texts, each displayed, between brackets. -/
def displayList (texts : List String) : String :=
  "[" ++ ", ".intercalate (texts.map display) ++ "]"

example : display "it's" = "\"it's\"" := by decide
example : display "a\"'\n\\" = "'a\"\\'\\n\\\\'" := by decide
example : displayList ["A", "\x7f"] = "['A', '\\x7f']" := by decide

end Marginalia.Text
