/-!
# Blank characters

What counts as blank when text is trimmed and when a grammar allows white space, and the three ways
of trimming.  The class is wider than core's `Char.isWhitespace`: it has the separators of the
control block and the spaces and line separators of Unicode.
-/

namespace Marginalia.Text

/-- The runs of code points that are blank: the controls from tab to carriage return, the four
    information separators with the space, the next-line control, the no-break space and the
    separators of Unicode. -/
def blankRuns : List (Nat × Nat) :=
  [(0x09, 0x0D), (0x1C, 0x20), (0x85, 0x85), (0xA0, 0xA0), (0x1680, 0x1680), (0x2000, 0x200A),
    (0x2028, 0x2029), (0x202F, 0x202F), (0x205F, 0x205F), (0x3000, 0x3000)]

/-- A character is blank when it lies in one of the blank runs. -/
def isBlank (c : Char) : Bool :=
  blankRuns.any fun run => run.1 ≤ c.toNat && c.toNat ≤ run.2

/-- The text without the blanks in front. -/
def trimLeft (text : List Char) : List Char :=
  text.dropWhile isBlank

/-- The text without the blanks at its end. -/
def trimRight (text : List Char) : List Char :=
  (text.reverse.dropWhile isBlank).reverse

/-- The text without the blanks at either end. -/
def trim (text : List Char) : List Char :=
  trimRight (trimLeft text)

def allBlank (text : List Char) : Bool :=
  text.all isBlank

/-- How many blanks stand in front of the text. -/
def indent (text : List Char) : Nat :=
  (text.takeWhile isBlank).length

end Marginalia.Text
