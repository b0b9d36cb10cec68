import Marginalia.Text.Range

/-!
# Lines and positions

Offsets of a document against the line and character positions that editors show, both counted from
zero.  A newline, a carriage return and the two together each end one line.
-/

namespace Marginalia

/-- A line and a character in that line, both counted from zero. -/
structure Position where
  line : Int
  character : Int
deriving Repr, DecidableEq, Inhabited

/-- Whether a line ends behind `c`, given the text that follows it: behind every newline, and behind
    a carriage return that no newline follows. -/
def endsLine (c : Char) (rest : List Char) : Bool :=
  c = '\n' || (c = '\r' && rest.head? != some '\n')

/-- The offsets just behind each line end, where `offset` is that of the first character. -/
def startsAfter : (offset : Nat) → List Char → List Nat
  | _, [] => []
  | offset, c :: rest =>
    if endsLine c rest then (offset + 1) :: startsAfter (offset + 1) rest
    else startsAfter (offset + 1) rest

/-- The line starts of a text, kept for repeated conversions: the first line starts at offset zero,
    and `later` holds the other starts in increasing order. -/
structure LineIndex where
  later : List Nat
  length : Nat
deriving Repr, DecidableEq

namespace LineIndex

/-- The line starts of a text. -/
def ofText (text : List Char) : LineIndex :=
  ⟨startsAfter 0 text, text.length⟩

/-- The offset at which each line starts. -/
def starts (index : LineIndex) : List Nat :=
  0 :: index.later

/-- How many lines the text has; an empty text has one. -/
def lineCount (index : LineIndex) : Nat :=
  index.starts.length

/-- An offset held inside the text. -/
def clamp (index : LineIndex) (offset : Int) : Nat :=
  min offset.toNat index.length

/-- The line that an offset of the text lies in: as many lines were left behind as start at or
    before the offset, not counting the first. -/
def lineOf (index : LineIndex) (offset : Nat) : Nat :=
  index.later.countP (· ≤ offset)

/-- The offset at which a line starts; the end of the text for a line behind the last. -/
def startOf (index : LineIndex) (line : Nat) : Nat :=
  index.starts.getD line index.length

/-- The position of an offset, which is first held inside the text. -/
def positionOf (index : LineIndex) (offset : Int) : Position :=
  let inside := index.clamp offset
  let line := index.lineOf inside
  ⟨line, inside - index.startOf line⟩

/-- The offset of a position.  A line before the first stands for the start of the text, a line
    behind the last for its end, and a character outside its line for the nearer end of the line. -/
def offsetOf (index : LineIndex) (position : Position) : Nat :=
  if position.line < 0 then 0
  else
    let line := position.line.toNat
    if line < index.lineCount then
      let first := index.startOf line
      max first (min (first + position.character) (index.startOf (line + 1))).toNat
    else index.length

/-- The positions of the two ends of a range. -/
def positionsOf (index : LineIndex) (range : Range) : Position × Position :=
  (index.positionOf range.start, index.positionOf range.stop)

end LineIndex

end Marginalia
