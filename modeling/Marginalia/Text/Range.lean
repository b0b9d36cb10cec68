/-!
# Ranges of a document

A range is a half-open span of character offsets, counted in code points from the start of the
document.  Offsets are integers: a range may be computed from any origin, and slicing reads a
negative offset as counted back from the end of the text.
-/

namespace Marginalia

/-- The offsets from `start` on and before `stop`. -/
structure Range where
  start : Int
  stop : Int
deriving Repr, DecidableEq, Inhabited

namespace Range

/-- How many offsets the range covers; negative when it is reversed. -/
def length (range : Range) : Int :=
  range.stop - range.start

/-- Whether a cursor at `offset` touches the range: its end counts as inside. -/
def touches (range : Range) (offset : Int) : Bool :=
  range.start ≤ offset && offset ≤ range.stop

/-- The place in a text of the given length that an offset stands for: a negative offset counts
    back from the end, and every offset is held inside the text. -/
def place (length : Nat) (offset : Int) : Nat :=
  if offset < 0 then (offset + length).toNat else min offset.toNat length

/-- The part of the text that the range covers. -/
def slice (range : Range) (text : List Char) : List Char :=
  let first := place text.length range.start
  let last := place text.length range.stop
  (text.drop first).take (last - first)

/-- The range moved by `distance`. -/
def shift (range : Range) (distance : Int) : Range :=
  ⟨range.start + distance, range.stop + distance⟩

/-- An offset that is not negative stands for itself, held inside the text. -/
theorem place_ofNat (length offset : Nat) : place length (offset : Int) = min offset length := by
  rw [place, if_neg (by omega), Int.toNat_natCast]

end Range

end Marginalia
