import Marginalia.Proofs.Text.Trim
import Marginalia.Text.Range
import Mathlib.Data.List.Infix

/-!
# Pieces of a text

A piece stands in a text at an offset where the text goes on with it from there.  Pieces of pieces are
pieces again, so an offset may be handed down from a document to a line of it and further; and a range
that covers a piece gives the piece back.
-/

namespace Marginalia.Text

/-- The text goes on with the piece from the offset `start` on. -/
def StandsAt (piece : List Char) (start : Nat) (text : List Char) : Prop :=
  piece <+: text.drop start

variable {piece middle text : List Char} {start : Nat}

theorem StandsAt.nil (start : Nat) (text : List Char) : StandsAt [] start text :=
  List.nil_prefix

theorem StandsAt.of_isPrefix {shorter : List Char} (front : shorter <+: piece)
    (stands : StandsAt piece start text) : StandsAt shorter start text :=
  List.IsPrefix.trans front stands

/-- A piece of a piece is a piece, with the offsets added. -/
theorem StandsAt.trans {offset : Nat} (inner : StandsAt piece offset middle)
    (outer : StandsAt middle start text) : StandsAt piece (start + offset) text := by
  have dropped : middle.drop offset <+: (text.drop start).drop offset :=
    List.IsPrefix.drop outer offset
  rw [List.drop_drop] at dropped
  exact List.IsPrefix.trans inner dropped

theorem StandsAt.drop (stands : StandsAt piece start text) (count : Nat) :
    StandsAt (piece.drop count) (start + count) text :=
  StandsAt.trans (List.prefix_refl _) stands

theorem StandsAt.append_right {front : List Char} (stands : StandsAt (front ++ piece) start text) :
    StandsAt piece (start + front.length) text := by
  have behind := stands.drop front.length
  rwa [List.drop_left] at behind

theorem StandsAt.trimLeft (stands : StandsAt piece start text) :
    StandsAt (trimLeft piece) (start + indent piece) text := by
  have behind := stands.drop (indent piece)
  rwa [drop_indent] at behind

theorem StandsAt.trimRight (stands : StandsAt piece start text) :
    StandsAt (trimRight piece) start text :=
  stands.of_isPrefix (trimRight_isPrefix piece)

theorem StandsAt.trim (stands : StandsAt piece start text) :
    StandsAt (trim piece) (start + indent piece) text :=
  stands.trimLeft.trimRight

/-- The range that begins where a piece stands and is as long covers the piece. -/
theorem StandsAt.slice (stands : StandsAt piece start text) :
    Range.slice ⟨start, (start : Int) + piece.length⟩ text = piece := by
  have bound : piece.length ≤ text.length - start := by
    have shorter := List.IsPrefix.length_le stands
    rwa [List.length_drop] at shorter
  have stop : (start : Int) + piece.length = ((start + piece.length : Nat) : Int) := by omega
  simp only [Range.slice, stop, Range.place_ofNat]
  by_cases inside : start ≤ text.length
  · have covered : min (start + piece.length) text.length - min start text.length = piece.length := by
      omega
    rw [covered, Nat.min_eq_left inside]
    exact (List.prefix_iff_eq_take.mp stands).symm
  · have nothing : piece = [] := List.eq_nil_of_length_eq_zero (by omega)
    subst nothing
    rw [List.length_nil, Nat.add_zero, Nat.sub_self, List.take_zero]

end Marginalia.Text
