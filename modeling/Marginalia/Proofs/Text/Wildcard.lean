import Marginalia.Text.Wildcard
import Mathlib.Data.List.Forall2
import Mathlib.Data.List.Infix

/-!
# What file name patterns stand for

A pattern matches a name exactly if its pieces stand for it, one behind the other.  So a star with plain
characters behind it matches the names that end with them.
-/

namespace Marginalia.Text.Wildcard

/-- The pieces of a pattern stand for a name: a star for any characters, any other piece for one that it
    accepts. -/
inductive StandFor : List Piece → List Char → Prop where
  | nil : StandFor [] []
  | leave {pieces : List Piece} {name : List Char} (behind : StandFor pieces name) :
      StandFor (.star :: pieces) name
  | take {pieces : List Piece} {name : List Char} (c : Char) (same : StandFor (.star :: pieces) name) :
      StandFor (.star :: pieces) (c :: name)
  | one {piece : Piece} {pieces : List Piece} {c : Char} {name : List Char}
      (accepts : piece.accepts c = true) (behind : StandFor pieces name) :
      StandFor (piece :: pieces) (c :: name)

variable {pieces : List Piece} {name : List Char} {c : Char}

theorem standFor_nil_iff : StandFor [] name ↔ name = [] := by
  constructor
  · rintro ⟨⟩
    rfl
  · rintro rfl
    exact .nil

theorem standFor_star_cons_iff :
    StandFor (.star :: pieces) (c :: name) ↔
      StandFor pieces (c :: name) ∨ StandFor (.star :: pieces) name := by
  constructor
  · intro stands
    cases stands with
    | leave behind => exact .inl behind
    | take _ same => exact .inr same
    | one accepts => cases accepts
  · rintro (behind | same)
    · exact .leave behind
    · exact .take c same

theorem standFor_star_nil_iff : StandFor (.star :: pieces) [] ↔ StandFor pieces [] := by
  constructor
  · intro stands
    cases stands with
    | leave behind => exact behind
  · exact .leave

theorem standFor_one_cons_iff {piece : Piece} (other : piece ≠ .star) :
    StandFor (piece :: pieces) (c :: name) ↔ piece.accepts c = true ∧ StandFor pieces name := by
  constructor
  · intro stands
    cases stands with
    | leave | take => exact absurd rfl other
    | one accepts behind => exact ⟨accepts, behind⟩
  · rintro ⟨accepts, behind⟩
    exact .one accepts behind

theorem not_standFor_one_nil {piece : Piece} (other : piece ≠ .star) :
    ¬ StandFor (piece :: pieces) [] := by
  intro stands
  cases stands
  exact other rfl

/-! ## The matcher -/

/-- The marks tell of each tail of a name, the whole name first, whether some pieces stand for it. -/
def Mark (pieces : List Piece) (marks : List Bool) (tails : List (List Char)) : Prop :=
  List.Forall₂ (fun mark tail => mark = true ↔ StandFor pieces tail) marks tails

theorem mark_nil (name : List Char) : Mark [] (name.map (fun _ => false) ++ [true]) name.tails := by
  induction name with
  | nil => exact .cons (by simp [standFor_nil_iff]) .nil
  | cons c name ih => exact .cons (by simp [standFor_nil_iff]) ih

theorem mark_star {marks : List Bool} (marked : Mark pieces marks name.tails) :
    Mark (.star :: pieces) (anyLater marks) name.tails ∧
      (marks.any id = true ↔ StandFor (.star :: pieces) name) := by
  induction name generalizing marks with
  | nil =>
    obtain ⟨mark, _, here, nothing, rfl⟩ := List.forall₂_cons_right_iff.mp marked
    cases nothing
    have whole : mark = true ↔ StandFor (.star :: pieces) [] := here.trans standFor_star_nil_iff.symm
    exact ⟨.cons (by simpa using whole) .nil, by simpa using whole⟩
  | cons c name ih =>
    obtain ⟨mark, later, here, markedLater, rfl⟩ := List.forall₂_cons_right_iff.mp marked
    obtain ⟨starLater, anyIs⟩ := ih markedLater
    have whole : (mark || later.any id) = true ↔ StandFor (.star :: pieces) (c :: name) := by
      rw [Bool.or_eq_true, here, anyIs, standFor_star_cons_iff]
    exact ⟨.cons whole starLater, by simpa using whole⟩

theorem mark_one {piece : Piece} (other : piece ≠ .star) {marks : List Bool}
    (marked : Mark pieces marks name.tails) :
    Mark (piece :: pieces)
      (List.zipWith (fun c later => piece.accepts c && later) name marks.tail ++ [false]) name.tails := by
  induction name generalizing marks with
  | nil => exact .cons (by simpa using not_standFor_one_nil other) .nil
  | cons c name ih =>
    obtain ⟨mark, later, -, markedLater, rfl⟩ := List.forall₂_cons_right_iff.mp marked
    -- The first mark of the tail behind the character tells of the pieces behind this one.
    obtain ⟨next, others, nextIs, rfl⟩ : ∃ next others, (next = true ↔ StandFor pieces name) ∧
        later = next :: others := by
      cases name <;>
        obtain ⟨next, others, nextIs, -, rfl⟩ := List.forall₂_cons_right_iff.mp markedLater <;>
        exact ⟨next, others, nextIs, rfl⟩
    refine .cons ?_ (ih markedLater)
    rw [Bool.and_eq_true, nextIs, standFor_one_cons_iff other]

theorem mark_matchTails (name : List Char) (pieces : List Piece) :
    Mark pieces (matchTails name pieces) name.tails := by
  induction pieces with
  | nil => exact mark_nil name
  | cons piece pieces ih =>
    cases piece with
    | star => exact (mark_star ih).1
    | literal c => exact mark_one (by simp) ih
    | set negated members => exact mark_one (by simp) ih

/-- A name matches a pattern exactly if the pieces of the pattern stand for it. -/
theorem matchesName_iff {pattern name : String} :
    matchesName pattern name = true ↔ StandFor (Wildcard.pieces pattern.toList) name.toList := by
  have marked := mark_matchTails name.toList (Wildcard.pieces pattern.toList)
  rw [matchesName]
  revert marked
  generalize matchTails name.toList _ = marks
  cases name.toList <;> intro marked <;>
    obtain ⟨mark, _, here, -, rfl⟩ := List.forall₂_cons_right_iff.mp marked <;>
    exact here

/-! ## Plain endings -/

theorem standFor_literals_iff {text : List Char} :
    StandFor (text.map .literal) name ↔ name = text := by
  induction text generalizing name with
  | nil => exact standFor_nil_iff
  | cons c text ih =>
    rw [List.map_cons]
    cases name with
    | nil => exact iff_of_false (not_standFor_one_nil (by simp)) (by simp)
    | cons first name =>
      rw [standFor_one_cons_iff (by simp), ih]
      simp [Piece.accepts]

theorem standFor_star_literals_iff {text : List Char} :
    StandFor (.star :: text.map .literal) name ↔ text <:+ name := by
  induction name with
  | nil => rw [standFor_star_nil_iff, standFor_literals_iff, List.suffix_nil, eq_comm]
  | cons c name ih =>
    rw [standFor_star_cons_iff, standFor_literals_iff, ih, List.suffix_cons_iff, eq_comm]

theorem piecesFrom_of_plain {text : List Char} (plain : ∀ c ∈ text, c ≠ '*' ∧ c ≠ '?' ∧ c ≠ '[') :
    piecesFrom 0 text = text.map .literal := by
  induction text with
  | nil => rfl
  | cons c text ih =>
    obtain ⟨⟨noStar, noMark, noBracket⟩, plain⟩ := List.forall_mem_cons.mp plain
    rw [piecesFrom, ih plain, List.map_cons]
    · exact fun same => noStar same
    · exact fun same => noMark same
    · exact fun same => noBracket same

/-- A star with plain characters behind it matches the names that end with these. -/
theorem matchesName_star_append {ending : String}
    (plain : ∀ c ∈ ending.toList, c ≠ '*' ∧ c ≠ '?' ∧ c ≠ '[') {name : String} :
    matchesName ("*" ++ ending) name = true ↔ ending.toList <:+ name.toList := by
  have whole : ("*" ++ ending).toList = '*' :: ending.toList := String.toList_append
  rw [matchesName_iff, whole, Wildcard.pieces, piecesFrom, piecesFrom_of_plain plain,
    standFor_star_literals_iff]

end Marginalia.Text.Wildcard
