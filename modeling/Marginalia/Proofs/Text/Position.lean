import Marginalia.Text.Position
import Mathlib.Data.List.GetD
import Mathlib.Data.Prod.Lex
import Mathlib.Order.Monotone.Basic

/-!
# Offsets and positions

An index of a text has the start of every line, in order, and the line of an offset is the last one that
starts at or before it.  So offsets and positions come in the same order, and an offset is found again
at its position.
-/

namespace Marginalia

/-! ## The order of positions -/

/-- Positions are ordered by their lines, and in one line by their characters. -/
def Position.place (position : Position) : Int ×ₗ Int :=
  toLex (position.line, position.character)

theorem Position.place_injective : Function.Injective Position.place := by
  rintro ⟨line, character⟩ ⟨otherLine, otherCharacter⟩ same
  cases toLex.injective same
  rfl

instance : LinearOrder Position :=
  LinearOrder.lift' Position.place Position.place_injective

theorem Position.lt_iff {first second : Position} : first < second ↔
    first.line < second.line ∨ first.line = second.line ∧ first.character < second.character :=
  Prod.Lex.toLex_lt_toLex

theorem Position.le_iff {first second : Position} : first ≤ second ↔
    first.line < second.line ∨ first.line = second.line ∧ first.character ≤ second.character :=
  Prod.Lex.toLex_le_toLex

/-! ## Line starts -/

/-- A line of the text ends with the character at a place: a newline, or a carriage return that no
    newline follows. -/
def EndsLineAt (text : List Char) (place : Nat) : Prop :=
  text[place]? = some '\n' ∨ text[place]? = some '\r' ∧ text[place + 1]? ≠ some '\n'
deriving Decidable

theorem endsLineAt_zero {c : Char} {rest : List Char} :
    EndsLineAt (c :: rest) 0 ↔ endsLine c rest = true := by
  simp [EndsLineAt, endsLine, List.head?_eq_getElem?]

theorem endsLineAt_succ {c : Char} {rest : List Char} {place : Nat} :
    EndsLineAt (c :: rest) (place + 1) ↔ EndsLineAt rest place := by
  simp only [EndsLineAt, List.getElem?_cons_succ]

theorem startsAfter_eq (offset : Nat) (text : List Char) :
    startsAfter offset text =
      ((List.range text.length).filter (EndsLineAt text ·)).map (offset + 1 + ·) := by
  induction text generalizing offset with
  | nil => rfl
  | cons c rest ih =>
    have later : (List.range rest.length).filter ((fun place => decide (EndsLineAt (c :: rest) place)) ∘
        Nat.succ) = (List.range rest.length).filter (EndsLineAt rest ·) :=
      List.filter_congr fun place _ => decide_eq_decide.mpr endsLineAt_succ
    have shift : (offset + 1 + ·) ∘ Nat.succ = (offset + 1 + 1 + ·) := by
      funext place
      simp only [Function.comp_apply, Nat.succ_eq_add_one]
      omega
    rw [List.length_cons, List.range_succ_eq_map, List.filter_cons, List.filter_map, later, startsAfter]
    simp only [endsLineAt_zero, Bool.decide_eq_true]
    split
    · rw [List.map_cons, List.map_map, shift, ← ih, Nat.add_zero]
    · rw [List.map_map, shift, ← ih]

namespace LineIndex

/-- The lines of an index start one behind the other and inside the text. -/
structure IsSorted (index : LineIndex) : Prop where
  increasing : index.starts.Pairwise (· < ·)
  inside : ∀ start ∈ index.starts, start ≤ index.length

theorem later_ofText (text : List Char) : (ofText text).later =
    ((List.range text.length).filter (EndsLineAt text ·)).map (· + 1) := by
  rw [ofText, startsAfter_eq]
  exact List.map_congr_left fun place _ => by omega

theorem isSorted_ofText (text : List Char) : (ofText text).IsSorted := by
  have positive : ∀ start ∈ (ofText text).later, 0 < start ∧ start ≤ text.length := by
    rw [later_ofText]
    intro start member
    obtain ⟨place, among, rfl⟩ := List.mem_map.mp member
    have inside := List.mem_range.mp (List.mem_filter.mp among).1
    omega
  constructor
  · refine List.pairwise_cons.mpr ⟨fun start member => (positive start member).1, ?_⟩
    rw [later_ofText]
    refine List.Pairwise.map (S := (· < ·)) (R := (· < ·)) _ (fun _ _ => Nat.succ_lt_succ) ?_
    exact List.pairwise_lt_range.filter _
  · exact List.forall_mem_cons.mpr ⟨Nat.zero_le _, fun start member => (positive start member).2⟩

/-- Of numbers in increasing order, those up to a bound come first. -/
theorem getElem_le_iff {starts : List Nat} (increasing : starts.Pairwise (· < ·)) (offset : Nat)
    {line : Nat} (inside : line < starts.length) :
    starts[line] ≤ offset ↔ line < starts.countP (· ≤ offset) := by
  induction starts generalizing line with
  | nil => cases inside
  | cons first rest ih =>
    obtain ⟨before, increasing⟩ := List.pairwise_cons.mp increasing
    rw [List.countP_cons]
    by_cases reached : first ≤ offset
    · cases line with
      | zero => simp [reached]
      | succ line => simpa [reached] using ih increasing (Nat.lt_of_succ_lt_succ inside)
    · have none : rest.countP (· ≤ offset) = 0 := by
        refine List.countP_eq_zero.mpr fun start member => ?_
        have later := before start member
        simp only [decide_eq_true_eq]
        omega
      have behind : first ≤ (first :: rest)[line] := by
        cases line with
        | zero => exact Nat.le_refl _
        | succ line => exact (before _ (List.getElem_mem _)).le
      simp only [none, reached, decide_false, Bool.false_eq_true, if_false]
      omega

variable {index : LineIndex} {line offset : Nat}

theorem lineOf_lt (index : LineIndex) (offset : Nat) : index.lineOf offset < index.lineCount :=
  Nat.lt_succ_of_le List.countP_le_length

theorem startOf_of_lt (inside : line < index.lineCount) : index.startOf line = index.starts[line] :=
  List.getD_eq_getElem _ _ inside

theorem startOf_of_le (behind : index.lineCount ≤ line) : index.startOf line = index.length :=
  List.getD_eq_default _ _ behind

namespace IsSorted

variable (sorted : index.IsSorted)

include sorted

theorem startOf_le_length (line : Nat) : index.startOf line ≤ index.length := by
  by_cases inside : line < index.lineCount
  · rw [startOf_of_lt inside]
    exact sorted.inside _ (List.getElem_mem inside)
  · exact (startOf_of_le (Nat.le_of_not_lt inside)).le

theorem startOf_mono {later : Nat} (before : line ≤ later) :
    index.startOf line ≤ index.startOf later := by
  by_cases inside : later < index.lineCount
  · rcases Nat.eq_or_lt_of_le before with rfl | apart
    · exact Nat.le_refl _
    · rw [startOf_of_lt inside, startOf_of_lt (before.trans_lt inside)]
      exact (List.pairwise_iff_getElem.mp sorted.increasing _ _ _ _ apart).le
  · rw [startOf_of_le (Nat.le_of_not_lt inside)]
    exact sorted.startOf_le_length line

/-- The line of an offset is the last that starts at or before it. -/
theorem startOf_le_iff (inside : line < index.lineCount) :
    index.startOf line ≤ offset ↔ line ≤ index.lineOf offset := by
  have first : index.starts.countP (· ≤ offset) = index.lineOf offset + 1 := by
    simp [starts, lineOf]
  rw [startOf_of_lt inside, getElem_le_iff sorted.increasing offset inside, first, Nat.lt_succ_iff]

theorem startOf_lineOf_le (offset : Nat) : index.startOf (index.lineOf offset) ≤ offset :=
  (sorted.startOf_le_iff (index.lineOf_lt offset)).mpr (Nat.le_refl _)

theorem le_startOf_succ (within : offset ≤ index.length) :
    offset ≤ index.startOf (index.lineOf offset + 1) := by
  by_cases inside : index.lineOf offset + 1 < index.lineCount
  · exact (Nat.lt_of_not_le (mt (sorted.startOf_le_iff inside).mp (Nat.not_succ_le_self _))).le
  · rwa [startOf_of_le (Nat.le_of_not_lt inside)]

theorem lineOf_mono {later : Nat} (before : offset ≤ later) :
    index.lineOf offset ≤ index.lineOf later :=
  (sorted.startOf_le_iff (index.lineOf_lt offset)).mp
    ((sorted.startOf_lineOf_le offset).trans before)

/-! ## Positions -/

theorem positionOf_lt_positionOf {offset later : Int} (low : 0 ≤ offset) (before : offset < later)
    (high : later ≤ index.length) : index.positionOf offset < index.positionOf later := by
  have clamped : (index.clamp offset : Int) = offset := by simp only [clamp]; omega
  have laterClamped : (index.clamp later : Int) = later := by simp only [clamp]; omega
  have lines : index.lineOf (index.clamp offset) ≤ index.lineOf (index.clamp later) :=
    sorted.lineOf_mono (by omega)
  simp only [Position.lt_iff, positionOf, clamped, laterClamped]
  rcases Nat.eq_or_lt_of_le lines with same | apart
  · refine Or.inr ⟨congrArg _ same, ?_⟩
    rw [same]
    omega
  · exact Or.inl (by exact_mod_cast apart)

theorem offsetOf_positionOf (offset : Int) :
    index.offsetOf (index.positionOf offset) = index.clamp offset := by
  have within : index.clamp offset ≤ index.length := Nat.min_le_right _ _
  have starts := sorted.startOf_lineOf_le (index.clamp offset)
  have ends := sorted.le_startOf_succ within
  have inside := index.lineOf_lt (index.clamp offset)
  simp only [offsetOf, positionOf, Int.toNat_natCast, inside, if_true]
  rw [if_neg (by omega)]
  omega

/-! ## Offsets -/

/-- The offset of a position lies in its line, or at the end of the text that is nearer to it. -/
theorem offsetOf_cases (position : Position) :
    (position.line < 0 ∧ index.offsetOf position = 0) ∨
    (∃ line : Nat, position.line = line ∧ line < index.lineCount ∧
      index.startOf line ≤ index.offsetOf position ∧
      index.offsetOf position ≤ index.startOf (line + 1) ∧
      index.offsetOf position = max (index.startOf line : Int)
        (min (index.startOf line + position.character) (index.startOf (line + 1)))) ∨
    (index.lineCount ≤ position.line ∧ index.offsetOf position = index.length) := by
  unfold offsetOf
  split
  next negative => exact Or.inl ⟨negative, rfl⟩
  next nonnegative =>
  obtain ⟨line, isLine⟩ := Int.eq_ofNat_of_zero_le (Int.not_lt.mp nonnegative)
  have next : index.startOf line ≤ index.startOf (line + 1) := sorted.startOf_mono (Nat.le_succ line)
  simp only [isLine, Int.toNat_natCast]
  split
  next inside =>
    refine Or.inr (Or.inl ⟨line, rfl, inside, Nat.le_max_left _ _, ?_, ?_⟩) <;> omega
  next behind => exact Or.inr (Or.inr ⟨by omega, rfl⟩)

theorem offsetOf_le (position : Position) : index.offsetOf position ≤ index.length := by
  rcases sorted.offsetOf_cases position with ⟨-, same⟩ | ⟨line, -, -, -, ends, -⟩ | ⟨-, same⟩
  · exact same ▸ Nat.zero_le _
  · exact ends.trans (sorted.startOf_le_length _)
  · exact same.le

theorem monotone_offsetOf : Monotone index.offsetOf := by
  intro position later before
  rw [Position.le_iff] at before
  rcases sorted.offsetOf_cases position with ⟨-, same⟩ | ⟨line, isLine, inside, starts, ends, same⟩ |
      ⟨behind, same⟩
  · exact same ▸ Nat.zero_le _
  · rcases sorted.offsetOf_cases later with ⟨negative, -⟩ |
        ⟨laterLine, isLaterLine, -, laterStarts, -, laterSame⟩ | ⟨-, laterSame⟩
    · omega
    · rcases before with apart | ⟨sameLine, characters⟩
      · exact ends.trans ((sorted.startOf_mono (by omega)).trans laterStarts)
      · obtain rfl : line = laterLine := by omega
        omega
    · exact laterSame ▸ sorted.offsetOf_le position
  · rcases sorted.offsetOf_cases later with ⟨negative, -⟩ | ⟨laterLine, isLaterLine, laterInside, -⟩ |
        ⟨-, laterSame⟩
    · omega
    · omega
    · exact (same.trans laterSame.symm).le

end IsSorted

/-- An index belongs to a text: its lines are those of the text, and it takes offsets to positions and
    back in their order. -/
structure IsIndexOf (index : LineIndex) (text : List Char) : Prop where
  starts : index.starts = 0 :: ((List.range text.length).filter (EndsLineAt text ·)).map (· + 1)
  ascends : ∀ offset later : Int, 0 ≤ offset → offset < later → later ≤ text.length →
    index.positionOf offset < index.positionOf later
  /-- An offset is found again at its position, held inside the text. -/
  returns : ∀ offset : Int,
    (index.offsetOf (index.positionOf offset) : Int) = max 0 (min offset text.length)
  inside : ∀ position, index.offsetOf position ≤ text.length
  monotone : Monotone index.offsetOf

theorem isIndexOf_ofText (text : List Char) : (ofText text).IsIndexOf text := by
  have sorted := isSorted_ofText text
  have length : (ofText text).length = text.length := rfl
  refine ⟨congrArg (0 :: ·) (later_ofText text), fun _ _ => sorted.positionOf_lt_positionOf,
    fun offset => ?_, sorted.offsetOf_le, sorted.monotone_offsetOf⟩
  rw [sorted.offsetOf_positionOf, clamp, length]
  omega

-- A carriage return and a newline end one line together, and each ends one alone.
example : (ofText "a\r\nb\rc\n".toList).starts = [0, 3, 5, 7] := by decide

end LineIndex

end Marginalia
