import Marginalia.Proofs.Annotation.Order
import Marginalia.Proofs.Text.Position
import Marginalia.Text.Newline
import Marginalia.Variable.Surroundings

/-!
# What is known about a place

The function and the class of a place are those that the nearest annotation before it names, and the
module is the first one that is named.  The annotations are only passed through once and no offsets are
compared, so this rests on their order.

The line of a place counts the newlines in front of it.  An index of the text ends a line at a carriage
return that stands alone as well, so the two tell the same line exactly where no such carriage return
is in front, as everywhere in a text that was read from the disk.
-/

namespace Marginalia

/-! ## Nearest annotations -/

/-- The annotation has a value in one of some namespaces. -/
def Annotation.Names (note : Annotation) (spaces : List String) (value : String) : Prop :=
  note.space ∈ spaces ∧ note.value = some value

/-- What is named in some namespaces by the last annotation that starts at or before an offset and names
    anything there. -/
inductive IsNamedBefore (annotations : List Annotation) (offset : Int) (spaces : List String) :
    Option String → Prop where
  | nothing (silent : ∀ note ∈ annotations, note.range.start ≤ offset →
      ∀ value, ¬ note.Names spaces value) : IsNamedBefore annotations offset spaces none
  | nearest {note : Annotation} {value : String} (member : note ∈ annotations)
      (before : note.range.start ≤ offset) (names : note.Names spaces value)
      (last : ∀ other ∈ annotations, other ≠ note → other.range.start ≤ offset →
        (∃ value, other.Names spaces value) → other.range.start < note.range.start) :
      IsNamedBefore annotations offset spaces (some value)

/-- What is named in some namespaces by the first annotation that names anything there. -/
inductive IsNamedFirst (annotations : List Annotation) (spaces : List String) :
    Option String → Prop where
  | nothing (silent : ∀ note ∈ annotations, ∀ value, ¬ note.Names spaces value) :
      IsNamedFirst annotations spaces none
  | first {note : Annotation} {value : String} (member : note ∈ annotations)
      (names : note.Names spaces value)
      (first : ∀ other ∈ annotations, other ≠ note → (∃ value, other.Names spaces value) →
        note.range.start < other.range.start) : IsNamedFirst annotations spaces (some value)

/-- The first of some items that tells something comes before all others that do. -/
theorem exists_of_findSome? {α β : Type} {before : α → α → Prop} {tells : α → Option β} {items : List α}
    {told : β} (ordered : items.Pairwise before) (found : items.findSome? tells = some told) :
    ∃ item ∈ items, tells item = some told ∧
      ∀ other ∈ items, other ≠ item → (tells other).isSome → before item other := by
  obtain ⟨front, item, back, rfl, tellsIt, silent⟩ := List.findSome?_eq_some_iff.mp found
  obtain ⟨-, behind, -⟩ := List.pairwise_append.mp ordered
  refine ⟨item, by simp, tellsIt, fun other member different tellsToo => ?_⟩
  rcases List.mem_append.mp member with inFront | inRest
  · rw [silent other inFront] at tellsToo
    cases tellsToo
  · rcases List.mem_cons.mp inRest with same | inBack
    · exact absurd same different
    · exact (List.pairwise_cons.mp behind).1 other inBack

section Values

variable {annotations : List Annotation} {spaces : List String}

/-- The value of an annotation, if it is in one of some namespaces. -/
def valueIn? (spaces : List String) (note : Annotation) : Option String :=
  if spaces.contains note.space then note.value else none

theorem valueIn?_eq_some_iff {note : Annotation} {value : String} :
    valueIn? spaces note = some value ↔ note.Names spaces value := by
  simp [valueIn?, Annotation.Names]

theorem isSome_valueIn?_iff {note : Annotation} :
    (valueIn? spaces note).isSome ↔ ∃ value, note.Names spaces value := by
  simp only [Option.isSome_iff_exists, valueIn?_eq_some_iff]

theorem not_names_of_valueIn?_eq_none {note : Annotation} (silent : valueIn? spaces note = none)
    (value : String) : ¬ note.Names spaces value := by
  rw [← valueIn?_eq_some_iff, silent]
  exact nofun

variable (ordered : annotations.Pairwise fun front back => front.range.start < back.range.start)

include ordered

theorem isNamedFirst_head? : IsNamedFirst annotations spaces (valuesOf spaces annotations).head? := by
  show IsNamedFirst _ _ (annotations.filterMap (valueIn? spaces)).head?
  rw [List.head?_filterMap]
  cases found : annotations.findSome? (valueIn? spaces) with
  | none =>
    have silent := List.findSome?_eq_none_iff.mp found
    exact .nothing fun note member => not_names_of_valueIn?_eq_none (silent note member)
  | some value =>
    obtain ⟨note, member, tells, foremost⟩ := exists_of_findSome? ordered found
    refine .first member (valueIn?_eq_some_iff.mp tells) fun other otherMember different names => ?_
    exact foremost other otherMember different (isSome_valueIn?_iff.mpr names)

theorem isNamedBefore_getLast? (offset : Int) : IsNamedBefore annotations offset spaces
    (valuesOf spaces (annotations.filter fun note => note.range.start ≤ offset)).getLast? := by
  show IsNamedBefore _ _ _ (List.filterMap (valueIn? spaces) _).getLast?
  rw [List.getLast?_filterMap]
  have reversed := List.pairwise_reverse.mpr (ordered.filter fun note => note.range.start ≤ offset)
  cases found : (annotations.filter fun note => note.range.start ≤ offset).reverse.findSome?
      (valueIn? spaces) with
  | none =>
    have silent := List.findSome?_eq_none_iff.mp found
    refine .nothing fun note member before => not_names_of_valueIn?_eq_none (silent note ?_)
    simpa using ⟨member, before⟩
  | some value =>
    obtain ⟨note, among, tells, foremost⟩ := exists_of_findSome? reversed found
    have ahead : note ∈ annotations ∧ note.range.start ≤ offset := by simpa using among
    refine .nearest ahead.1 ahead.2 (valueIn?_eq_some_iff.mp tells) ?_
    intro other otherMember different before names
    exact foremost other (by simpa using ⟨otherMember, before⟩) different
      (isSome_valueIn?_iff.mpr names)

end Values

namespace Surroundings

/-- What annotations tell about an offset: the function and the class by the nearest annotation before
    it, the module by the first one wherever it stands. -/
structure AreToldBy (place : Surroundings) (annotations : List Annotation) (offset : Int) : Prop where
  function : IsNamedBefore annotations offset ["fn", "method"] place.function
  className : IsNamedBefore annotations offset ["class"] place.className
  module : IsNamedFirst annotations ["module"] place.module

/-- What is known about a place of a document follows from its annotations, in every language and under
    all rules for values. -/
theorem areToldBy_ofPlace (rules : ValueRules) (languageName path : String) (text : List Char)
    (offset : Int) :
    let annotations := (Findings.ofText rules languageName text).annotations
    (ofPlace path text offset annotations).AreToldBy annotations offset := by
  intro annotations
  have ordered : annotations.Pairwise fun front back => front.range.start < back.range.start :=
    (Findings.isOrdered_ofText rules languageName text).apart.imp And.left
  exact {
    function := isNamedBefore_getLast? ordered offset
    className := isNamedBefore_getLast? ordered offset
    module := isNamedFirst_head? ordered }

end Surroundings

/-! ## Lines -/

/-- At a place stands a carriage return that ends a line alone. -/
def IsLoneReturn (text : List Char) (place : Nat) : Prop :=
  text[place]? = some '\r' ∧ text[place + 1]? ≠ some '\n'
deriving Decidable

/-- How many carriage returns end a line alone in front of an offset. -/
def loneReturns (text : List Char) (offset : Nat) : Nat :=
  (List.range offset).countP (IsLoneReturn text ·)

theorem loneReturns_eq_zero_iff {text : List Char} {offset : Nat} :
    loneReturns text offset = 0 ↔ ∀ place < offset, ¬ IsLoneReturn text place := by
  simp [loneReturns, List.countP_eq_zero]

theorem LineIndex.lineOf_ofText {text : List Char} {offset : Nat} (within : offset ≤ text.length) :
    (ofText text).lineOf offset = (List.range offset).countP (EndsLineAt text ·) := by
  obtain ⟨rest, length⟩ := Nat.exists_eq_add_of_le within
  rw [lineOf, later_ofText, List.countP_map, List.countP_filter, length, List.range_add,
    List.countP_append]
  have ahead : (List.range offset).countP (fun place =>
      ((fun start => decide (start ≤ offset)) ∘ (· + 1)) place && decide (EndsLineAt text place)) =
      (List.range offset).countP (EndsLineAt text ·) := by
    refine List.countP_congr fun place member => ?_
    have before := List.mem_range.mp member
    simp [Nat.succ_le_of_lt before]
  rw [ahead, Nat.add_eq_left, List.countP_eq_zero]
  intro place member
  obtain ⟨further, -, rfl⟩ := List.mem_map.mp member
  simp only [Function.comp_apply, Bool.and_eq_true, decide_eq_true_eq]
  omega

/-- The lines that end in front of an offset end at a newline or at a lone carriage return. -/
theorem countP_endsLineAt (text : List Char) (offset : Nat) :
    (List.range offset).countP (EndsLineAt text ·) =
      (text.take offset).count '\n' + loneReturns text offset := by
  induction offset with
  | zero => rfl
  | succ offset ih =>
    have last : List.countP (EndsLineAt text ·) [offset] =
        text[offset]?.toList.count '\n' + List.countP (IsLoneReturn text ·) [offset] := by
      cases here : text[offset]? with
      | none => simp [EndsLineAt, IsLoneReturn, here]
      | some c =>
        by_cases newline : c = '\n'
        · simp [EndsLineAt, IsLoneReturn, here, newline]
        · simp [EndsLineAt, IsLoneReturn, here, newline]
    rw [List.range_succ, List.countP_append, ih, last, List.take_add_one, List.count_append,
      loneReturns, loneReturns, List.range_succ, List.countP_append]
    omega

namespace Surroundings

variable (path : String) (annotations : List Annotation) {text : List Char}

/-- The index of a text counts one line more for each carriage return in front of the place that ends a
    line alone. -/
theorem line_ofPlace {offset : Nat} (within : offset ≤ text.length) :
    (ofPlace path text offset annotations).line =
      some (((LineIndex.ofText text).positionOf offset).line + 1 - loneReturns text offset) := by
  have ahead : Range.slice ⟨0, offset⟩ text = text.take offset := by
    rw [Range.slice, Range.place_ofNat, Nat.min_eq_left within]
    simp [Range.place]
  have clamped : (LineIndex.ofText text).clamp offset = offset := Nat.min_eq_left within
  simp only [ofPlace, ahead, LineIndex.positionOf, clamped]
  rw [LineIndex.lineOf_ofText within, countP_endsLineAt, Option.some.injEq]
  push_cast
  omega

/-- What is told of the line of a place is less than its line in the index by the carriage returns in
    front that end a line alone, and so is the same exactly if there is none. -/
theorem line_ofPlace_eq_iff {offset : Int} (low : 0 ≤ offset) (high : offset ≤ text.length) :
    let line := (ofPlace path text offset annotations).line
    let indexed := ((LineIndex.ofText text).positionOf offset).line + 1
    line = some (indexed - loneReturns text offset.toNat) ∧
      (line = some indexed ↔ ∀ place : Nat, place < offset → ¬ IsLoneReturn text place) := by
  obtain ⟨offset, rfl⟩ := Int.eq_ofNat_of_zero_le low
  intro line indexed
  have told : line = some (indexed - loneReturns text offset) :=
    line_ofPlace path annotations (by exact_mod_cast high)
  have none : (∀ place : Nat, (place : Int) < offset → ¬ IsLoneReturn text place) ↔
      loneReturns text offset = 0 := by
    simp only [loneReturns_eq_zero_iff, Int.ofNat_lt]
  refine ⟨told, ?_⟩
  rw [told, none, Option.some.injEq]
  omega

-- The carriage return behind the first line ends it for the index only; the second one does not stand
-- alone.
theorem line_ofPlace_eq_iff_mixed :
    let text := "a\rb\r\nc".toList
    (0 ≤ (5 : Int) ∧ (5 : Int) ≤ text.length) ∧
      (ofPlace "a.ts" text 5 []).line = some 2 ∧
      ((LineIndex.ofText text).positionOf 5).line + 1 = 3 := by
  intro text
  have low : 0 ≤ (5 : Int) := by decide
  have high : (5 : Int) ≤ text.length := by decide
  have indexed : ((LineIndex.ofText text).positionOf 5).line + 1 = 3 := by decide
  have one : loneReturns text (5 : Int).toNat = 1 := by decide
  have told := (line_ofPlace_eq_iff "a.ts" [] low high).1
  rw [indexed, one] at told
  exact ⟨⟨low, high⟩, told, indexed⟩

theorem return_notMem_unifyFrom (returned : Bool) (text : List Char) :
    '\r' ∉ Text.unifyFrom returned text := by
  induction text generalizing returned with
  | nil => exact List.not_mem_nil
  | cons c rest ih =>
    rw [Text.unifyFrom]
    split
    next => simpa using ih true
    next other =>
      split
      · exact ih false
      · simpa [Ne.symm other] using ih false

/-- In a text that was read from the disk both tell the same line of every place. -/
theorem line_ofPlace_unifyNewlines {offset : Nat}
    (within : offset ≤ (Text.unifyNewlines text).length) :
    (ofPlace path (Text.unifyNewlines text) offset annotations).line =
      some (((LineIndex.ofText (Text.unifyNewlines text)).positionOf offset).line + 1) := by
  have none : loneReturns (Text.unifyNewlines text) offset = 0 :=
    loneReturns_eq_zero_iff.mpr fun _ _ lone =>
      return_notMem_unifyFrom false text (List.mem_of_getElem? lone.1)
  rw [line_ofPlace path annotations within, none, Option.some.injEq]
  omega

end Surroundings

end Marginalia
