import Marginalia.Text.Blank
import Mathlib.Data.List.TakeWhile

/-!
# Trimmed texts

What is taken off a text by trimming it, and which texts stay as they are: those that begin and end
with characters that are not blank.
-/

namespace Marginalia.Text

/-! ## What trimming leaves -/

theorem takeWhile_append_trimLeft (text : List Char) :
    text.takeWhile isBlank ++ trimLeft text = text :=
  List.takeWhile_append_dropWhile

theorem drop_indent (text : List Char) : text.drop (indent text) = trimLeft text := by
  have split := congrArg (List.drop (indent text)) (takeWhile_append_trimLeft text)
  rw [← split]
  exact List.drop_left

theorem exists_append_trimLeft (text : List Char) :
    ∃ blanks, allBlank blanks = true ∧ text = blanks ++ trimLeft text := by
  refine ⟨text.takeWhile isBlank, ?_, (takeWhile_append_trimLeft text).symm⟩
  exact List.all_eq_true.mpr fun c member => List.mem_takeWhile_imp member

theorem trimLeft_append {blanks : List Char} (blank : allBlank blanks = true) (rest : List Char) :
    trimLeft (blanks ++ rest) = trimLeft rest :=
  List.dropWhile_append_of_pos (List.all_eq_true.mp blank)

theorem trimLeft_append_cons (front back : List Char) {c : Char} (solid : isBlank c = false) :
    trimLeft (front ++ c :: back) = trimLeft front ++ c :: back := by
  rw [trimLeft, List.dropWhile_append, trimLeft]
  split
  next blanks =>
    rw [List.isEmpty_iff.mp blanks, List.dropWhile_cons_of_neg (by simp [solid]), List.nil_append]
  next => rfl

theorem notMem_of_allBlank {blanks : List Char} (blank : allBlank blanks = true) {c : Char}
    (solid : isBlank c = false) : c ∉ blanks := by
  intro member
  rw [List.all_eq_true.mp blank c member] at solid
  cases solid

theorem trimRight_isPrefix (text : List Char) : trimRight text <+: text := by
  have suffix := List.dropWhile_suffix (p := isBlank) (l := text.reverse)
  rw [trimRight, ← List.reverse_suffix, List.reverse_reverse]
  exact suffix

/-- Trimming at the end leaves everything up to a character that is not blank. -/
theorem trimRight_append_cons (front back : List Char) {c : Char} (solid : isBlank c = false) :
    trimRight (front ++ c :: back) = front ++ c :: trimRight back := by
  have reversed : (front ++ c :: back).reverse = back.reverse ++ c :: front.reverse := by simp
  rw [trimRight, reversed, List.dropWhile_append, trimRight]
  split
  next blanks =>
    rw [List.isEmpty_iff] at blanks
    rw [blanks, List.dropWhile_cons_of_neg (by simp [solid])]
    simp
  next => simp

/-- Trimming at the end leaves all of a text whose last piece it leaves. -/
theorem trimRight_append_of_ne_nil (front : List Char) {back : List Char} (nonempty : back ≠ [])
    (ends : trimRight back = back) : trimRight (front ++ back) = front ++ back := by
  rw [trimRight, List.reverse_eq_iff] at ends ⊢
  have solid : ¬ back.reverse.isEmpty := by simpa using nonempty
  rw [List.reverse_append, List.dropWhile_append, ends, if_neg solid]

theorem trimRight_append {front back : List Char} (frontEnds : trimRight front = front)
    (backEnds : trimRight back = back) : trimRight (front ++ back) = front ++ back := by
  by_cases nothing : back = []
  · rw [nothing, List.append_nil, frontEnds]
  · exact trimRight_append_of_ne_nil front nothing backEnds

theorem trimRight_of_forall {text : List Char} (solid : ∀ c ∈ text, isBlank c = false) :
    trimRight text = text := by
  rw [trimRight, List.reverse_eq_iff]
  cases reversed : text.reverse with
  | nil => rfl
  | cons c rest =>
    have member : c ∈ text := List.mem_reverse.mp (reversed ▸ List.mem_cons_self)
    exact List.dropWhile_cons_of_neg (by simp [solid c member])

theorem trimLeft_space (text : List Char) : trimLeft (' ' :: text) = trimLeft text :=
  List.dropWhile_cons_of_pos (by decide)

theorem trimLeft_cons {c : Char} (solid : isBlank c = false) (rest : List Char) :
    trimLeft (c :: rest) = c :: rest :=
  List.dropWhile_cons_of_neg (by simp [solid])

theorem trim_space (text : List Char) : trim (' ' :: text) = trim text := by
  rw [trim, trimLeft_space, trim]

/-! ## Blanks at the ends -/

theorem exists_trimRight_append (text : List Char) :
    ∃ blanks, allBlank blanks = true ∧ text = trimRight text ++ blanks := by
  refine ⟨(text.reverse.takeWhile isBlank).reverse, ?_, ?_⟩
  · rw [allBlank, List.all_reverse]
    exact List.all_eq_true.mpr fun c member => List.mem_takeWhile_imp member
  · rw [trimRight, ← List.reverse_append, List.takeWhile_append_dropWhile, List.reverse_reverse]

theorem trimRight_append_blanks (text : List Char) {blanks : List Char}
    (blank : allBlank blanks = true) : trimRight (text ++ blanks) = trimRight text := by
  rw [allBlank, ← List.all_reverse] at blank
  rw [trimRight, List.reverse_append, List.dropWhile_append_of_pos (List.all_eq_true.mp blank), trimRight]

theorem trimRight_trimRight (text : List Char) : trimRight (trimRight text) = trimRight text := by
  obtain ⟨blanks, blank, whole⟩ := exists_trimRight_append text
  calc trimRight (trimRight text)
      = trimRight (trimRight text ++ blanks) := (trimRight_append_blanks _ blank).symm
    _ = trimRight text := by rw [← whole]

theorem trimLeft_eq_nil_iff {text : List Char} : trimLeft text = [] ↔ allBlank text = true := by
  rw [trimLeft, List.dropWhile_eq_nil_iff, allBlank, List.all_eq_true]

theorem trim_append_blanks (text : List Char) {blanks : List Char} (blank : allBlank blanks = true) :
    trim (text ++ blanks) = trim text := by
  rw [trim, trimLeft, List.dropWhile_append]
  split
  next none =>
    have left : trimLeft text = [] := List.isEmpty_iff.mp none
    have right : blanks.dropWhile isBlank = [] := trimLeft_eq_nil_iff.mpr blank
    rw [trim, left, right]
  next => rw [trimRight_append_blanks _ blank, trim, trimLeft]

theorem trim_blanks_append {blanks : List Char} (blank : allBlank blanks = true) (text : List Char) :
    trim (blanks ++ text) = trim text := by
  rw [trim, trimLeft_append blank, trim]

theorem trim_eq_nil_iff {text : List Char} : trim text = [] ↔ allBlank text = true := by
  constructor
  · intro nothing
    obtain ⟨front, frontBlank, whole⟩ := exists_append_trimLeft text
    obtain ⟨back, backBlank, behind⟩ := exists_trimRight_append (trimLeft text)
    rw [← trim, nothing, List.nil_append] at behind
    rw [whole, behind, allBlank, List.all_append, ← allBlank, ← allBlank, frontBlank, backBlank]
    rfl
  · intro blank
    rw [trim, trimLeft_eq_nil_iff.mpr blank]
    rfl

theorem trim_trim (text : List Char) : trim (trim text) = trim text := by
  obtain ⟨front, frontBlank, whole⟩ := exists_append_trimLeft text
  obtain ⟨back, backBlank, behind⟩ := exists_trimRight_append (trimLeft text)
  rw [← trim] at behind
  calc trim (trim text)
      = trim (front ++ (trim text ++ back)) := by
        rw [trim_blanks_append frontBlank, trim_append_blanks _ backBlank]
    _ = trim text := by
        rw [← behind, ← whole]

theorem exists_cons_trimLeft {text : List Char} (solid : allBlank text = false) :
    ∃ c rest, trimLeft text = c :: rest ∧ isBlank c = false := by
  have stops := List.head?_dropWhile_not isBlank text
  rw [← trimLeft] at stops
  cases kept : trimLeft text with
  | nil =>
    rw [trimLeft_eq_nil_iff.mp kept] at solid
    cases solid
  | cons c rest =>
    rw [kept] at stops
    exact ⟨c, rest, rfl, stops⟩

/-- Trimming in front leaves no blanks at the end where there were none. -/
theorem trimRight_trimLeft {text : List Char} (ends : trimRight text = text) :
    trimRight (trimLeft text) = trimLeft text := by
  cases solid : allBlank text with
  | true =>
    rw [trimLeft_eq_nil_iff.mpr solid]
    rfl
  | false =>
    obtain ⟨c, rest, kept, cSolid⟩ := exists_cons_trimLeft solid
    obtain ⟨blanks, -, whole⟩ := exists_append_trimLeft text
    rw [kept] at whole
    rw [whole, trimRight_append_cons _ _ cSolid] at ends
    have restEnds := List.append_cancel_left ends
    have bare := trimRight_append_cons [] rest cSolid
    rwa [List.nil_append, List.nil_append, restEnds, ← kept] at bare

/-! ## Texts that trimming leaves as they are -/

variable {text : List Char}

theorem trimLeft_of_trim (trimmed : trim text = text) : trimLeft text = text := by
  have suffix : trimLeft text <:+ text := List.dropWhile_suffix _
  have shorter := (trimRight_isPrefix (trimLeft text)).length_le
  have same : (trimRight (trimLeft text)).length = text.length := congrArg List.length trimmed
  have longer := suffix.length_le
  exact suffix.eq_of_length (by omega)

theorem trimRight_of_trim (trimmed : trim text = text) : trimRight text = text := by
  rw [trim, trimLeft_of_trim trimmed] at trimmed
  exact trimmed

theorem indent_of_trimLeft (kept : trimLeft text = text) : indent text = 0 := by
  have parts := congrArg List.length (takeWhile_append_trimLeft text)
  rw [kept, List.length_append] at parts
  rw [indent]
  omega

theorem solid_of_trim {c : Char} {rest : List Char} (trimmed : trim (c :: rest) = c :: rest) :
    isBlank c = false := by
  have kept := trimLeft_of_trim trimmed
  rw [trimLeft, List.dropWhile_cons] at kept
  split at kept
  · have shorter := (List.dropWhile_suffix isBlank (l := rest)).length_le
    have longer := congrArg List.length kept
    rw [List.length_cons] at longer
    omega
  next solid => exact Bool.not_eq_true _ ▸ solid

/-! ## Up to a boundary -/

theorem takeWhile_append_of_boundary {p : Char → Bool} {front rest : List Char}
    (inside : ∀ c ∈ front, p c = true) (boundary : ∀ c, rest.head? = some c → p c = false) :
    (front ++ rest).takeWhile p = front := by
  rw [List.takeWhile_append_of_pos inside]
  cases rest with
  | nil => rw [List.takeWhile_nil, List.append_nil]
  | cons c rest => rw [List.takeWhile_cons_of_neg (by simp [boundary c rfl]), List.append_nil]

theorem decide_ne_of_notMem {mark : Char} (absent : mark ∉ text) :
    ∀ c ∈ text, decide (c ≠ mark) = true :=
  fun _ member => decide_eq_true fun same => absent (same ▸ member)

theorem takeWhile_ne {mark : Char} {front : List Char} (absent : mark ∉ front)
    (rest : List Char) : (front ++ mark :: rest).takeWhile (· ≠ mark) = front := by
  rw [List.takeWhile_append_of_pos (decide_ne_of_notMem absent), List.takeWhile_cons_of_neg (by simp),
    List.append_nil]

theorem takeWhile_ne_append (mark : Char) (front rest : List Char) :
    (front ++ mark :: rest).takeWhile (· ≠ mark) = front.takeWhile (· ≠ mark) := by
  induction front with
  | nil => simp
  | cons c front ih =>
    rw [List.cons_append, List.takeWhile_cons, List.takeWhile_cons, ih]

theorem dropWhile_ne {mark : Char} {front : List Char} (absent : mark ∉ front)
    (rest : List Char) : (front ++ mark :: rest).dropWhile (· ≠ mark) = mark :: rest := by
  rw [List.dropWhile_append_of_pos (decide_ne_of_notMem absent), List.dropWhile_cons_of_neg (by simp)]

theorem takeWhile_ne_of_notMem {mark : Char} (absent : mark ∉ text) :
    text.takeWhile (· ≠ mark) = text :=
  List.takeWhile_eq_self_iff.mpr (decide_ne_of_notMem absent)

theorem dropWhile_ne_of_notMem {mark : Char} (absent : mark ∉ text) :
    text.dropWhile (· ≠ mark) = [] :=
  List.dropWhile_eq_nil_iff.mpr (decide_ne_of_notMem absent)

end Marginalia.Text
