import Marginalia.Text.Search
import Mathlib.Data.List.Infix

/-!
# Occurrences and replacement

What the first occurrence of a text is, where a tail makes no difference to it, and how a replacement
goes on: behind an occurrence, at a place without one, and through a piece that has no character an
occurrence could begin with.
-/

namespace Marginalia.Text

variable {needle replacement : List Char}

/-! ## The first occurrence -/

theorem prefix_of_find? {text : List Char} {place : Nat} (found : find? needle text = some place) :
    needle <+: text.drop place := by
  induction text generalizing place with
  | nil =>
    cases needle with
    | nil => exact List.nil_prefix
    | cons => simp [find?] at found
  | cons c rest ih =>
    rw [find?] at found
    split at found
    next here =>
      cases found
      exact List.isPrefixOf_iff_prefix.mp here
    next =>
      obtain ⟨later, foundLater, rfl⟩ := Option.map_eq_some_iff.mp found
      exact ih foundLater

theorem not_prefix_of_find? {text : List Char} {place earlier : Nat}
    (found : find? needle text = some place) (before : earlier < place) :
    ¬ needle <+: text.drop earlier := by
  induction text generalizing place earlier with
  | nil =>
    cases needle with
    | nil =>
      cases found
      exact absurd before (Nat.not_lt_zero earlier)
    | cons => cases found
  | cons c rest ih =>
    rw [find?] at found
    split at found
    next =>
      cases found
      exact absurd before (Nat.not_lt_zero earlier)
    next apart =>
      obtain ⟨later, foundLater, rfl⟩ := Option.map_eq_some_iff.mp found
      cases earlier with
      | zero => exact fun here => apart (List.isPrefixOf_iff_prefix.mpr here)
      | succ earlier => exact ih foundLater (Nat.lt_of_succ_lt_succ before)

theorem find?_bound {text : List Char} {place : Nat} (found : find? needle text = some place) :
    place + needle.length ≤ text.length := by
  have inside : place ≤ text.length := by
    -- Otherwise the text stands nowhere at or before its end, where already an empty one would.
    refine Nat.le_of_not_lt fun outside => not_prefix_of_find? found outside ?_
    have behind := prefix_of_find? found
    rw [List.drop_of_length_le (Nat.le_of_lt outside), List.prefix_nil] at behind
    exact behind ▸ List.nil_prefix
  have fits := (prefix_of_find? found).length_le
  rw [List.length_drop] at fits
  omega

theorem exists_find?_of_prefix {text : List Char} {place : Nat} (stands : needle <+: text.drop place) :
    ∃ first, find? needle text = some first := by
  induction text generalizing place with
  | nil =>
    rw [List.drop_nil, List.prefix_nil] at stands
    exact ⟨0, by rw [stands]; rfl⟩
  | cons c rest ih =>
    rw [find?]
    split
    next => exact ⟨0, rfl⟩
    next apart =>
      cases place with
      | zero => exact absurd (List.isPrefixOf_iff_prefix.mpr stands) apart
      | succ place =>
        obtain ⟨later, found⟩ := ih stands
        exact ⟨later + 1, by rw [found]; rfl⟩

theorem find?_of_prefix {text : List Char} (front : needle <+: text) :
    find? needle text = some 0 := by
  cases text with
  | nil =>
    rw [List.prefix_nil] at front
    rw [front]
    rfl
  | cons c rest => rw [find?, if_pos (List.isPrefixOf_iff_prefix.mpr front)]

/-! ## In front of a tail -/

/-- What ends with a character that the tail does not have stands in front of the text alone. -/
theorem append_singleton_prefix_append_iff {front tail : List Char} {last : Char}
    (absent : last ∉ tail) (text : List Char) :
    front ++ [last] <+: text ++ tail ↔ front ++ [last] <+: text := by
  constructor
  · intro stands
    rcases List.prefix_or_prefix_of_prefix stands (List.prefix_append text tail) with
      inside | ⟨behind, whole⟩
    · exact inside
    · -- Otherwise it reaches into the tail, where its last character stands.
      rcases List.eq_nil_or_concat behind with rfl | ⟨rest, c, rfl⟩
      · rw [← whole, List.append_nil]
      · rw [List.concat_eq_append, ← List.append_assoc] at whole
        obtain ⟨_, same⟩ := List.append_inj' whole rfl
        obtain rfl := List.singleton_inj.mp same
        rw [← whole, List.append_assoc, List.prefix_append_right_inj] at stands
        exact absurd (stands.subset (by simp)) absent
  · exact fun stands => stands.trans (List.prefix_append text tail)

/-- What does not have the first character of the tail stands in front of the text alone. -/
theorem prefix_append_cons_iff {needle tail : List Char} {first : Char} (absent : first ∉ needle)
    (text : List Char) : needle <+: text ++ first :: tail ↔ needle <+: text := by
  constructor
  · intro stands
    rcases List.prefix_or_prefix_of_prefix stands (List.prefix_append text (first :: tail)) with
      inside | ⟨behind, rfl⟩
    · exact inside
    · cases behind with
      | nil => rw [List.append_nil]
      | cons c rest =>
        rw [List.prefix_append_right_inj, List.cons_prefix_cons] at stands
        exact absurd (by simp [stands.1]) absent
  · exact fun stands => stands.trans (List.prefix_append text (first :: tail))

theorem find?_append {front tail : List Char} {last : Char} (absent : last ∉ tail)
    (text : List Char) : find? (front ++ [last]) (text ++ tail) = find? (front ++ [last]) text := by
  induction text with
  | nil =>
    -- The first occurrence in the tail would have its last character there.
    cases found : find? (front ++ [last]) tail with
    | none => simp [find?, found]
    | some place =>
      have member := (prefix_of_find? found).subset List.mem_concat_self
      exact absurd (List.mem_of_mem_drop member) absent
  | cons c rest ih =>
    have here : front ++ [last] <+: c :: rest ++ tail ↔ front ++ [last] <+: c :: rest :=
      append_singleton_prefix_append_iff absent (c :: rest)
    rw [List.cons_append] at here ⊢
    simp only [find?, List.isPrefixOf_iff_prefix, here, ih]

theorem before?_append {front tail : List Char} {last : Char} (absent : last ∉ tail)
    (text : List Char) :
    before? (front ++ [last]) (text ++ tail) = before? (front ++ [last]) text := by
  rw [before?, before?, find?_append absent]
  cases found : find? (front ++ [last]) text with
  | none => rfl
  | some place =>
    have bound := find?_bound found
    rw [Option.map_some, Option.map_some, List.take_append_of_le_length (by omega)]

/-! ## Replacement -/

theorem replaceFrom_busy (busy : Nat) (text : List Char) :
    replaceFrom needle replacement busy text = replaceAll needle replacement (text.drop busy) := by
  induction text generalizing busy with
  | nil => simp [replaceFrom, replaceAll]
  | cons c rest ih =>
    cases busy with
    | zero => rfl
    | succ busy => rw [replaceFrom, ih, List.drop_succ_cons]

theorem replaceAll_cons {c : Char} {rest : List Char} (apart : ¬ needle <+: c :: rest) :
    replaceAll needle replacement (c :: rest) = c :: replaceAll needle replacement rest := by
  rw [replaceAll, replaceFrom, if_neg (mt List.isPrefixOf_iff_prefix.mp apart)]
  rfl

/-- An occurrence in front is replaced, and the replacement goes on behind it. -/
theorem replaceAll_append (rest : List Char) (nonempty : needle ≠ []) :
    replaceAll needle replacement (needle ++ rest) =
      replacement ++ replaceAll needle replacement rest := by
  obtain ⟨c, more, rfl⟩ := List.exists_cons_of_ne_nil nonempty
  have front : (c :: more).isPrefixOf (c :: (more ++ rest)) = true :=
    List.isPrefixOf_iff_prefix.mpr (List.prefix_append (c :: more) rest)
  rw [List.cons_append, replaceAll, replaceFrom, if_pos front, replaceFrom_busy]
  simp

/-- A piece without the character that occurrences begin with stays as it is. -/
theorem replaceAll_append_of_notMem {first : Char} {more piece : List Char} (rest : List Char)
    (clean : first ∉ piece) :
    replaceAll (first :: more) replacement (piece ++ rest) =
      piece ++ replaceAll (first :: more) replacement rest := by
  induction piece with
  | nil => rfl
  | cons c piece ih =>
    simp only [List.mem_cons, not_or] at clean
    have apart : ¬ first :: more <+: c :: (piece ++ rest) := fun front =>
      clean.1 (List.cons_prefix_cons.mp front).1
    rw [List.cons_append, replaceAll_cons apart, ih clean.2, List.cons_append]

/-- No occurrence reaches across a character that occurrences do not have. -/
theorem replaceAll_append_cons {c : Char} (absent : c ∉ needle) (nonempty : needle ≠ [])
    (front back : List Char) :
    replaceAll needle replacement (front ++ c :: back) =
      replaceAll needle replacement front ++ c :: replaceAll needle replacement back := by
  have positive := List.length_pos_iff.mpr nonempty
  -- An occurrence that was met before may still cover the first characters of the front.
  have covered (busy : Nat) (inside : busy ≤ front.length) :
      replaceFrom needle replacement busy (front ++ c :: back) =
        replaceFrom needle replacement busy front ++ c :: replaceAll needle replacement back := by
    induction front generalizing busy with
    | nil =>
      obtain rfl := Nat.le_zero.mp inside
      have apart : ¬ needle <+: c :: back := by
        intro stands
        obtain ⟨first, more, rfl⟩ := List.exists_cons_of_ne_nil nonempty
        exact absent ((List.cons_prefix_cons.mp stands).1 ▸ List.mem_cons_self)
      exact replaceAll_cons apart
    | cons d front ih =>
      cases busy with
      | succ busy => exact ih busy (Nat.le_of_succ_le_succ inside)
      | zero =>
        have here : needle <+: d :: front ++ c :: back ↔ needle <+: d :: front :=
          prefix_append_cons_iff absent (d :: front)
        rw [List.cons_append] at here
        simp only [List.cons_append, replaceFrom, List.isPrefixOf_iff_prefix, here]
        split
        next stands =>
          have bound := stands.length_le
          rw [List.length_cons] at bound
          rw [ih _ (by omega), List.append_assoc]
        next => rw [ih 0 (Nat.zero_le _), List.cons_append]
  exact covered 0 (Nat.zero_le _)

/-! ## Lines -/

theorem lines_newline (rest : List Char) : lines ('\n' :: rest) = [] :: lines rest := by
  rw [lines, List.splitOn, List.splitOnP_cons_eq_if_modifyHead, if_pos (by decide)]
  rfl

theorem lines_cons {c : Char} (inLine : c ≠ '\n') {rest row : List Char} {more : List (List Char)}
    (split : lines rest = row :: more) : lines (c :: rest) = (c :: row) :: more := by
  rw [lines, List.splitOn] at split
  rw [lines, List.splitOn, List.splitOnP_cons_eq_if_modifyHead, if_neg (by simp [inLine]), split]
  rfl

theorem newline_notMem_of_mem_lines {text row : List Char} (member : row ∈ lines text) : '\n' ∉ row := by
  induction text generalizing row with
  | nil =>
    obtain rfl := List.mem_singleton.mp member
    exact List.not_mem_nil
  | cons c rest ih =>
    by_cases isEnd : c = '\n'
    · rw [isEnd, lines_newline] at member
      rcases List.mem_cons.mp member with rfl | later
      · exact List.not_mem_nil
      · exact ih later
    · obtain ⟨first, more, split⟩ : ∃ first more, lines rest = first :: more :=
        List.exists_cons_of_ne_nil (List.splitOn_ne_nil '\n' rest)
      rw [lines_cons isEnd split] at member
      rw [split] at ih
      rcases List.mem_cons.mp member with rfl | later
      · rw [List.mem_cons, not_or]
        exact ⟨Ne.symm isEnd, ih List.mem_cons_self⟩
      · exact ih (List.mem_cons_of_mem first later)

/-- The first line that has a text is the line of its first occurrence. -/
theorem findIdx?_lines {needle : List Char} (nonempty : needle ≠ []) (oneLine : '\n' ∉ needle)
    (text : List Char) : (lines text).findIdx? (occursIn needle) =
      (find? needle text).map fun place => (text.take place).count '\n' := by
  have nothing : occursIn needle [] = false := by
    rw [occursIn, find?, if_neg (by simpa using nonempty)]
    rfl
  induction text with
  | nil => simp [lines, find?, nonempty, nothing]
  | cons c rest ih =>
    obtain ⟨row, more, split⟩ : ∃ row more, lines rest = row :: more :=
      List.exists_cons_of_ne_nil (List.splitOn_ne_nil '\n' rest)
    by_cases isEnd : c = '\n'
    · subst isEnd
      have apart : ¬ needle <+: '\n' :: rest := by
        intro stands
        obtain ⟨first, more, rfl⟩ := List.exists_cons_of_ne_nil nonempty
        exact oneLine ((List.cons_prefix_cons.mp stands).1 ▸ List.mem_cons_self)
      rw [lines_newline, List.findIdx?_cons, nothing, if_neg Bool.false_ne_true, ih, find?,
        if_neg (mt List.isPrefixOf_iff_prefix.mp apart), Option.map_map, Option.map_map]
      refine congrArg (Option.map · _) (funext fun place => ?_)
      simp [List.take_succ_cons]
    · have here : needle <+: c :: rest ↔ needle <+: c :: row := by
        have whole : ['\n'].intercalate (row :: more) = rest := split ▸ List.intercalate_splitOn '\n'
        cases more with
        | nil => rw [← whole, List.intercalate_singleton]
        | cons next more =>
          rw [← whole, List.intercalate_cons_cons, List.append_assoc, List.singleton_append]
          exact prefix_append_cons_iff oneLine (c :: row)
      rw [split, List.findIdx?_cons] at ih
      rw [lines_cons isEnd split, List.findIdx?_cons, occursIn, find?, find?]
      simp only [List.isPrefixOf_iff_prefix, ← here]
      by_cases stands : needle <+: c :: rest
      · simp [stands]
      · have later : (fun place => ((c :: rest).take place).count '\n') ∘ (· + 1) =
            fun place => (rest.take place).count '\n' :=
          funext fun place => by simp [List.take_succ_cons, List.count_cons_of_ne isEnd]
        rw [if_neg stands, if_neg stands, Option.isSome_map, Option.map_map, later]
        exact ih

end Marginalia.Text
