import Marginalia.Proofs.Annotation.Layout
import Marginalia.Proofs.Text.Trim

/-!
# Items of metadata

Which items a text of metadata has: one for each segment between its bars, trimmed, if it is not blank.
Blanks at the end of a text add nothing, and what is read of the text at the end of an annotation has all
of its items.
-/

namespace Marginalia

open Text (trim allBlank)

/-! ## Segments -/

/-- The items that a segment of metadata is: one, or none if it is blank. -/
def tidy (segment : List Char) : List String :=
  if allBlank segment then [] else [String.ofList (trim segment)]

theorem metadataItems_append_bar (front back : List Char) :
    metadataItems (front ++ '|' :: back) = metadataItems front ++ metadataItems back := by
  simp [metadataItems, List.splitOn_append_cons_self]

theorem metadataItems_of_notMem {segment : List Char} (unbarred : '|' ∉ segment) :
    metadataItems segment = tidy segment := by
  rw [metadataItems, List.splitOn_eq_singleton unbarred, tidy]
  by_cases blank : allBlank segment = true
  · simp [blank, Text.trim_eq_nil_iff.mpr blank]
  · have some : trim segment ≠ [] := fun nothing => blank (Text.trim_eq_nil_iff.mp nothing)
    simp [blank, some]

theorem tidy_append_blanks (segment : List Char) {blanks : List Char} (blank : allBlank blanks = true) :
    tidy (segment ++ blanks) = tidy segment := by
  have same : allBlank (segment ++ blanks) = allBlank segment := by
    rw [allBlank, List.all_append, ← allBlank, ← allBlank, blank, Bool.and_true]
  rw [tidy, tidy, same, Text.trim_append_blanks _ blank]

/-- Blanks at the end belong to the last item. -/
theorem metadataItems_append_blanks (text : List Char) {blanks : List Char}
    (blank : allBlank blanks = true) : metadataItems (text ++ blanks) = metadataItems text := by
  have noBar : '|' ∉ blanks := Text.notMem_of_allBlank blank (by decide)
  have unbarred (segment : List Char) (absent : '|' ∉ segment) :
      metadataItems (segment ++ blanks) = metadataItems segment := by
    rw [metadataItems_of_notMem absent, metadataItems_of_notMem (by simp [absent, noBar]),
      tidy_append_blanks _ blank]
  by_cases bar : '|' ∈ text
  · obtain ⟨last, before, split, absent⟩ := List.eq_append_cons_of_mem (List.mem_reverse.mpr bar)
    rw [List.reverse_eq_iff, List.reverse_append, List.reverse_cons, List.append_assoc] at split
    rw [split, List.singleton_append, List.append_assoc, List.cons_append, metadataItems_append_bar,
      metadataItems_append_bar, unbarred _ (by simpa using absent)]
  · exact unbarred text bar

theorem metadataItems_of_allBlank {blanks : List Char} (blank : allBlank blanks = true) :
    metadataItems blanks = [] := by
  rw [metadataItems_of_notMem (Text.notMem_of_allBlank blank (by decide)), tidy, if_pos blank]

theorem tidy_eq_nil_iff {segment : List Char} : tidy segment = [] ↔ allBlank segment = true := by
  rw [tidy]
  split
  next blank => simp [blank]
  next some => simp [some]

theorem tidy_space (segment : List Char) : tidy (' ' :: segment) = tidy segment := by
  have blank : allBlank (' ' :: segment) = allBlank segment := rfl
  rw [tidy, blank, Text.trim_space, tidy]

theorem metadataItems_append_space_bar (front back : List Char) :
    metadataItems (front ++ ' ' :: '|' :: back) = metadataItems front ++ metadataItems back := by
  have split : front ++ ' ' :: '|' :: back = (front ++ [' ']) ++ '|' :: back := by simp
  rw [split, metadataItems_append_bar, metadataItems_append_blanks _ (by decide)]

theorem metadataItems_append_writeMetadata (front : List Char) {metadata : List String}
    (unbarred : ∀ item ∈ metadata, '|' ∉ item.toList) :
    metadataItems (front ++ writeMetadata metadata) =
      metadataItems front ++ metadata.flatMap fun item => tidy item.toList := by
  induction metadata generalizing front with
  | nil => simp [writeMetadata]
  | cons item rest ih =>
    obtain ⟨itemUnbarred, restUnbarred⟩ := List.forall_mem_cons.mp unbarred
    have split : front ++ writeMetadata (item :: rest) =
        front ++ ' ' :: '|' :: (' ' :: item.toList ++ writeMetadata rest) := rfl
    have own : metadataItems (' ' :: item.toList) = tidy item.toList := by
      rw [metadataItems_of_notMem (by simp [itemUnbarred]), tidy_space]
    rw [split, metadataItems_append_space_bar, ih (' ' :: item.toList) restUnbarred, own,
      List.flatMap_cons]

theorem metadataItems_writeMetadata {metadata : List String}
    (unbarred : ∀ item ∈ metadata, '|' ∉ item.toList) :
    metadataItems (writeMetadata metadata) = metadata.flatMap fun item => tidy item.toList :=
  metadataItems_append_writeMetadata [] unbarred

/-! ## Reading -/

theorem readEnd?_space (text : List Char) : readEnd? (' ' :: text) = readEnd? text := by
  have blank : allBlank (' ' :: text) = allBlank text := rfl
  rw [readEnd?, Text.trimLeft_space, blank, readEnd?]

theorem readEnd?_bar (text : List Char) :
    readEnd? ('|' :: text) = (readMetadata? ('|' :: text)).map some := by
  rw [readEnd?, Text.trimLeft_cons (by decide)]
  cases readMetadata? ('|' :: text) <;> rfl

theorem exists_append_of_readMetadata? {text line : List Char}
    (found : readMetadata? text = some line) :
    ∃ blanks, allBlank blanks = true ∧ text = '|' :: (line ++ blanks) := by
  rw [readMetadata?.eq_def] at found
  split at found
  next rest =>
    dsimp only at found
    split at found
    next fits =>
      cases found
      rw [Bool.and_eq_true] at fits
      exact ⟨_, fits.2, congrArg _ List.takeWhile_append_dropWhile.symm⟩
    next => cases found
  next => cases found

/-- The metadata that is read at the end of an annotation has all items that are written there. -/
theorem metadataItems_of_readEnd? {text : List Char} {metadata : Option (List Char)}
    (found : readEnd? text = some metadata) : metadataItems (metadata.getD []) = metadataItems text := by
  rw [readEnd?] at found
  split at found
  next line read =>
    cases found
    obtain ⟨front, frontBlank, whole⟩ := Text.exists_append_trimLeft text
    obtain ⟨back, backBlank, behind⟩ := exists_append_of_readMetadata? read
    rw [whole, behind, metadataItems_append_bar, metadataItems_of_allBlank frontBlank, List.nil_append,
      metadataItems_append_blanks _ backBlank, Option.getD_some]
  next =>
    split at found
    next blank =>
      cases found
      exact (metadataItems_of_allBlank blank).symm
    next => cases found

end Marginalia
