import Marginalia.Proofs.Annotation.Quoted
import Marginalia.Proofs.Annotation.Shortened

/-!
# Drafts of annotations

Annotations as an author may write them, with a value between quotes and any texts without a bar as the
description and the items of metadata.  All parts are read where the metadata fits the grammar; where it
does not, what is left depends on the text in front.
-/

namespace Marginalia

open Text (trim trimLeft trimRight allBlank)

/-! ## Tails -/

namespace IsTail

variable {tail : List Char}

theorem append_bar (isTail : IsTail tail) (text : List Char) : IsTail (tail ++ ' ' :: '|' :: text) := by
  cases isTail with
  | nil => exact .bar text
  | bar front => exact .bar _

/-- The tail begins with the first bar behind a text that has none, or with the blank before it. -/
theorem takeWhile_append (isTail : IsTail tail) {front : List Char} (unbarred : '|' ∉ front) :
    ∃ blanks, allBlank blanks = true ∧ (front ++ tail).takeWhile (· ≠ '|') = front ++ blanks ∧
      readEnd? ((front ++ tail).dropWhile (· ≠ '|')) = readEnd? tail := by
  have inside := Text.decide_ne_of_notMem unbarred
  rw [List.takeWhile_append_of_pos inside, List.dropWhile_append_of_pos inside]
  cases isTail with
  | nil => exact ⟨[], rfl, rfl, rfl⟩
  | bar text => exact ⟨[' '], rfl, rfl, (readEnd?_space _).symm⟩

end IsTail

theorem trim_closeDescription (text : List Char) : trim (closeDescription text) = trim text := by
  cases text with
  | nil => rfl
  | cons c rest =>
    obtain ⟨blanks, blank, whole⟩ := Text.exists_trimRight_append rest
    calc trim (c :: trimRight rest) = trim (c :: trimRight rest ++ blanks) :=
          (Text.trim_append_blanks _ blank).symm
      _ = trim (c :: rest) := by rw [List.cons_append, ← whole]

/-- A description is read up to the tail behind it; the blanks at its ends may differ. -/
theorem IsTail.readDescription?_append {tail : List Char} (isTail : IsTail tail) {text : String}
    (unbarred : '|' ∉ text.toList) {metadata : Option (List Char)}
    (read : readEnd? tail = some metadata) : ∃ written, trim written = trim text.toList ∧
      readDescription? (writeDescription (some text) ++ tail) = some (written, metadata) := by
  have dashed : trimLeft (writeDescription (some text) ++ tail) =
      '-' :: (' ' :: text.toList ++ tail) := by
    rw [writeDescription, List.cons_append, Text.trimLeft_space, List.cons_append,
      Text.trimLeft_cons (by decide)]
  have some : (descriptionText? (' ' :: text.toList ++ tail)).isSome = true :=
    isSome_descriptionText?_iff.mpr (by simp)
  obtain ⟨body, found⟩ := Option.isSome_iff_exists.mp some
  have noBar : '|' ∉ ' ' :: text.toList := by simp [unbarred]
  obtain ⟨pad, padBlank, front, back⟩ := isTail.takeWhile_append noBar
  refine ⟨closeDescription (body.takeWhile (· ≠ '|')), ?_, ?_⟩
  · -- Blanks are left out in front of the body, and one may be read behind it.
    obtain ⟨blanks, blank, whole⟩ := exists_append_of_descriptionText? found
    have inFront := Text.decide_ne_of_notMem (Text.notMem_of_allBlank blank (c := '|') (by decide))
    rw [whole, List.takeWhile_append_of_pos inFront] at front
    calc trim (closeDescription (body.takeWhile (· ≠ '|')))
        = trim (blanks ++ body.takeWhile (· ≠ '|')) := by
          rw [trim_closeDescription, Text.trim_blanks_append blank]
      _ = trim text.toList := by rw [front, Text.trim_append_blanks _ padBlank, Text.trim_space]
  · rw [readDescription?_of_dash dashed found, back, read]
    rfl

theorem IsTail.readRest?_append {tail : List Char} (isTail : IsTail tail) {description : Option String}
    (unbarred : ∀ text, description = some text → '|' ∉ text.toList) {metadata : Option (List Char)}
    (read : readEnd? tail = some metadata) : ∃ written : Option (List Char),
      written.map trim = description.map (fun text => trim text.toList) ∧
      readRest? (writeDescription description ++ tail) = some (written, metadata) := by
  cases description with
  | none =>
    refine ⟨none, rfl, ?_⟩
    rw [writeDescription, List.nil_append, readRest?, isTail.readDescription?_eq_none, read]
    rfl
  | some text =>
    obtain ⟨written, trimmed, descriptionRead⟩ :=
      isTail.readDescription?_append (unbarred text rfl) read
    refine ⟨some written, congrArg some trimmed, ?_⟩
    rw [readRest?, descriptionRead]

/-! ## Texts that do not fit -/

/-- Whatever stands in front of its first bar, a text that fits has metadata from there on. -/
theorem FitsRest.dropWhile {text : List Char} (fits : FitsRest text) :
    FitsEnd (text.dropWhile (· ≠ '|')) := by
  cases fits with
  | absent fits => exact fits.dropWhile
  | present isDescription fits =>
    obtain @⟨blanks, body, blank, nonempty, unbarred⟩ := isDescription
    have absent : '|' ∉ blanks ++ '-' :: body := by
      simp [unbarred, Text.notMem_of_allBlank blank (c := '|') (by decide)]
    rw [List.dropWhile_append_of_pos (Text.decide_ne_of_notMem absent)]
    exact fits.dropWhile

theorem allBlank_dropWhile_of_append {test : Char → Bool} {front back : List Char}
    (blank : allBlank ((front ++ back).dropWhile test) = true) :
    allBlank (front.dropWhile test) = true := by
  rw [List.dropWhile_append] at blank
  split at blank
  next nothing =>
    rw [List.isEmpty_iff.mp nothing]
    rfl
  next =>
    rw [allBlank, List.all_append, Bool.and_eq_true] at blank
    exact blank.1

theorem fitsEnd_writeMetadata_of_allBlank {metadata : List String} {more : List Char}
    (blank : allBlank ((writeMetadata metadata ++ more).dropWhile (· ≠ '\n')) = true) :
    FitsEnd (writeMetadata metadata) := by
  have own := allBlank_dropWhile_of_append blank
  cases metadata with
  | nil => exact .absent rfl
  | cons item rest =>
    -- The blank behind the first bar is something on its line already.
    rw [writeMetadata, List.cons_append, fitsEnd_space_iff, List.cons_append, fitsEnd_bar_iff]
    exact ⟨by simp, by simpa [writeMetadata] using own⟩

theorem fitsEnd_writeMetadata_of_append {metadata : List String} {more : List Char}
    (fits : FitsEnd (writeMetadata metadata ++ more)) : FitsEnd (writeMetadata metadata) := by
  cases metadata with
  | nil => exact .absent rfl
  | cons item rest =>
    rw [writeMetadata, List.cons_append, List.cons_append, fitsEnd_space_iff, List.cons_append,
      List.cons_append, fitsEnd_bar_iff] at fits
    apply fitsEnd_writeMetadata_of_allBlank
    simpa [writeMetadata] using fits.2

theorem suffix_dropWhile_append {α : Type} (test : α → Bool) (front back : List α) :
    back.dropWhile test <:+ (front ++ back).dropWhile test := by
  rw [List.dropWhile_append]
  split
  · exact List.suffix_rfl
  · exact (List.dropWhile_suffix test).trans (List.suffix_append _ _)

/-- No text in front makes up for metadata that does not fit, unless a bar in the text takes it in; and
    no bar does so for metadata that goes on in another line. -/
theorem not_fitsRest_append {front text : List Char} (unfit : ¬ FitsEnd ('|' :: text))
    (cut : '|' ∈ front → allBlank (text.dropWhile (· ≠ '\n')) = false) :
    ¬ FitsRest (front ++ '|' :: text) := by
  intro fits
  have ends := fits.dropWhile
  by_cases bar : '|' ∈ front
  · obtain ⟨before, between, rfl, absent⟩ := List.eq_append_cons_of_mem bar
    rw [List.append_assoc, List.cons_append, Text.dropWhile_ne absent, fitsEnd_bar_iff] at ends
    have behind := suffix_dropWhile_append (· ≠ '\n') (between ++ ['|']) text
    rw [List.append_assoc, List.singleton_append] at behind
    have blank : allBlank (text.dropWhile (· ≠ '\n')) = true :=
      List.all_eq_true.mpr fun c member => List.all_eq_true.mp ends.2 c (behind.subset member)
    rw [cut bar] at blank
    cases blank
  · rw [Text.dropWhile_ne bar] at ends
    exact unfit ends

theorem IsTail.not_fitsRest {front tail : List Char} (isTail : IsTail tail) (unfit : ¬ FitsEnd tail)
    (cut : '|' ∈ front → allBlank (tail.dropWhile (· ≠ '\n')) = false) :
    ¬ FitsRest (front ++ tail) := by
  cases isTail with
  | nil => exact absurd (.absent rfl) unfit
  | bar text =>
    have split : front ++ ' ' :: '|' :: text = (front ++ [' ']) ++ '|' :: text := by simp
    rw [split]
    apply not_fitsRest_append (fun fits => unfit (fitsEnd_space_iff.mpr fits))
    intro bar
    exact cut (by simpa using bar)

theorem readRest?_eq_none_iff {text : List Char} : readRest? text = none ↔ ¬ FitsRest text := by
  rw [← isSome_readRest?_iff]
  cases readRest? text <;> simp

theorem readDescription?_of_not_fitsRest {text : List Char} (unfit : ¬ FitsRest text) :
    readDescription? text = none := by
  rw [← isSome_readRest?_iff, isSome_readRest?_iff_or, not_or, Option.not_isSome_iff_eq_none] at unfit
  exact unfit.1

theorem readRest?_paren (text : List Char) : readRest? ('(' :: text) = none := by
  have solid : allBlank ('(' :: text) = false := rfl
  rw [readRest?, readDescription?, readEnd?, Text.trimLeft_cons (by decide), solid]
  rfl

/-! ## Drafts -/

def parenthesize : Option String → List Char
  | none => []
  | some written => '(' :: written.toList ++ [')']

/-- The parts of an annotation as an author may write them: the value between quotes, and any texts
    without a bar as the description and the items of metadata. -/
structure Draft where
  space : String
  value : Option String
  description : Option String
  metadata : List String
  isNamespace : IsNamespace space.toList
  isQuoted : ∀ written, value = some written → IsQuoted written.toList
  descriptionUnbarred : ∀ text, description = some text → '|' ∉ text.toList
  metadataUnbarred : ∀ item ∈ metadata, '|' ∉ item.toList

namespace Draft

variable {draft : Draft} {tail : List Char} {metadata : Option (List Char)} {value : String}

def middle (draft : Draft) : List Char :=
  parenthesize draft.value ++ writeDescription draft.description

/-- The text behind the sigil, with anything in place of the metadata. -/
def behind (draft : Draft) (tail : List Char) : List Char :=
  draft.space.toList ++ (draft.middle ++ tail)

def text (draft : Draft) : List Char :=
  sigil.toList ++ draft.behind (writeMetadata draft.metadata)

theorem bar_notMem_writeDescription (draft : Draft) : '|' ∉ writeDescription draft.description := by
  cases hasDescription : draft.description with
  | none => exact List.not_mem_nil
  | some text => simp [writeDescription, draft.descriptionUnbarred text hasDescription]

theorem bar_notMem_space (draft : Draft) : '|' ∉ draft.space.toList := by
  intro member
  cases draft.isNamespace.forall_mem '|' member

theorem middle_append_of_none (noValue : draft.value = none) (tail : List Char) :
    draft.middle ++ tail = writeDescription draft.description ++ tail := by
  rw [middle, noValue, parenthesize, List.nil_append]

theorem middle_append_of_some (hasValue : draft.value = some value) (tail : List Char) :
    draft.middle ++ tail =
      '(' :: (value.toList ++ ')' :: (writeDescription draft.description ++ tail)) := by
  simp [middle, hasValue, parenthesize]

theorem readNamespace?_behind (draft : Draft) (isTail : IsTail tail) :
    readNamespace? (draft.behind tail) = some draft.space.toList := by
  apply readNamespace?_append draft.isNamespace
  intro c first
  cases hasValue : draft.value with
  | some value =>
    rw [middle_append_of_some hasValue] at first
    cases first
    decide
  | none =>
    rw [middle_append_of_none hasValue] at first
    exact isTail.not_isNamespaceRest_head draft.description c first

theorem read?_behind_eq (draft : Draft) (isTail : IsTail tail) : Parts.read? (draft.behind tail) =
    (readWithValue? draft.space.toList (draft.middle ++ tail)).or
      ((readWithoutValue? draft.space.toList (draft.middle ++ tail)).or
        (readShortened? draft.space.toList (draft.middle ++ tail))) := by
  rw [Parts.read?, draft.readNamespace?_behind isTail, Option.bind_some, behind, List.drop_left]
  simp only [Option.orElse_eq_orElse, Option.orElse_eq_or]

theorem read?_behind (draft : Draft) (isTail : IsTail tail) (read : readEnd? tail = some metadata) :
    ∃ valuePlace written, written.map trim = draft.description.map (fun text => trim text.toList) ∧
      Parts.read? (draft.behind tail) = some ⟨draft.space.toList, draft.value.map String.toList,
        valuePlace, written, metadata⟩ := by
  obtain ⟨written, trimmed, restRead⟩ :=
    isTail.readRest?_append draft.descriptionUnbarred read
  rw [read?_behind_eq draft isTail]
  cases hasValue : draft.value with
  | some value =>
    rw [middle_append_of_some hasValue, readWithValue?, Text.trimLeft_cons (by decide)]
    simp only [List.findSome?_cons, (draft.isQuoted value hasValue).readQuoted?_eq,
      Option.bind_some, restRead, Option.map_some, Option.some_or]
    exact ⟨_, written, trimmed, rfl⟩
  | none =>
    rw [middle_append_of_none hasValue, isTail.readWithValue?_of_no_value, readWithoutValue?, restRead]
    exact ⟨0, written, trimmed, rfl⟩

/-- Nothing but the namespace is read where the metadata does not fit, if there is no value or the
    metadata goes on in another line. -/
theorem read?_behind_eq_none (draft : Draft) (isTail : IsTail tail) (unfit : ¬ FitsEnd tail)
    (cut : draft.value ≠ none → allBlank (tail.dropWhile (· ≠ '\n')) = false) :
    Parts.read? (draft.behind tail) = none := by
  have inFront (front : List Char) (unbarred : '|' ∉ front ∨ draft.value ≠ none) :
      ¬ FitsRest (front ++ tail) :=
    isTail.not_fitsRest unfit fun bar => cut (unbarred.resolve_left (not_not.mpr bar))
  have unbarred : '|' ∉ draft.middle ∨ draft.value ≠ none := by
    by_cases noValue : draft.value = none
    · exact .inl (by simp [middle, noValue, parenthesize, draft.bar_notMem_writeDescription])
    · exact .inr noValue
  have noValue : readWithValue? draft.space.toList (draft.middle ++ tail) = none := by
    cases hasValue : draft.value with
    | none =>
      rw [middle_append_of_none hasValue, isTail.readWithValue?_of_no_value]
    | some value =>
      -- At most an end of the value inside its quotes could be read, and the tail would follow.
      rw [middle_append_of_some hasValue, ← Option.not_isSome_iff_eq_none, Option.isSome_iff_exists]
      rintro ⟨parts, found⟩
      obtain ⟨_, _, front, _, _, fits⟩ := (draft.isQuoted value hasValue).bare_of_readWithValue?
        (inFront _ (.inl draft.bar_notMem_writeDescription)) found
      rw [← List.append_assoc] at fits
      exact inFront _ (.inr (by simp [hasValue])) fits
  have noRest : readWithoutValue? draft.space.toList (draft.middle ++ tail) = none := by
    rw [readWithoutValue?, readRest?_eq_none_iff.mpr (inFront _ unbarred), Option.map_none]
  have noDash : readShortened? draft.space.toList (draft.middle ++ tail) = none := by
    rw [readShortened?_eq_none_iff]
    intro place _
    apply readDescription?_of_not_fitsRest
    rw [← List.append_assoc]
    apply inFront
    refine unbarred.imp_left fun absent => ?_
    have inSpace : '|' ∉ draft.space.toList.drop place :=
      fun member => draft.bar_notMem_space (List.mem_of_mem_drop member)
    simp [absent, inSpace]
  rw [read?_behind_eq draft isTail, noValue, noRest, noDash]
  rfl

/-- Where the metadata behind a value does not fit, another namespace or another value is read, or none. -/
theorem differs_of_read?_behind (isTail : IsTail tail) (unfit : ¬ FitsEnd tail)
    (hasValue : draft.value = some value) {parts : Parts}
    (found : Parts.read? (draft.behind tail) = some parts) :
    parts.space ≠ draft.space.toList ∨
      parts.value.map (fun written => unquote (trim written)) ≠ some (unquote value.toList) := by
  have isQuoted := draft.isQuoted value hasValue
  have noRest : ¬ FitsRest (writeDescription draft.description ++ tail) :=
    isTail.not_fitsRest unfit fun bar => absurd bar draft.bar_notMem_writeDescription
  rw [read?_behind_eq draft isTail, middle_append_of_some hasValue] at found
  simp only [Option.or_eq_some_iff] at found
  rcases found with valued | ⟨_, without | ⟨_, shortened⟩⟩
  · obtain ⟨closes, bare, _, isValue, unclosed, _⟩ := isQuoted.bare_of_readWithValue? noRest valued
    -- The value of the draft has a closing parenthesis, and what is read ends in front of it.
    refine .inr fun same => unclosed ?_
    rw [isValue, Option.map_some, Option.some.injEq] at same
    have member := isQuoted.mem_unquote closes
    rw [← same] at member
    have trimmed := (Text.trimRight_isPrefix _).subset (unquote_subset _ member)
    exact (List.dropWhile_suffix _).subset trimmed
  · rw [readWithoutValue?, readRest?_paren] at without
    cases without
  · -- The namespace ends in front of one of its dashes.
    obtain ⟨place, dash, space, _⟩ := readShortened?_eq_some shortened
    refine .inl fun same => ?_
    have inside := (List.getElem?_eq_some_iff.mp dash).1
    have length := congrArg List.length (space.symm.trans same)
    rw [List.length_take] at length
    omega

end Draft

end Marginalia
