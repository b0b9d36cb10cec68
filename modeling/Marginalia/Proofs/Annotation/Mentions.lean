import Marginalia.Proofs.Annotation.Ranges
import Marginalia.Proofs.Annotation.RoundTrip
import Marginalia.Proofs.Variable.Divider
import Marginalia.Proofs.Variable.Places

/-!
# The references of a value

An annotation keeps the references of its value as it is written, with quotes and backslashes, while
the value is used without them.  Both mention the same: quotes, backslashes and blanks divide a text,
and what is taken off a value is a divider each time, with another one beside it or at an end.
-/

namespace Marginalia

open Text (trim trimLeft trimRight allBlank isBlank)

/-! ## Dividers -/

variable {c : Char}

theorem isDivider_of_isBlank (blank : isBlank c = true) : IsDivider c := by
  have other {special : Char} (solid : isBlank special = false) : c ≠ special := by
    rintro rfl
    rw [solid] at blank
    cases blank
  refine ⟨⟨?_, other (by decide)⟩, other (by decide)⟩
  by_contra inName
  rw [Bool.not_eq_false, isNameRest, Bool.or_eq_true, decide_eq_true_eq] at inName
  rcases inName with alphanumeric | underscore
  · have solid := isBlank_of_isNamespaceRest (c := c) (by simp [isNamespaceRest, alphanumeric])
    rw [solid] at blank
    cases blank
  · exact other (by decide) underscore

theorem isDivider_of_isQuote (isQuote : c = '"' ∨ c = '\'') : IsDivider c := by
  rcases isQuote with rfl | rfl
  · exact ⟨⟨by decide, by decide⟩, by decide⟩
  · exact ⟨⟨by decide, by decide⟩, by decide⟩

theorem isDivider_backslash : IsDivider '\\' :=
  ⟨⟨by decide, by decide⟩, by decide⟩

/-! ## Values -/

/-- Blanks at the ends are no part of a reference. -/
theorem mentionsIn_trim (text : List Char) : mentionsIn (trim text) = mentionsIn text := by
  have divide {blanks : List Char} (blank : allBlank blanks = true) : ∀ c ∈ blanks, IsDivider c :=
    fun c member => isDivider_of_isBlank (List.all_eq_true.mp blank c member)
  obtain ⟨front, frontBlank, whole⟩ := Text.exists_append_trimLeft text
  obtain ⟨back, backBlank, behind⟩ := Text.exists_trimRight_append (trimLeft text)
  have clean : '$' ∉ front := fun member => (divide frontBlank '$' member).dollar rfl
  calc mentionsIn (trim text) = mentionsIn (trimLeft text) := by
        conv => rhs; rw [behind]
        exact (mentionsIn_append_dividers (divide backBlank) _).symm
    _ = mentionsIn text := by
        conv => rhs; rw [whole]
        exact (mentionsIn_append _ clean).symm

/-- A backslash that is taken off and the character behind it are both dividers. -/
theorem mentionsIn_append_unescape (front text : List Char) :
    mentionsIn (front ++ unescape text) = mentionsIn (front ++ text) := by
  fun_induction unescape text generalizing front with
  | case1 => rfl
  | case2 => rfl
  | case3 c rest isEscaped ih =>
    have divides : IsDivider c := by
      simp only [Bool.or_eq_true, decide_eq_true_eq] at isEscaped
      rcases isEscaped with (isDouble | isSingle) | isBackslash
      · exact isDivider_of_isQuote (.inl isDouble)
      · exact isDivider_of_isQuote (.inr isSingle)
      · exact isBackslash ▸ isDivider_backslash
    rw [mentionsIn_append_divider divides, mentionsIn_append_divider isDivider_backslash]
    exact congrArg _ ((ih []).trans (mentionsIn_append_divider divides [] rest).symm)
  | case4 c rest _ ih =>
    have further := ih (front ++ ['\\'])
    simpa only [List.append_assoc, List.singleton_append] using further
  | case5 c rest _ _ ih =>
    have further := ih (front ++ [c])
    simpa only [List.append_assoc, List.singleton_append] using further

theorem exists_append_of_betweenQuotes? {quote : Char} {text body : List Char}
    (found : betweenQuotes? quote text = some body) :
    ∃ behind, text = body ++ quote :: behind ∧ ∀ c ∈ behind, c = '\n' := by
  rw [betweenQuotes?] at found
  split at found
  next closed =>
    cases found
    obtain ⟨inside, rfl⟩ := List.getLast?_eq_some_iff.mp closed
    exact ⟨[], by rw [List.dropLast_concat], by simp⟩
  next =>
    split at found
    next closed =>
      cases found
      obtain ⟨inside, rfl⟩ := List.getLast?_eq_some_iff.mp closed.1
      rw [List.dropLast_concat] at closed ⊢
      obtain ⟨body, rfl⟩ := List.getLast?_eq_some_iff.mp closed.2
      exact ⟨['\n'], by rw [List.dropLast_concat, List.append_assoc]; rfl, by simp⟩
    next => cases found

/-- Taking quotes and backslashes off a value changes nothing of what it mentions. -/
theorem mentionsIn_unquote (written : List Char) :
    mentionsIn (unquote written) = mentionsIn written := by
  rw [unquote.eq_def]
  split
  next quote rest =>
    split
    next opened =>
      have isQuote : quote = '"' ∨ quote = '\'' := by simpa using opened
      have divides := isDivider_of_isQuote isQuote
      split
      next body found =>
        obtain ⟨behind, rfl, ends⟩ := exists_append_of_betweenQuotes? found
        have divide : ∀ c ∈ quote :: behind, IsDivider c := by
          intro c member
          rcases List.mem_cons.mp member with rfl | later
          · exact divides
          · exact isDivider_of_isBlank (ends c later ▸ by decide)
        calc mentionsIn (unescape body) = mentionsIn body := mentionsIn_append_unescape [] body
          _ = mentionsIn (body ++ quote :: behind) := (mentionsIn_append_dividers divide body).symm
          _ = mentionsIn (quote :: (body ++ quote :: behind)) :=
              (mentionsIn_append_divider divides [] _).symm
      next => rfl
    next => rfl
  next => rfl

/-! ## Annotations -/

/-- What a text mentions does not depend on where it starts in its document. -/
theorem map_mention_referencesIn (text : List Char) (origin : Int) :
    (referencesIn text origin).map Reference.mention = mentionsIn text := by
  rw [mentionsIn, referencesIn, referencesIn, List.map_filterMap, List.map_filterMap]
  congr 1
  funext hit
  obtain ⟨start, length, token⟩ := hit
  cases token <;> rfl

namespace Annotation

variable {rules : ValueRules} {text : List Char} {place : Int} {note : Annotation}

theorem map_mention_references (found : readBehind? rules text place = some note) :
    note.references.map Reference.mention = mentionsIn (note.value.getD "").toList := by
  rw [readBehind?] at found
  split at found
  next parts partsRead =>
    cases found
    cases hasValue : parts.value with
    | none => simp [ofParts, hasValue]
    | some written =>
      simp only [ofParts, hasValue, Option.map_some, Option.getD_some, String.toList_ofList]
      rw [map_mention_referencesIn, mentionsIn_unquote, mentionsIn_trim]
  next =>
    obtain ⟨space, _, rfl⟩ := Option.map_eq_some_iff.mp found
    rfl

theorem raw_of_mem_references (found : readBehind? rules text place = some note) {reference : Reference}
    (member : reference ∈ note.references) :
    reference.raw.toList =
      spellReference reference.name.toList (reference.modifier.map String.toList) := by
  rw [readBehind?] at found
  split at found
  next parts partsRead =>
    cases found
    cases hasValue : parts.value with
    | none => simp [ofParts, hasValue] at member
    | some written =>
      simp only [ofParts, hasValue] at member
      exact Reference.raw_eq member
  next =>
    obtain ⟨space, _, rfl⟩ := Option.map_eq_some_iff.mp found
    cases member

/-- The references that are kept for an annotation are those of its value, as it is used: they mention
    the same names with the same modifiers, from left to right.  Without a value there are none. -/
theorem references_of_read? {origin : Int} (found : read? rules text origin = some note) :
    (∀ value, note.value = some value →
      note.references.map Reference.mention =
        (referencesIn value.toList).map Reference.mention) ∧
      (note.value = none → note.references = []) := by
  obtain ⟨_, _, _, _, readBehind⟩ := exists_readBehind? found
  have same := map_mention_references readBehind
  constructor
  · intro value hasValue
    rw [hasValue] at same
    exact same
  · intro noValue
    rw [noValue] at same
    exact List.map_eq_nil_iff.mp same

theorem references_of_read?_quoted :
    let text := "// @acp:fn( \"$A.full \\\" $$B\\\\$C_1.x.\" )".toList
    let note : Annotation :=
      { raw := "@acp:fn( \"$A.full \\\" $$B\\\\$C_1.x.\" )", space := "fn"
        value := some "$A.full \" $$B\\$C_1.x."
        range := ⟨10, 46⟩
        references := [⟨"$A.full", "A", some "full", ⟨20, 27⟩⟩,
          ⟨"$C_1.x", "C_1", some "x", ⟨36, 42⟩⟩] }
    read? {} text 7 = some note ∧
      note.references.map Reference.mention = [("A", some "full"), ("C_1", some "x")] ∧
      note.references.map Reference.mention =
        (referencesIn "$A.full \" $$B\\$C_1.x.".toList).map Reference.mention := by
  intro text note
  have found : read? {} text 7 = some note := by decide +kernel
  exact ⟨found, by decide +kernel, (references_of_read? found).1 _ rfl⟩

end Annotation

end Marginalia
