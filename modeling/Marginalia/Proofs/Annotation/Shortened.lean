import Marginalia.Proofs.Annotation.Grammar

/-!
# Namespaces that give way

A dash can go on with a namespace, and it can begin a description.  Where the text behind the letters,
digits and dashes in front does not fit the grammar, the namespace gives way to a description, at the
last dash behind which one fits; only where there is no such dash all of them are the namespace.
-/

namespace Marginalia

open Text (trimLeft allBlank)

/-- The letters, digits and dashes in front of a text. -/
def namespaceRun (text : List Char) : List Char :=
  text.takeWhile isNamespaceRest

/-- What is read as the namespace in front of a text: as many of its letters, digits and dashes as
    leave a text that fits the grammar, and all of them if no number does. -/
structure IsReadAsNamespace (text space : List Char) : Prop where
  nonempty : space ≠ []
  isPrefix : space <+: namespaceRun text
  longest : ∀ longer, space.length < longer → longer ≤ (namespaceRun text).length →
    ¬ Fits (text.drop longer)
  fits : Fits (text.drop space.length) ∨ space = namespaceRun text ∧
    ∀ length, 0 < length → length ≤ (namespaceRun text).length → ¬ Fits (text.drop length)

/-! ## Dashes -/

theorem mem_dashes_iff {space : List Char} {place : Nat} :
    place ∈ dashes space ↔ space[place]? = some '-' := by
  rw [dashes, List.mem_reverse, List.mem_filter, List.mem_range, decide_eq_true_eq]
  refine and_iff_right_of_imp fun dash => ?_
  exact (List.getElem?_eq_some_iff.mp dash).1

theorem pairwise_dashes (space : List Char) : (dashes space).Pairwise (· > ·) := by
  rw [dashes, List.pairwise_reverse]
  exact (List.pairwise_lt_range).filter _

section

variable {space text : List Char}

theorem readShortened?_eq_none_iff : readShortened? space text = none ↔
    ∀ place, space[place]? = some '-' → readDescription? (space.drop place ++ text) = none := by
  rw [readShortened?, List.findSome?_eq_none_iff]
  simp only [mem_dashes_iff, Option.map_eq_none_iff]

/-- A namespace gives way at the last dash that begins a description. -/
theorem readShortened?_eq_some {parts : Parts} (found : readShortened? space text = some parts) :
    ∃ place, space[place]? = some '-' ∧ parts.space = space.take place ∧ parts.value = none ∧
      parts.description.isSome = true ∧
      (readDescription? (space.drop place ++ text)).isSome = true ∧
      ∀ later, place < later → space[later]? = some '-' →
        readDescription? (space.drop later ++ text) = none := by
  obtain ⟨front, place, back, split, read, unread⟩ := List.findSome?_eq_some_iff.mp found
  obtain ⟨both, description, rfl⟩ := Option.map_eq_some_iff.mp read
  have member : place ∈ dashes space := by simp [split]
  refine ⟨place, mem_dashes_iff.mp member, rfl, rfl, rfl, Option.isSome_of_eq_some description, ?_⟩
  intro later behind dash
  -- The dashes stand in order, so a later one was tried before.
  have laterMember := mem_dashes_iff.mpr dash
  have ordered := pairwise_dashes space
  rw [split] at laterMember ordered
  rcases List.mem_append.mp laterMember with inFront | notInFront
  · exact Option.map_eq_none_iff.mp (unread later inFront)
  · rcases List.mem_cons.mp notInFront with rfl | inBack
    · exact absurd behind (Nat.lt_irrefl later)
    · have before := List.rel_of_pairwise_cons (List.pairwise_append.mp ordered).2.1 inBack
      omega

end

/-! ## Parts of the longest namespace -/

/-- A text that goes on with a letter, a digit or a dash fits only as a description. -/
theorem fits_cons_iff {c : Char} (inSpace : isNamespaceRest c = true) (rest : List Char) :
    Fits (c :: rest) ↔ c = '-' ∧ (readDescription? (c :: rest)).isSome = true := by
  have trimmed : trimLeft (c :: rest) = c :: rest :=
    Text.trimLeft_cons (isBlank_of_isNamespaceRest inSpace) rest
  constructor
  · intro fits
    have noValue : readWithValue? [] (c :: rest) = none := by
      rw [readWithValue?, trimmed]
      split
      next opens =>
        cases opens
        cases inSpace
      next => rfl
    have noEnd : readEnd? (c :: rest) = none := by
      have noBar : c ≠ '|' := by
        rintro rfl
        cases inSpace
      have solid : allBlank (c :: rest) = false := by
        simp [allBlank, isBlank_of_isNamespaceRest inSpace]
      simp [readEnd?, trimmed, readMetadata?, noBar, solid]
    have read := @isSome_read?_iff (c :: rest) [] |>.mpr fits
    rw [noValue, readWithoutValue?, Option.isSome_map, isSome_readRest?_iff_or, noEnd] at read
    have found : (readDescription? (c :: rest)).isSome = true := by simpa using read
    refine ⟨?_, found⟩
    rw [readDescription?, trimmed] at found
    split at found
    next dash => exact (List.cons.inj dash).1
    next => cases found
  · rintro ⟨_, found⟩
    exact .absent (isSome_readRest?_iff.mp (isSome_readRest?_iff_or.mpr (.inl found)))

variable {text : List Char}

theorem namespaceRun_append (text : List Char) :
    namespaceRun text ++ text.drop (namespaceRun text).length = text := by
  have prefixed := List.takeWhile_prefix isNamespaceRest (l := text)
  exact (List.prefix_iff_eq_append.mp prefixed)

theorem drop_namespaceRun {place : Nat} (inside : place ≤ (namespaceRun text).length) :
    (namespaceRun text).drop place ++ text.drop (namespaceRun text).length = text.drop place := by
  have whole := congrArg (List.drop place) (namespaceRun_append text)
  rwa [List.drop_append_of_le_length inside] at whole

/-- Inside the longest namespace, the text fits only from a dash on, as a description. -/
theorem fits_drop_iff {place : Nat} (inside : place < (namespaceRun text).length) :
    Fits (text.drop place) ↔ (namespaceRun text)[place]? = some '-' ∧
      (readDescription? (text.drop place)).isSome = true := by
  have next : text.drop place =
      (namespaceRun text)[place] :: ((namespaceRun text).drop (place + 1) ++
        text.drop (namespaceRun text).length) := by
    rw [← drop_namespaceRun (Nat.le_of_lt inside), List.drop_eq_getElem_cons inside, List.cons_append]
  have inSpace : isNamespaceRest (namespaceRun text)[place] = true :=
    List.mem_takeWhile_imp (List.getElem_mem inside)
  rw [next, fits_cons_iff inSpace, List.getElem?_eq_getElem inside, Option.some.injEq]

theorem not_fits_drop (unfit : ¬ Fits (text.drop (namespaceRun text).length)) {place : Nat}
    (inside : place ≤ (namespaceRun text).length)
    (unread : (namespaceRun text)[place]? = some '-' → readDescription? ((namespaceRun text).drop place
      ++ text.drop (namespaceRun text).length) = none) :
    ¬ Fits (text.drop place) := by
  rcases Nat.lt_or_eq_of_le inside with before | rfl
  · rw [fits_drop_iff before]
    rintro ⟨dash, found⟩
    rw [← drop_namespaceRun inside, unread dash] at found
    cases found
  · exact unfit

theorem isReadAsNamespace_run (nonempty : namespaceRun text ≠ [])
    (kept : Fits (text.drop (namespaceRun text).length) ∨
      ∀ length, 0 < length → length ≤ (namespaceRun text).length → ¬ Fits (text.drop length)) :
    IsReadAsNamespace text (namespaceRun text) where
  nonempty := nonempty
  isPrefix := List.prefix_rfl
  longest _ behind inside := absurd inside (Nat.not_le_of_lt behind)
  fits := kept.imp_right fun unfit => ⟨rfl, unfit⟩

/-- Where the longest namespace gives way to a description, the text fits from the dash on, and behind
    no longer namespace. -/
theorem isReadAsNamespace_of_dash (starts : (namespaceRun text)[0]? ≠ some '-')
    (unfit : ¬ Fits (text.drop (namespaceRun text).length)) {parts : Parts}
    (found : readShortened? (namespaceRun text) (text.drop (namespaceRun text).length) =
      some parts) :
    IsReadAsNamespace text parts.space ∧ parts.space ++ ['-'] <+: namespaceRun text ∧
      parts.value = none ∧ parts.description.isSome = true := by
  obtain ⟨place, dash, space, value, description, read, unread⟩ := readShortened?_eq_some found
  obtain ⟨inside, isDash⟩ := List.getElem?_eq_some_iff.mp dash
  have size : (parts.space).length = place := by
    rw [space, List.length_take_of_le (Nat.le_of_lt inside)]
  have positive : 0 < place := by
    refine Nat.pos_of_ne_zero fun atStart => starts ?_
    rw [← atStart, dash]
  refine ⟨⟨?_, ?_, ?_, ?_⟩, ?_, value, description⟩
  · exact List.ne_nil_of_length_pos (size ▸ positive)
  · exact space ▸ List.take_prefix place _
  · intro longer behind within
    exact not_fits_drop unfit within (unread longer (size ▸ behind))
  · rw [drop_namespaceRun (Nat.le_of_lt inside)] at read
    exact .inl (size ▸ (fits_drop_iff inside).mpr ⟨dash, read⟩)
  · rw [space, ← isDash, List.take_concat_get']
    exact List.take_prefix _ _

/-! ## Annotations -/

theorem space_of_readWithValue? {space : List Char} {parts : Parts}
    (found : readWithValue? space text = some parts) : parts.space = space := by
  rw [readWithValue?] at found
  split at found
  next =>
    obtain ⟨read, _, partsRead⟩ := List.exists_of_findSome?_eq_some found
    obtain ⟨written, _, restRead⟩ := Option.bind_eq_some_iff.mp partsRead
    obtain ⟨both, _, rfl⟩ := Option.map_eq_some_iff.mp restRead
    rfl
  next => cases found

section

variable {c : Char} {rest : List Char}

theorem namespaceRun_cons (letter : c.isAlpha = true) (rest : List Char) :
    namespaceRun (c :: rest) = c :: rest.takeWhile isNamespaceRest := by
  have inSpace : isNamespaceRest c = true := by simp [isNamespaceRest, Char.isAlphanum, letter]
  rw [namespaceRun, List.takeWhile_cons_of_pos inSpace]

theorem readNamespace?_eq_namespaceRun (letter : c.isAlpha = true) (rest : List Char) :
    readNamespace? (c :: rest) = some (namespaceRun (c :: rest)) := by
  rw [readNamespace?, if_pos letter, namespaceRun_cons letter]

namespace Parts

theorem read?_eq_or (letter : c.isAlpha = true) (rest : List Char) : read? (c :: rest) =
    let run := namespaceRun (c :: rest)
    let behind := (c :: rest).drop run.length
    (readWithValue? run behind).or ((readWithoutValue? run behind).or (readShortened? run behind)) := by
  rw [read?, readNamespace?_eq_namespaceRun letter, Option.bind_some]
  simp only [Option.orElse_eq_orElse, Option.orElse_eq_or]

/-- An annotation has the namespace behind which its text fits, and where that is not the longest one,
    a description in place of the rest. -/
theorem isReadAsNamespace_of_read? (letter : c.isAlpha = true) {parts : Parts}
    (found : read? (c :: rest) = some parts) :
    IsReadAsNamespace (c :: rest) parts.space ∧ (parts.space ≠ namespaceRun (c :: rest) →
      parts.space ++ ['-'] <+: namespaceRun (c :: rest) ∧ parts.value = none ∧
        parts.description.isSome = true) := by
  have run := namespaceRun_cons letter rest
  have kept (space : parts.space = namespaceRun (c :: rest))
      (fits : Fits ((c :: rest).drop (namespaceRun (c :: rest)).length)) :
      IsReadAsNamespace (c :: rest) parts.space :=
    space ▸ isReadAsNamespace_run (by simp [run]) (.inl fits)
  rw [read?_eq_or letter] at found
  simp only [Option.or_eq_some_iff] at found
  rcases found with valued | ⟨noValue, without | ⟨noRest, shortened⟩⟩
  · have space := space_of_readWithValue? valued
    have fits := isSome_read?_iff.mp (.inl (Option.isSome_of_eq_some valued))
    exact ⟨kept space fits, fun other => absurd space other⟩
  · have fits := isSome_read?_iff.mp (.inr (Option.isSome_of_eq_some without))
    obtain ⟨both, _, rfl⟩ := Option.map_eq_some_iff.mp without
    exact ⟨kept rfl fits, fun other => absurd rfl other⟩
  · have starts : (namespaceRun (c :: rest))[0]? ≠ some '-' := by
      rw [run]
      rintro ⟨⟩
      cases letter
    obtain ⟨reads, gives⟩ :=
      isReadAsNamespace_of_dash starts (not_fits_of_none noValue noRest) shortened
    exact ⟨reads, fun _ => gives⟩

theorem isReadAsNamespace_of_none (letter : c.isAlpha = true) (nothing : read? (c :: rest) = none) :
    IsReadAsNamespace (c :: rest) (namespaceRun (c :: rest)) := by
  rw [read?_eq_or letter] at nothing
  simp only [Option.or_eq_none_iff] at nothing
  obtain ⟨noValue, noRest, noDash⟩ := nothing
  have unfit := not_fits_of_none noValue noRest
  refine isReadAsNamespace_run (by simp [namespaceRun_cons letter]) (.inr fun length _ inside => ?_)
  exact not_fits_drop unfit inside (readShortened?_eq_none_iff.mp noDash length)

end Parts

end

/-- The longest namespace is kept exactly where the text behind it fits, or behind no namespace. -/
theorem IsReadAsNamespace.eq_namespaceRun_iff {space : List Char}
    (reads : IsReadAsNamespace text space) : space = namespaceRun text ↔
      Fits (text.drop (namespaceRun text).length) ∨
        ∀ length, 0 < length → length ≤ (namespaceRun text).length → ¬ Fits (text.drop length) := by
  constructor
  · rintro rfl
    exact reads.fits.imp_right And.right
  · rintro (fits | unfit)
    · refine reads.isPrefix.eq_of_length (Nat.le_antisymm reads.isPrefix.length_le ?_)
      exact Nat.le_of_not_lt fun shorter => reads.longest _ shorter (Nat.le_refl _) fits
    · rcases reads.fits with fits | ⟨same, _⟩
      · have positive := List.length_pos_iff.mpr reads.nonempty
        exact absurd fits (unfit _ positive reads.isPrefix.length_le)
      · exact same

namespace Annotation

/-- What the namespace of an annotation is, told from the text behind its sigil. -/
structure HasNamespace (text : List Char) (note : Annotation) : Prop where
  reads : IsReadAsNamespace text note.space.toList
  whole : note.space.toList = namespaceRun text ↔
    Fits (text.drop (namespaceRun text).length) ∨
      ∀ length, 0 < length → length ≤ (namespaceRun text).length → ¬ Fits (text.drop length)
  shortened : note.space.toList ≠ namespaceRun text →
    note.space.toList ++ ['-'] <+: namespaceRun text ∧ note.value = none ∧
      note.description.isSome = true

/-- Behind the first sigil of a text, a letter begins an annotation.  Its namespace is the longest run
    of letters, digits and dashes, unless the text behind this run does not fit the grammar and from one
    of its dashes on there is a description that does. -/
theorem hasNamespace_of_letter (rules : ValueRules) {content rest : List Char} {place : Nat}
    {c : Char} (found : Text.find? sigil.toList content = some place)
    (behind : content.drop (place + sigil.length) = c :: rest) (letter : c.isAlpha = true)
    (origin : Int) :
    readNamespace? (c :: rest) = some (namespaceRun (c :: rest)) ∧
      ∃ note, read? rules content origin = some note ∧ note.HasNamespace (c :: rest) := by
  refine ⟨readNamespace?_eq_namespaceRun letter rest, ?_⟩
  rw [read?, found, Option.bind_some, behind, readBehind?]
  cases partsRead : Parts.read? (c :: rest) with
  | some parts =>
    obtain ⟨reads, gives⟩ := Parts.isReadAsNamespace_of_read? letter partsRead
    have space : (ofParts rules (c :: rest) (origin + place) parts).space.toList = parts.space :=
      String.toList_ofList
    refine ⟨_, rfl, space.symm ▸ reads, space.symm ▸ reads.eq_namespaceRun_iff, ?_⟩
    rw [space]
    intro shorter
    obtain ⟨dash, value, description⟩ := gives shorter
    refine ⟨dash, ?_, ?_⟩
    · rw [ofParts, value]
      rfl
    · rw [ofParts, Option.isSome_map, description]
  | none =>
    -- The namespace alone is read, and no part of it would have left a fitting text.
    have reads := Parts.isReadAsNamespace_of_none letter partsRead
    have space : (ofNamespace rules (namespaceRun (c :: rest)) (origin + place)).space.toList =
        namespaceRun (c :: rest) := String.toList_ofList
    simp only [readNamespace?_eq_namespaceRun letter, Option.map_some]
    refine ⟨_, rfl, space.symm ▸ reads, space.symm ▸ reads.eq_namespaceRun_iff, ?_⟩
    exact fun other => absurd space other

-- The value is not closed, so that what is left of the longest namespace is read as a description.
theorem hasNamespace_of_letter_lock :
    let content := "see @acp:lock-reason(\"audit pending".toList
    let behind := "lock-reason(\"audit pending".toList
    (Text.find? sigil.toList content = some 4 ∧ content.drop 9 = behind ∧
        namespaceRun behind = "lock-reason".toList) ∧
      ∃ note, read? {} content 0 = some note ∧ note.HasNamespace behind ∧
        note.space = "lock" ∧ note.description = some "reason(\"audit pending" := by
  intro content behind
  have found : Text.find? sigil.toList content = some 4 := by decide
  have dropped : content.drop 9 = behind := by decide
  obtain ⟨_, note, read, has⟩ := hasNamespace_of_letter {} found dropped (by decide) 0
  have parts : (read? {} content 0).map (fun note => (note.space, note.description)) =
      some ("lock", some "reason(\"audit pending") := by
    decide +kernel
  rw [read, Option.map_some, Option.some.injEq] at parts
  obtain ⟨space, description⟩ := Prod.mk.inj parts
  exact ⟨⟨found, dropped, by decide⟩, note, read, has, space, description⟩

end Annotation

end Marginalia
