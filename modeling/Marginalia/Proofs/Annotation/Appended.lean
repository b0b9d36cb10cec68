import Marginalia.Proofs.Annotation.Draft

/-!
# Segments appended to an annotation

A segment behind a bar at the end of an annotation becomes one more item of its metadata.  The grammar
asks for something on the line behind the first bar and for nothing on the lines below, so there is not
always room for a segment; without room the whole text is read in another way and other parts are lost.
-/

namespace Marginalia

open Text (trim allBlank)

/-! ## What is read of a draft -/

namespace Draft

/-- The annotation has the parts of the draft, as they are told from its written parts. -/
structure IsReadAs (draft : Draft) (tail : List Char) (note : Annotation) : Prop where
  space : note.space = draft.space
  value : note.value = draft.value.map fun written => String.ofList (unquote written.toList)
  description : note.description = draft.description.map fun text => String.ofList (trim text.toList)
  metadata : note.metadata = metadataItems tail

end Draft

namespace Annotation

/-- The annotation has nothing but its namespace. -/
structure IsBare (note : Annotation) : Prop where
  value : note.value = none
  description : note.description = none
  metadata : note.metadata = []

/-- The annotation becomes another one by a segment of metadata more: nothing else changes. -/
structure Gains (before : Annotation) (segment : List Char) (after : Annotation) : Prop where
  space : after.space = before.space
  value : after.value = before.value
  description : after.description = before.description
  metadata : after.metadata = before.metadata ++ tidy segment

variable {rules : ValueRules} {draft : Draft} {tail : List Char} {origin : Int}

theorem read?_sigil_append (rules : ValueRules) (text : List Char) (origin : Int) :
    read? rules (sigil.toList ++ text) origin = readBehind? rules text origin := by
  have found : Text.find? sigil.toList (sigil.toList ++ text) = some 0 :=
    Text.find?_of_prefix (List.prefix_append _ _)
  have rest : (sigil.toList ++ text).drop (0 + sigil.length) = text := by
    rw [Nat.zero_add]
    exact List.drop_left
  rw [read?, found, Option.bind_some, rest, Int.natCast_zero, Int.add_zero]

theorem exists_isReadAs (rules : ValueRules) (draft : Draft) (origin : Int) (isTail : IsTail tail)
    (fits : FitsEnd tail) :
    ∃ note, read? rules (sigil.toList ++ draft.behind tail) origin = some note ∧
      draft.IsReadAs tail note := by
  obtain ⟨metadata, read⟩ := Option.isSome_iff_exists.mp (isSome_readEnd?_iff.mpr fits)
  obtain ⟨valuePlace, written, trimmed, partsRead⟩ := draft.read?_behind isTail read
  rw [read?_sigil_append, readBehind?, partsRead]
  refine ⟨_, rfl, String.ofList_toList, ?_, ?_, metadataItems_of_readEnd? read⟩
  · cases hasValue : draft.value with
    | none => rfl
    | some value => simp [ofParts, (draft.isQuoted value hasValue).trim_eq]
  · have same := congrArg (Option.map String.ofList) trimmed
    rw [Option.map_map, Option.map_map] at same
    exact same

theorem exists_isBare (rules : ValueRules) (draft : Draft) (origin : Int) (isTail : IsTail tail)
    (unfit : ¬ FitsEnd tail)
    (cut : draft.value ≠ none → allBlank (tail.dropWhile (· ≠ '\n')) = false) :
    ∃ note, read? rules (sigil.toList ++ draft.behind tail) origin = some note ∧
      note.space = draft.space ∧ note.IsBare := by
  rw [read?_sigil_append, readBehind?, draft.read?_behind_eq_none isTail unfit cut]
  simp only [draft.readNamespace?_behind isTail, Option.map_some]
  exact ⟨_, rfl, String.ofList_toList, rfl, rfl, rfl⟩

theorem exists_differs (rules : ValueRules) (origin : Int) (isTail : IsTail tail)
    (unfit : ¬ FitsEnd tail) {value : String} (hasValue : draft.value = some value) :
    ∃ note, read? rules (sigil.toList ++ draft.behind tail) origin = some note ∧
      (note.space ≠ draft.space ∨ note.value ≠ some (String.ofList (unquote value.toList))) := by
  rw [read?_sigil_append, readBehind?]
  cases partsRead : Parts.read? (draft.behind tail) with
  | none =>
    simp only [draft.readNamespace?_behind isTail, Option.map_some]
    exact ⟨_, rfl, .inr (Option.some_ne_none _).symm⟩
  | some parts =>
    refine ⟨_, rfl, ?_⟩
    rcases draft.differs_of_read?_behind isTail unfit hasValue partsRead with space | other
    · refine .inl fun same => space ?_
      rw [← same]
      exact String.toList_ofList.symm
    · refine .inr fun same => other ?_
      simpa [ofParts] using congrArg (Option.map String.toList) same

end Annotation

/-! ## Appending a segment -/

namespace Draft

/-- A segment can be appended to the draft without loss. -/
inductive HasRoom (draft : Draft) (segment : List Char) : Prop where
  /-- The metadata with the segment fits the grammar. -/
  | fits (fits : FitsEnd (writeMetadata draft.metadata ++ ' ' :: '|' :: segment)) :
      HasRoom draft segment
  /-- The draft has nothing to lose. -/
  | bare (blank : allBlank segment = true) (noValue : draft.value = none)
      (noDescription : draft.description = none)
      (noItems : ∀ item ∈ draft.metadata, allBlank item.toList = true) : HasRoom draft segment
  /-- The draft has lost everything before. -/
  | unread (blank : allBlank segment = true) (unfit : ¬ FitsEnd (writeMetadata draft.metadata)) :
      HasRoom draft segment

theorem text_append (draft : Draft) (more : List Char) :
    draft.text ++ more = sigil.toList ++ draft.behind (writeMetadata draft.metadata ++ more) := by
  simp [text, behind]

end Draft

namespace Draft.IsReadAs

variable {draft : Draft} {note : Annotation}

theorem isBare_iff (isReadAs : draft.IsReadAs (writeMetadata draft.metadata) note) :
    note.IsBare ↔ draft.value = none ∧ draft.description = none ∧
      ∀ item ∈ draft.metadata, allBlank item.toList = true := by
  have items : note.metadata = [] ↔ ∀ item ∈ draft.metadata, allBlank item.toList = true := by
    rw [isReadAs.metadata, metadataItems_writeMetadata draft.metadataUnbarred, List.flatMap_eq_nil_iff]
    simp only [tidy_eq_nil_iff]
  constructor
  · rintro ⟨value, description, metadata⟩
    rw [isReadAs.value, Option.map_eq_none_iff] at value
    rw [isReadAs.description, Option.map_eq_none_iff] at description
    exact ⟨value, description, items.mp metadata⟩
  · rintro ⟨noValue, noDescription, noItems⟩
    refine ⟨?_, ?_, items.mpr noItems⟩
    · rw [isReadAs.value, noValue, Option.map_none]
    · rw [isReadAs.description, noDescription, Option.map_none]

end Draft.IsReadAs

namespace Annotation

/-- An annotation can only become its namespace alone if it was no more before. -/
theorem IsBare.gains_iff {before after : Annotation} (isBare : after.IsBare)
    (space : after.space = before.space) {segment : List Char} :
    before.Gains segment after ↔ before.IsBare ∧ allBlank segment = true := by
  constructor
  · intro gains
    have nothing := gains.metadata.symm.trans isBare.metadata
    rw [List.append_eq_nil_iff, tidy_eq_nil_iff] at nothing
    refine ⟨⟨?_, ?_, nothing.1⟩, nothing.2⟩
    · rw [← gains.value, isBare.value]
    · rw [← gains.description, isBare.description]
  · rintro ⟨bare, blank⟩
    refine ⟨space, ?_, ?_, ?_⟩
    · rw [isBare.value, bare.value]
    · rw [isBare.description, bare.description]
    · rw [isBare.metadata, bare.metadata, tidy_eq_nil_iff.mpr blank, List.append_nil]

/-- A segment behind a bar at the end of a draft becomes one more item of its metadata, with no other
    change, exactly if the draft has room for it. -/
theorem gains_iff_hasRoom (rules : ValueRules) (draft : Draft) {segment : List Char}
    (unbarred : '|' ∉ segment) (origin : Int) :
    ∃ before after, read? rules draft.text origin = some before ∧
      read? rules (draft.text ++ ' ' :: '|' :: segment) origin = some after ∧
      (before.Gains segment after ↔ draft.HasRoom segment) := by
  have isTail := isTail_writeMetadata draft.metadata
  have isLonger := isTail.append_bar segment
  rw [draft.text_append, Draft.text]
  by_cases fits : FitsEnd (writeMetadata draft.metadata ++ ' ' :: '|' :: segment)
  · obtain ⟨before, beforeRead, isBefore⟩ :=
      exists_isReadAs rules draft origin isTail (fitsEnd_writeMetadata_of_append fits)
    obtain ⟨after, afterRead, isAfter⟩ := exists_isReadAs rules draft origin isLonger fits
    refine ⟨before, after, beforeRead, afterRead, iff_of_true ⟨?_, ?_, ?_, ?_⟩ (.fits fits)⟩
    · rw [isBefore.space, isAfter.space]
    · rw [isBefore.value, isAfter.value]
    · rw [isBefore.description, isAfter.description]
    · rw [isBefore.metadata, isAfter.metadata, metadataItems_append_space_bar,
        metadataItems_of_notMem unbarred]
  · by_cases fitsBefore : FitsEnd (writeMetadata draft.metadata)
    · obtain ⟨before, beforeRead, isBefore⟩ := exists_isReadAs rules draft origin isTail fitsBefore
      cases hasValue : draft.value with
      | some value =>
        -- The value of the draft is not read again, so at least that one is lost.
        obtain ⟨after, afterRead, differs⟩ := exists_differs rules origin isLonger fits hasValue
        refine ⟨before, after, beforeRead, afterRead, iff_of_false (fun gains => ?_) ?_⟩
        · rw [gains.space, gains.value, isBefore.space, isBefore.value, hasValue] at differs
          simp at differs
        · rintro (fitsAfter | ⟨_, noValue, _⟩ | ⟨_, unfit⟩)
          · exact fits fitsAfter
          · cases hasValue.symm.trans noValue
          · exact unfit fitsBefore
      | none =>
        obtain ⟨after, afterRead, space, isBare⟩ := exists_isBare rules draft origin isLonger fits
          (fun has => absurd hasValue has)
        refine ⟨before, after, beforeRead, afterRead, ?_⟩
        rw [isBare.gains_iff (space.trans isBefore.space.symm), isBefore.isBare_iff]
        constructor
        · rintro ⟨⟨noValue, noDescription, noItems⟩, blank⟩
          exact .bare blank noValue noDescription noItems
        · rintro (fitsAfter | ⟨blank, noValue, noDescription, noItems⟩ | ⟨_, unfit⟩)
          · exact absurd fitsAfter fits
          · exact ⟨⟨noValue, noDescription, noItems⟩, blank⟩
          · exact absurd fitsBefore unfit
    · -- The metadata goes on in another line, so that it spoils the draft already.
      have cut (more : List Char) :
          allBlank ((writeMetadata draft.metadata ++ more).dropWhile (· ≠ '\n')) = false :=
        Bool.eq_false_iff.mpr fun blank => fitsBefore (fitsEnd_writeMetadata_of_allBlank blank)
      obtain ⟨before, beforeRead, beforeSpace, beforeBare⟩ :=
        exists_isBare rules draft origin isTail fitsBefore (fun _ => by simpa using cut [])
      obtain ⟨after, afterRead, afterSpace, afterBare⟩ :=
        exists_isBare rules draft origin isLonger fits (fun _ => cut _)
      refine ⟨before, after, beforeRead, afterRead, ?_⟩
      rw [afterBare.gains_iff (afterSpace.trans beforeSpace.symm)]
      constructor
      · rintro ⟨_, blank⟩
        exact .unread blank fitsBefore
      · rintro (fitsAfter | ⟨blank, _⟩ | ⟨blank, _⟩)
        · exact absurd fitsAfter fits
        · exact ⟨beforeBare, blank⟩
        · exact ⟨beforeBare, blank⟩

-- The bar asks for something behind it, so that no reading with the value is left.
theorem gains_iff_hasRoom_lock :
    ∃ draft : Draft, draft.text = "@acp:lock(\"frozen\")".toList ∧ '|' ∉ ([] : List Char) ∧
      ¬ draft.HasRoom [] ∧
      ∃ before after, read? {} draft.text 0 = some before ∧
        read? {} (draft.text ++ " |".toList) 0 = some after ∧
        (before.Gains [] after ↔ draft.HasRoom []) ∧
        before.value = some "frozen" ∧ after.value = none := by
  let draft : Draft :=
    { space := "lock", value := some "\"frozen\"", description := none, metadata := []
      isNamespace := by
        show 'l'.isAlpha = true ∧ ∀ other ∈ ['o', 'c', 'k'], isNamespaceRest other = true
        simp [isNamespaceRest]
      isQuoted := by
        rintro _ ⟨⟩
        have length : quotedLength? '"' "frozen\"".toList = some 7 := by decide
        exact .intro (.inl rfl) (isQuotedRest_of_quotedLength? length)
      descriptionUnbarred := by rintro _ ⟨⟩
      metadataUnbarred := by simp }
  have text : draft.text = "@acp:lock(\"frozen\")".toList := by decide
  have noRoom : ¬ draft.HasRoom [] := by
    rintro (fits | ⟨_, noValue, _⟩ | ⟨_, unfit⟩)
    · exact (fitsEnd_bar_iff.mp (fitsEnd_space_iff.mp fits)).1 rfl
    · cases noValue
    · exact unfit (.absent rfl)
  have unbarred : '|' ∉ ([] : List Char) := List.not_mem_nil
  obtain ⟨before, after, beforeRead, afterRead, same⟩ := gains_iff_hasRoom {} draft unbarred 0
  have beforeValue : (read? {} draft.text 0).map value = some (some "frozen") := by decide +kernel
  have afterValue : (read? {} (draft.text ++ " |".toList) 0).map value = some none := by
    decide +kernel
  refine ⟨draft, text, unbarred, noRoom, before, after, beforeRead, afterRead, same, ?_, ?_⟩
  · rw [beforeRead] at beforeValue
    exact Option.some.inj beforeValue
  · have shown : draft.text ++ " |".toList = draft.text ++ ' ' :: '|' :: [] := rfl
    rw [shown, afterRead] at afterValue
    exact Option.some.inj afterValue

end Annotation

end Marginalia
