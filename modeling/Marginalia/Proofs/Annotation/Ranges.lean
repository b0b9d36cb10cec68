import Marginalia.Annotation.Findings
import Marginalia.Proofs.Comment.Rows
import Marginalia.Proofs.Text.Search
import Marginalia.Proofs.Variable.Dollar

/-!
# Ranges of annotations

The ranges that reading a document gives to annotations are right: the document has the text of the
annotation there, and the texts of the references in its value within that range.
-/

namespace Marginalia

open Text (StandsAt trimLeft trimRight indent isBlank)

/-! ## Where a value is read -/

/-- The value stands in the text behind its blanks, and a closing parenthesis further on, in front of
    the rest. -/
def WrittenValue.StandsIn (written : WrittenValue) (text : List Char) : Prop :=
  ∃ front gap, text = front ++ written.value ++ gap ++ ')' :: written.rest ∧
    front.length = written.blanks

variable {text space : List Char} {written : WrittenValue}

theorem readQuoted?_standsIn (found : readQuoted? text = some written) : written.StandsIn text := by
  rw [readQuoted?] at found
  split at found
  next quote body trimmed =>
    split at found
    · obtain ⟨length, _, closed⟩ := Option.bind_eq_some_iff.mp found
      split at closed
      next rest behind =>
        cases closed
        refine ⟨text.takeWhile isBlank, (body.drop length).takeWhile isBlank, ?_, rfl⟩
        calc text = text.takeWhile isBlank ++ trimLeft text :=
              (Text.takeWhile_append_trimLeft text).symm
          _ = text.takeWhile isBlank ++ quote :: (body.take length ++ body.drop length) := by
              rw [trimmed, List.take_append_drop]
          _ = text.takeWhile isBlank ++ quote :: (body.take length ++
                ((body.drop length).takeWhile isBlank ++ ')' :: rest)) := by
              rw [← behind, Text.takeWhile_append_trimLeft]
          _ = _ := by simp
      · cases closed
    · cases found
  · cases found

theorem readBare?_standsIn (found : readBare? text = some written) : written.StandsIn text := by
  rw [readBare?] at found
  split at found
  next rest behind =>
    cases found
    let inside := (trimLeft text).takeWhile (· ≠ ')')
    obtain ⟨gap, closed⟩ := Text.trimRight_isPrefix inside
    refine ⟨text.takeWhile isBlank, gap, ?_, rfl⟩
    calc text = text.takeWhile isBlank ++ trimLeft text :=
          (Text.takeWhile_append_trimLeft text).symm
      _ = text.takeWhile isBlank ++ (inside ++ ')' :: rest) := by
          rw [← behind, List.takeWhile_append_dropWhile]
      _ = text.takeWhile isBlank ++ ((trimRight inside ++ gap) ++ ')' :: rest) := by rw [closed]
      _ = _ := by simp [inside]
  · cases found

theorem readNamespace?_isPrefix (found : readNamespace? text = some space) : space <+: text := by
  cases text with
  | nil => cases found
  | cons c rest =>
    rw [readNamespace?] at found
    split at found
    · cases found
      exact List.cons_prefix_cons.mpr ⟨rfl, List.takeWhile_prefix _⟩
    · cases found

theorem readWithValue?_stands {rest : List Char} {parts : Parts}
    (found : readWithValue? space rest = some parts) :
    ∃ value front behind, parts.value = some value ∧
      space ++ rest = front ++ value ++ behind ∧ front.length = parts.valuePlace ∧ ')' ∈ behind := by
  rw [readWithValue?] at found
  split at found
  next body opened =>
    obtain ⟨read, readMember, valueRead⟩ := List.exists_of_findSome?_eq_some found
    obtain ⟨written, writtenRead, restRead⟩ := Option.bind_eq_some_iff.mp valueRead
    obtain ⟨_, _, same⟩ := Option.map_eq_some_iff.mp restRead
    have stands : written.StandsIn body := by
      rcases List.mem_pair.mp readMember with rfl | rfl
      · exact readQuoted?_standsIn writtenRead
      · exact readBare?_standsIn writtenRead
    obtain ⟨front, gap, bodyParts, frontLength⟩ := stands
    refine ⟨written.value, space ++ rest.takeWhile isBlank ++ '(' :: front, gap ++ ')' :: written.rest,
      ?_, ?_, ?_, ?_⟩
    · rw [← same]
    · calc space ++ rest = space ++ (rest.takeWhile isBlank ++ '(' :: body) := by
            rw [← opened, Text.takeWhile_append_trimLeft]
        _ = _ := by
            rw [bodyParts]
            simp
    · rw [← same]
      simp [indent, frontLength]
      omega
    · simp
  · cases found

/-- The value of an annotation stands behind the sigil where its place says, and a closing
    parenthesis stands behind it. -/
theorem Parts.value_stands {parts : Parts} {value : List Char}
    (found : Parts.read? text = some parts) (hasValue : parts.value = some value) :
    ∃ front behind, text = front ++ value ++ behind ∧ front.length = parts.valuePlace ∧
      ')' ∈ behind := by
  obtain ⟨space, spaceRead, partsRead⟩ := Option.bind_eq_some_iff.mp found
  have whole : space ++ text.drop space.length = text :=
    List.prefix_iff_eq_append.mp (readNamespace?_isPrefix spaceRead)
  -- Only the first of the three readings finds a value.
  simp only [Option.orElse_eq_orElse, Option.orElse_eq_or, Option.or_eq_some_iff] at partsRead
  rcases partsRead with withValue | ⟨_, withoutValue | ⟨_, shortened⟩⟩
  · obtain ⟨other, front, behind, same, stands, place, closed⟩ := readWithValue?_stands withValue
    obtain rfl := Option.some.inj (hasValue.symm.trans same)
    exact ⟨front, behind, whole.symm.trans stands, place, closed⟩
  · obtain ⟨_, _, rfl⟩ := Option.map_eq_some_iff.mp withoutValue
    cases hasValue
  · obtain ⟨_, _, read⟩ := List.exists_of_findSome?_eq_some shortened
    obtain ⟨_, _, rfl⟩ := Option.map_eq_some_iff.mp read
    cases hasValue

/-! ## References -/

theorem standsAt_of_mem_referencesIn {origin : Int} {reference : Reference}
    (member : reference ∈ referencesIn text origin) :
    ∃ start : Nat, StandsAt reference.raw.toList start text ∧
      start + reference.raw.length ≤ text.length ∧
      reference.range = ⟨origin + start, origin + start + reference.raw.length⟩ := by
  obtain ⟨hit, hitMember, found⟩ := List.mem_filterMap.mp member
  obtain ⟨inside, read⟩ := Text.read_of_mem_hits hitMember
  obtain ⟨_, length, whole⟩ := readDollar_eq_some read
  rw [Reference.ofHit?] at found
  cases token : hit.token with
  | escaped =>
    rw [token] at found
    cases found
  | reference name modifier =>
    rw [token] at found whole length
    cases found
    refine ⟨hit.start, ?_, ?_, ?_⟩
    · rw [String.toList_ofList]
      exact ⟨_, whole.symm⟩
    · have bound := congrArg List.length whole
      simp only [DollarToken.spell, List.length_append, List.length_drop] at bound
      simp only [String.length_ofList]
      omega
    · simp only [String.length_ofList, Range.mk.injEq, true_and, Text.Hit.stop, length,
        DollarToken.spell]
      omega

/-! ## Annotations -/

/-- The ranges of an annotation are right in a document: the document has the text of the annotation
    there, and in it the texts of the references; and every diagnostic has the range of the
    annotation. -/
structure Annotation.StandsIn (note : Annotation) (document : List Char) : Prop where
  raw : note.range.slice document = note.raw.toList
  reference : ∀ reference ∈ note.references,
    reference.range.slice document = reference.raw.toList ∧
      note.range.start ≤ reference.range.start ∧ reference.range.stop ≤ note.range.stop
  diagnostic : ∀ diagnostic ∈ note.diagnostics, diagnostic.range = note.range

theorem trimRight_sigil (text : List Char) :
    trimRight (sigil.toList ++ text) = sigil.toList ++ trimRight text := by
  have last : sigil.toList ++ text = "@acp".toList ++ ':' :: text := rfl
  rw [last, Text.trimRight_append_cons _ _ (by decide)]
  rfl

namespace Annotation

variable {rules : ValueRules} {document : List Char} {place : Nat}

/-- A reference in a value stands in the document, within the text of the annotation. -/
theorem standsAt_reference {value front behind : List Char} {reference : Reference}
    (stands : StandsAt (sigil.toList ++ text) place document)
    (whole : text = front ++ value ++ behind) (closed : ')' ∈ behind)
    (member : reference ∈ referencesIn value (place + sigil.length + front.length)) :
    ∃ start : Nat, StandsAt reference.raw.toList start document ∧
      reference.range = ⟨start, start + reference.raw.toList.length⟩ ∧ place ≤ start ∧
      start + reference.raw.toList.length ≤ place + (trimRight (sigil.toList ++ text)).length := by
  obtain ⟨start, inValue, inside, range⟩ := standsAt_of_mem_referencesIn member
  obtain ⟨gap, rest, rfl⟩ := List.append_of_mem closed
  have valueStands : StandsAt value (place + sigil.toList.length + front.length) document := by
    rw [whole, List.append_assoc] at stands
    exact stands.append_right.append_right.of_isPrefix (List.prefix_append _ _)
  -- The closing parenthesis is not blank, so trimming leaves the whole value in front of it.
  have long : front.length + value.length ≤ (trimRight text).length := by
    rw [whole, ← List.append_assoc, Text.trimRight_append_cons _ _ (by decide)]
    simp only [List.length_append]
    omega
  refine ⟨_, inValue.trans valueStands, ?_, by omega, ?_⟩
  · rw [range]
    simp only [String.length_toList, Int.natCast_add]
  · rw [← String.length_toList] at inside
    rw [trimRight_sigil, List.length_append]
    omega

theorem standsIn_ofParts {parts : Parts} (stands : StandsAt (sigil.toList ++ text) place document)
    (found : Parts.read? text = some parts) : (ofParts rules text place parts).StandsIn document := by
  constructor
  · simp only [ofParts, String.toList_ofList]
    exact stands.trimRight.slice
  · intro reference member
    cases hasValue : parts.value with
    | none => simp [ofParts, hasValue] at member
    | some value =>
      obtain ⟨front, behind, whole, frontLength, closed⟩ := Parts.value_stands found hasValue
      simp only [ofParts, hasValue, ← frontLength] at member
      obtain ⟨start, inDocument, range, after, within⟩ :=
        standsAt_reference stands whole closed member
      rw [range]
      simp only [ofParts]
      refine ⟨inDocument.slice, ?_, ?_⟩
      · omega
      · omega
  · intro diagnostic member
    obtain ⟨flaw, _, rfl⟩ := List.mem_map.mp member
    rfl

theorem standsIn_ofNamespace {space : List Char}
    (stands : StandsAt (sigil.toList ++ space) place document) :
    (ofNamespace rules space place).StandsIn document := by
  constructor
  · simp only [ofNamespace, String.toList_ofList]
    exact stands.slice
  · exact fun _ member => absurd member List.not_mem_nil
  · intro diagnostic member
    obtain ⟨flaw, _, rfl⟩ := List.mem_map.mp member
    rfl

end Annotation

/-! ## Documents -/

/-- The texts of a comment that can have an annotation stand in the text. -/
theorem Comment.StandsIn.units {comment : Comment} (stands : comment.StandsIn text) :
    ∀ row ∈ comment.units, row.StandsIn text := by
  intro row member
  have candidate := (List.mem_filter.mp member).1
  cases kind : comment.kind with
  | doc =>
    rw [kind] at candidate
    exact stands.rows row candidate
  | line | block =>
    rw [kind] at candidate
    obtain rfl := List.mem_singleton.mp candidate
    exact stands.content (by simp [kind])

/-- An annotation is read of what stands behind the first sigil. -/
theorem Annotation.exists_readBehind? {rules : ValueRules} {origin : Int} {note : Annotation}
    (found : read? rules text origin = some note) :
    ∃ place behind, Text.find? sigil.toList text = some place ∧
      sigil.toList ++ behind = text.drop place ∧
      readBehind? rules behind (origin + (place : Nat)) = some note := by
  obtain ⟨place, sigilFound, readBehind⟩ := Option.bind_eq_some_iff.mp found
  obtain ⟨behind, whole⟩ := Text.prefix_of_find? sigilFound
  have rest : text.drop (place + sigil.length) = behind := by
    rw [← List.drop_drop, ← whole]
    exact List.drop_left
  exact ⟨place, behind, sigilFound, whole, rest ▸ readBehind⟩

theorem Row.standsIn_of_read {rules : ValueRules} {document : List Char} {row : Row}
    {note : Annotation} (stands : row.StandsIn document) (found : row.read rules = .ok note) :
    note.StandsIn document := by
  rw [Row.read] at found
  cases read : Annotation.read? rules row.text row.start with
  | none =>
    rw [read] at found
    cases found
  | some own =>
    rw [read] at found
    cases found
    obtain ⟨place, behind, _, whole, readBehind⟩ := Annotation.exists_readBehind? read
    have sigilStands : StandsAt (sigil.toList ++ behind) (row.start + place) document := by
      rw [whole]
      exact stands.drop place
    rw [← Int.natCast_add, Annotation.readBehind?] at readBehind
    split at readBehind
    next parts partsRead =>
      cases readBehind
      exact Annotation.standsIn_ofParts sigilStands partsRead
    next =>
      obtain ⟨space, spaceRead, rfl⟩ := Option.map_eq_some_iff.mp readBehind
      refine Annotation.standsIn_ofNamespace (sigilStands.of_isPrefix ?_)
      exact (List.prefix_append_right_inj _).mpr (readNamespace?_isPrefix spaceRead)

namespace Findings

/-- The ranges of all annotations that reading a document finds are right, in every language and under
    all rules for values. -/
theorem standsIn_of_mem_annotations {rules : ValueRules} {languageName : String}
    {document : List Char} {note : Annotation}
    (member : note ∈ (ofText rules languageName document).annotations) :
    note.StandsIn document := by
  obtain ⟨outcome, outcomeMember, succeeded⟩ := List.mem_filterMap.mp member
  obtain ⟨comment, commentMember, unitMember⟩ := List.mem_flatMap.mp outcomeMember
  obtain ⟨row, rowMember, rfl⟩ := List.mem_map.mp unitMember
  have rowStands : row.StandsIn document :=
    (standsIn_of_mem_commentsIn commentMember).units row rowMember
  cases read : row.read rules with
  | error diagnostic =>
    rw [read] at succeeded
    cases succeeded
  | ok own =>
    rw [read] at succeeded
    cases succeeded
    exact Row.standsIn_of_read rowStands read

theorem standsIn_of_mem_annotations_go :
    let document := "/**\n *\t@acp:go($RUN) - fast \n */".toList
    let note : Annotation :=
      { raw := "@acp:go($RUN) - fast", space := "go", value := some "$RUN"
        description := some "fast", range := ⟨7, 27⟩
        references := [⟨"$RUN", "RUN", none, ⟨15, 19⟩⟩]
        diagnostics := [⟨.unknownNamespace "go", ⟨7, 27⟩⟩] }
    note ∈ (ofText {} "java" document).annotations ∧ note.StandsIn document := by
  intro document note
  have member : note ∈ (ofText {} "java" document).annotations := by decide +kernel
  exact ⟨member, standsIn_of_mem_annotations member⟩

end Findings

end Marginalia
