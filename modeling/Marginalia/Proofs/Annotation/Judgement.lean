import Marginalia.Annotation.Record

/-!
# Judgement of annotations

However an annotation is read, with all its parts or as a namespace alone, it is judged in the same way:
by its namespace, its value and the rules for values.  These rules only say which values may be missing,
so under other rules an annotation has the same parts and, apart from a missing value, the same flaws.
-/

namespace Marginalia

variable {space : String} {value : Option String}

/-! ## Categories -/

section

variable {category : Category}

theorem classify_of_mem (member : space ∈ category.members) : classify space = some category := by
  have known : ∀ space ∈ category.members, classify space = some category := by
    cases category <;> decide
  exact known space member

theorem classify_eq_some_iff : classify space = some category ↔ space ∈ category.members := by
  refine ⟨fun found => ?_, classify_of_mem⟩
  simpa using List.find?_some found

theorem classify_eq_none_iff :
    classify space = none ↔ ∀ category : Category, space ∉ category.members := by
  constructor
  · intro unknown category member
    rw [classify_of_mem member] at unknown
    cases unknown
  · intro unknown
    simp [classify, unknown]

theorem categoryOf_eq_iff : categoryOf space = category ↔
    space ∈ category.members ∨ category = .symbolLevel ∧ ∀ other : Category, space ∉ other.members := by
  rw [categoryOf, ← classify_eq_some_iff, ← classify_eq_none_iff]
  cases classify space <;> simp [eq_comm]

end

/-! ## Flaws -/

namespace ValueRules

/-- The rules find a flaw in a namespace and a value that may be absent. -/
inductive Flags (rules : ValueRules) (space : String) (value : Option String) : Flaw → Prop where
  | unknownNamespace (unknown : ∀ category : Category, space ∉ category.members) :
      Flags rules space value (.unknownNamespace space)
  | invalidLockLevel {level : String} (isLock : space = "lock") (given : value = some level)
      (noLevel : level ∉ lockLevels) : Flags rules space value (.invalidLockLevel level)
  | missingValue (absent : value = none) (notOptional : space ∉ valueOptional)
      (notAlsoOptional : space ∉ rules.alsoOptional) : Flags rules space value (.missingValue space)

theorem mem_judge_iff (rules : ValueRules) {flaw : Flaw} :
    flaw ∈ judge space value ↔ rules.Flags space value flaw ∧ flaw ≠ .missingValue space := by
  constructor
  · intro member
    rcases List.mem_append.mp member with unknown | level
    · split at unknown
      next notKnown =>
        obtain rfl := List.mem_singleton.mp unknown
        exact ⟨.unknownNamespace (classify_eq_none_iff.mp (by simpa using notKnown)), Flaw.noConfusion⟩
      next => cases unknown
    · cases value with
      | none => cases level
      | some own =>
        dsimp only at level
        split at level
        next wrong =>
          obtain rfl := List.mem_singleton.mp level
          simp only [Bool.and_eq_true, decide_eq_true_eq, Bool.not_eq_true'] at wrong
          exact ⟨.invalidLockLevel wrong.1 rfl (by simpa [isLockLevel] using wrong.2), Flaw.noConfusion⟩
        next => cases level
  · rintro ⟨flags, present⟩
    cases flags with
    | unknownNamespace unknown => simp [judge, classify_eq_none_iff.mpr unknown]
    | invalidLockLevel isLock given noLevel => simp [judge, isLock, given, isLockLevel, noLevel]
    | missingValue => exact absurd rfl present

theorem mem_flaws_iff {rules : ValueRules} {flaw : Flaw} :
    flaw ∈ rules.flaws space value ↔ rules.Flags space value flaw := by
  rw [flaws, List.mem_append, mem_judge_iff rules]
  constructor
  · rintro (⟨flags, _⟩ | missing)
    · exact flags
    · split at missing
      next absent =>
        obtain rfl := List.mem_singleton.mp missing
        simp only [isOptional, Bool.and_eq_true, Option.isNone_iff_eq_none, Bool.not_eq_true',
          Bool.or_eq_false_iff] at absent
        exact .missingValue absent.1 (by simpa using absent.2.1) (by simpa using absent.2.2)
      next => cases missing
  · intro flags
    by_cases present : flaw = .missingValue space
    · subst present
      cases flags with
      | missingValue absent notOptional notAlsoOptional =>
        simp [absent, isOptional, notOptional, notAlsoOptional]
    · exact .inl ⟨flags, present⟩

/-- Each flaw is found once at most, and they come in a fixed order. -/
theorem flaws_sublist (rules : ValueRules) (space : String) (value : Option String) :
    (rules.flaws space value).Sublist
      [.unknownNamespace space, .invalidLockLevel (value.getD ""), .missingValue space] := by
  have optionally (flaw : Flaw) (found : Bool) : (if found then [flaw] else []).Sublist [flaw] := by
    cases found <;> simp
  have judged : (judge space value).Sublist
      [.unknownNamespace space, .invalidLockLevel (value.getD "")] := by
    have known := optionally (.unknownNamespace space) (classify space).isNone
    refine known.append ?_
    cases value with
    | none => simp
    | some level => exact optionally _ _
  exact judged.append (optionally _ _)

/-- What is found apart from a missing value does not depend on the rules. -/
theorem filter_flaws (rules : ValueRules) (space : String) (value : Option String) :
    (rules.flaws space value).filter (· ≠ .missingValue space) = judge space value := by
  have kept : (judge space value).filter (· ≠ .missingValue space) = judge space value := by
    rw [List.filter_eq_self]
    intro flaw member
    simpa using ((mem_judge_iff rules).mp member).2
  rw [flaws, List.filter_append, kept]
  split <;> simp

end ValueRules

/-! ## Annotations -/

namespace Annotation

/-- The annotation with the diagnostics that the rules give it. -/
def judgedBy (rules : ValueRules) (note : Annotation) : Annotation :=
  { note with diagnostics := (rules.flaws note.space note.value).map (⟨·, note.range⟩) }

/-- Both ways in which annotations are read end in the same judgement. -/
theorem read?_eq_judgedBy {rules : ValueRules} {content : List Char} {origin : Int} {note : Annotation}
    (found : read? rules content origin = some note) (other : ValueRules) :
    read? other content origin = some (note.judgedBy other) := by
  obtain ⟨place, sigilFound, behind⟩ := Option.bind_eq_some_iff.mp found
  rw [read?, sigilFound, Option.bind_some]
  rw [readBehind?] at behind ⊢
  split at behind
  next parts read =>
    cases behind
    rfl
  next =>
    obtain ⟨space, read, rfl⟩ := Option.map_eq_some_iff.mp behind
    rw [read]
    rfl

/-- The annotation without the diagnostic of a missing value. -/
def forgiven (note : Annotation) : Annotation :=
  { note with diagnostics := note.diagnostics.filter (·.flaw ≠ .missingValue note.space) }

theorem forgiven_judgedBy (rules : ValueRules) (note : Annotation) :
    (note.judgedBy rules).forgiven =
      { note with diagnostics := (ValueRules.judge note.space note.value).map (⟨·, note.range⟩) } := by
  rw [← rules.filter_flaws]
  simp only [judgedBy, forgiven, List.filter_map, Function.comp_def]
  rfl

/-- What the namespace and the value of an annotation make of it: its category, and the diagnostics for
    all that the rules find, each once and at the place of the annotation. -/
structure IsJudged (rules : ValueRules) (note : Annotation) : Prop where
  category : ∀ category, note.category = category ↔ note.space ∈ category.members ∨
    category = .symbolLevel ∧ ∀ other : Category, note.space ∉ other.members
  diagnostic : ∀ diagnostic, diagnostic ∈ note.diagnostics ↔
    rules.Flags note.space note.value diagnostic.flaw ∧ diagnostic.range = note.range
  inOrder : (note.diagnostics.map Diagnostic.flaw).Sublist
    [.unknownNamespace note.space, .invalidLockLevel (note.value.getD ""), .missingValue note.space]
  /-- An unknown namespace is the only flaw that is no error. -/
  severity : ∀ diagnostic ∈ note.diagnostics,
    diagnostic.isError = true ↔ diagnostic.flaw ≠ .unknownNamespace note.space

theorem isJudged_judgedBy (rules : ValueRules) (note : Annotation) :
    (note.judgedBy rules).IsJudged rules := by
  have flagged : ∀ diagnostic, diagnostic ∈ (note.judgedBy rules).diagnostics ↔
      rules.Flags note.space note.value diagnostic.flaw ∧ diagnostic.range = note.range := by
    intro diagnostic
    simp only [judgedBy, List.mem_map, ValueRules.mem_flaws_iff]
    constructor
    · rintro ⟨flaw, flags, rfl⟩
      exact ⟨flags, rfl⟩
    · rintro ⟨flags, range⟩
      exact ⟨diagnostic.flaw, flags, by rw [← range]⟩
  refine ⟨fun _ => categoryOf_eq_iff, flagged, ?_, fun diagnostic member => ?_⟩
  · have flaws := rules.flaws_sublist note.space note.value
    simpa [judgedBy, Function.comp_def] using flaws
  · have flags := ((flagged diagnostic).mp member).1
    rw [Diagnostic.isError]
    show _ ↔ diagnostic.flaw ≠ .unknownNamespace note.space
    cases same : diagnostic.flaw with
    | unknownNamespace other =>
      rw [same] at flags
      cases flags
      simp [Flaw.severity]
    | invalidLockLevel | missingValue => simp [Flaw.severity]
    | missingNamespace | unresolved =>
      rw [same] at flags
      cases flags

/-- The category and the diagnostics of every annotation that is read are told by its namespace, its
    value and the rules; and under other rules the same annotation is read, with no other difference than
    whether a missing value is told. -/
theorem isJudged_of_read? {rules : ValueRules} {content : List Char} {origin : Int} {note : Annotation}
    (found : read? rules content origin = some note) (other : ValueRules) :
    note.IsJudged rules ∧
      ∃ twin, read? other content origin = some twin ∧ twin.forgiven = note.forgiven := by
  have judged : note = note.judgedBy rules :=
    Option.some.inj (found.symm.trans (read?_eq_judgedBy found rules))
  refine ⟨judged ▸ isJudged_judgedBy rules note, _, read?_eq_judgedBy found other, ?_⟩
  calc (note.judgedBy other).forgiven = (note.judgedBy rules).forgiven := by
        rw [forgiven_judgedBy, forgiven_judgedBy]
    _ = note.forgiven := by rw [← judged]

-- The value is not closed, so that the namespace alone is read.
theorem isJudged_of_read?_audit :
    let rules : ValueRules := { alsoOptional := ["audit"] }
    let content := "see @acp:audit(open".toList
    let note : Annotation :=
      { raw := "@acp:audit", space := "audit", range := ⟨14, 24⟩
        diagnostics := [⟨.unknownNamespace "audit", ⟨14, 24⟩⟩] }
    read? rules content 10 = some note ∧ note.IsJudged rules ∧
      ∃ twin, read? {} content 10 = some twin ∧ twin.forgiven = note.forgiven := by
  intro rules content note
  have found : read? rules content 10 = some note := by decide +kernel
  exact ⟨found, isJudged_of_read? found {}⟩

end Annotation

end Marginalia
