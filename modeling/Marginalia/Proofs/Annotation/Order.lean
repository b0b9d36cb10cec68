import Marginalia.Proofs.Annotation.Outcome
import Marginalia.Proofs.Comment.Coverage
import Marginalia.Proofs.Comment.Order

/-!
# Order of annotations

The annotations of a document come in its order and do not overlap.  Nothing sorts them: the comments lie
one behind the other, so do the texts of a comment that can have an annotation, and what is read from such
a text starts at its first sigil and stays within it.
-/

namespace Marginalia

/-! ## Merging -/

/-- A list is the merge of what a test leaves out of it and what it keeps, if the list is in order
    wherever the two meet. -/
theorem merge_filter {α : Type} {le : α → α → Bool} {test : α → Bool} {items : List α}
    (inOrder : items.Pairwise fun front back =>
      test front ≠ test back → le front back = true ∧ le back front = false) :
    (items.filter fun item => !test item).merge (items.filter test) le = items := by
  induction items with
  | nil => simp
  | cons item items ih =>
    obtain ⟨first, others⟩ := List.pairwise_cons.mp inOrder
    have merged := ih others
    -- The item comes before the first one of the other sort, so the merge takes it.
    cases kept : test item with
    | false =>
      rw [List.filter_cons_of_pos (by simp [kept]), List.filter_cons_of_neg (by simp [kept])]
      cases others : items.filter test with
      | nil =>
        rw [others, List.merge_right] at merged
        rw [List.merge_right, merged]
      | cons next more =>
        obtain ⟨member, nextKept⟩ := List.mem_filter.mp (others ▸ List.mem_cons_self)
        have before := (first next member (by simp [kept, nextKept])).1
        rw [others] at merged
        rw [List.cons_merge_cons_pos _ _ _ before, merged]
    | true =>
      rw [List.filter_cons_of_neg (by simp [kept]), List.filter_cons_of_pos kept]
      cases others : items.filter fun item => !test item with
      | nil =>
        rw [others, List.nil_merge] at merged
        rw [List.nil_merge, merged]
      | cons next more =>
        obtain ⟨member, nextOut⟩ := List.mem_filter.mp (others ▸ List.mem_cons_self)
        have behind := (first next member (by simpa [kept] using nextOut)).2
        rw [others] at merged
        rw [List.cons_merge_cons_neg _ _ _ (by simp [behind]), merged]

/-! ## Texts with a sigil -/

/-- An annotation starts at the first sigil, and its text follows from there on. -/
theorem Annotation.raw_of_read? {rules : ValueRules} {text : List Char} {origin : Int}
    {note : Annotation} (found : read? rules text origin = some note) :
    ∃ place : Nat, Text.find? sigil.toList text = some place ∧ sigil.toList <+: note.raw.toList ∧
      note.raw.toList <+: text.drop place ∧
      note.range = ⟨origin + place, origin + place + note.raw.toList.length⟩ := by
  obtain ⟨place, behind, sigilFound, whole, readBehind⟩ := exists_readBehind? found
  rw [readBehind?] at readBehind
  refine ⟨place, sigilFound, ?_⟩
  split at readBehind
  next parts _ =>
    cases readBehind
    rw [ofParts, String.toList_ofList, trimRight_sigil, ← whole]
    have front := (List.prefix_append_right_inj sigil.toList).mpr (Text.trimRight_isPrefix behind)
    exact ⟨List.prefix_append _ _, front, rfl⟩
  next =>
    obtain ⟨space, spaceRead, rfl⟩ := Option.map_eq_some_iff.mp readBehind
    rw [ofNamespace, String.toList_ofList, ← whole]
    have front := (List.prefix_append_right_inj sigil.toList).mpr (readNamespace?_isPrefix spaceRead)
    exact ⟨List.prefix_append _ _, front, rfl⟩

namespace Row

variable {rules : ValueRules} {row : Row} {note : Annotation} {diagnostic : Diagnostic} {place : Nat}

/-- What is read from a row starts at its first sigil, is not empty and stays in the row. -/
theorem range_of_note? (found : row.note? rules = some note) :
    (∃ place : Nat, Text.find? sigil.toList row.text = some place ∧
        note.range.start = row.start + place) ∧
      note.range.start < note.range.stop ∧ note.range.stop ≤ row.stop := by
  obtain ⟨place, sigilFound, front, inRow, range⟩ := Annotation.raw_of_read? found
  have positive : 0 < note.raw.toList.length := Nat.lt_of_lt_of_le (by decide) front.length_le
  have bound := Text.find?_bound sigilFound
  have inside := inRow.length_le
  rw [List.length_drop] at inside
  rw [range, stop]
  refine ⟨⟨place, sigilFound, rfl⟩, ?_⟩
  dsimp only
  omega

theorem start_of_mem_told (sigilFound : Text.find? sigil.toList row.text = some place)
    (member : diagnostic ∈ row.told rules) : diagnostic.range.start = row.start + place := by
  rw [told] at member
  split at member
  next note found =>
    obtain ⟨⟨other, otherFound, start⟩, _⟩ := range_of_note? found
    obtain rfl := Option.some.inj (otherFound.symm.trans sigilFound)
    rw [← start]
    have judged := Annotation.read?_eq_judgedBy found rules
    rw [Option.some.inj (found.symm.trans judged)] at member
    obtain ⟨flaw, _, rfl⟩ := List.mem_map.mp member
    rfl
  next =>
    obtain rfl := List.mem_singleton.mp member
    rw [stray, sigilFound]
    rfl

theorem flaw_of_mem_told (member : diagnostic ∈ row.told rules) :
    decide (diagnostic.flaw = .missingNamespace) = !row.isNamed := by
  rw [told] at member
  split at member
  next note found =>
    rw [exists_note?_iff.mp ⟨note, found⟩]
    exact decide_eq_false (flaw_ne_of_note? found diagnostic member)
  next absent =>
    obtain rfl := List.mem_singleton.mp member
    rw [note?_eq_none_iff.mp absent]
    rfl

end Row

theorem Comment.IsLaidOut.units {comment : Comment} (laidOut : comment.IsLaidOut) :
    AreLaidOut comment.start comment.stop comment.units := by
  apply AreLaidOut.sublist _ List.filter_sublist
  cases kind : comment.kind with
  | doc => exact laidOut.rows
  | line | block =>
    have inside := laidOut.content (by simp [kind])
    exact ⟨List.forall_mem_singleton.mpr inside, List.pairwise_singleton _ _⟩

theorem pairwise_commentsIn (languageName : String) (text : List Char) :
    (commentsIn languageName text).Pairwise fun front back =>
      front.start < back.start ∧ front.stop ≤ back.start := by
  rw [commentsIn]
  split
  · exact List.Pairwise.nil
  next language _ => exact language.style.pairwise_comments text

theorem apart_of_mem_commentsIn {languageName : String} {text : List Char} {comment other : Comment}
    (member : comment ∈ commentsIn languageName text) (otherMember : other ∈ commentsIn languageName text)
    (different : comment ≠ other) : comment.stop ≤ other.start ∨ other.stop ≤ comment.start := by
  let Apart (front back : Comment) : Prop := front.stop ≤ back.start ∨ back.stop ≤ front.start
  have symmetric : Std.Symm Apart := ⟨fun _ _ => Or.symm⟩
  have ordered : (commentsIn languageName text).Pairwise Apart :=
    (pairwise_commentsIn languageName text).imp fun both => .inl both.2
  exact ordered.forall member otherMember different

/-! ## Documents -/

namespace Findings

/-- The findings are in the order of the document: no annotation is empty, each lies in one comment and
    ends before the next one starts; and the diagnostics are those of the annotations merged with those of
    the sigils that no namespace follows. -/
structure IsOrdered (findings : Findings) : Prop where
  nonempty : ∀ note ∈ findings.annotations, note.range.start < note.range.stop
  apart : findings.annotations.Pairwise fun front back =>
    front.range.start < back.range.start ∧ front.range.stop ≤ back.range.start
  inComment : ∀ note ∈ findings.annotations, ∃! comment, comment ∈ findings.comments ∧
    comment.start ≤ note.range.start ∧ note.range.stop ≤ comment.stop
  sorted : findings.diagnostics.Pairwise fun front back => front.range.start ≤ back.range.start
  merged : findings.diagnostics =
    (findings.annotations.flatMap Annotation.diagnostics).merge
      ((findings.units.filter fun row => !row.isNamed).map Row.stray)
      fun front back => front.range.start ≤ back.range.start

variable (rules : ValueRules) (languageName : String) (document : List Char)

theorem pairwise_units :
    (ofText rules languageName document).units.Pairwise fun front back => front.stop ≤ back.start := by
  rw [units, List.pairwise_flatMap]
  constructor
  · intro comment member
    exact (isLaidOut_of_mem_commentsIn member).units.apart.imp Nat.le_of_lt
  · apply (pairwise_commentsIn languageName document).imp_of_mem
    intro front back frontMember backMember apart row rowMember next nextMember
    have before := (isLaidOut_of_mem_commentsIn frontMember).units.inside row rowMember
    have behind := (isLaidOut_of_mem_commentsIn backMember).units.inside next nextMember
    omega

/-- The diagnostics come in the order of the texts that they are about; those of one text are of one
    sort. -/
theorem pairwise_diagnostics :
    (ofText rules languageName document).diagnostics.Pairwise fun front back =>
      front.range.start ≤ back.range.start ∧
        (decide (front.flaw = .missingNamespace) ≠ decide (back.flaw = .missingNamespace) →
          front.range.start < back.range.start) := by
  rw [diagnostics_ofText, List.pairwise_flatMap]
  constructor
  · -- Within a text all of them start at its first sigil.
    intro row member
    obtain ⟨place, sigilFound, _⟩ := exists_sigil_of_mem_units member
    apply List.pairwise_of_forall_mem_list
    intro front frontMember back backMember
    rw [Row.start_of_mem_told sigilFound frontMember, Row.start_of_mem_told sigilFound backMember]
    refine ⟨Int.le_refl _, fun differ => absurd ?_ differ⟩
    rw [Row.flaw_of_mem_told frontMember, Row.flaw_of_mem_told backMember]
  · -- The sigil of a text lies in it, so it stands in front of the texts behind.
    apply (pairwise_units rules languageName document).imp_of_mem
    intro row next member nextMember apart front frontMember back backMember
    obtain ⟨place, sigilFound, _⟩ := exists_sigil_of_mem_units member
    obtain ⟨nextPlace, nextFound, _⟩ := exists_sigil_of_mem_units nextMember
    have bound := Text.find?_bound sigilFound
    have long : 0 < sigil.toList.length := by decide
    rw [Row.start_of_mem_told sigilFound frontMember, Row.start_of_mem_told nextFound backMember]
    rw [Row.stop] at apart
    omega

theorem filter_diagnostics :
    (ofText rules languageName document).diagnostics.filter (fun diagnostic =>
        !decide (diagnostic.flaw = .missingNamespace)) =
      (ofText rules languageName document).annotations.flatMap Annotation.diagnostics := by
  rw [diagnostics_ofText, annotations_ofText]
  generalize (ofText rules languageName document).units = rows
  induction rows with
  | nil => rfl
  | cons row rows ih =>
    rw [List.flatMap_cons, List.filter_append, ih, Row.told]
    cases found : row.note? rules with
    | none => simp [found, Row.stray]
    | some note =>
      have own : note.diagnostics.filter (fun diagnostic =>
          !decide (diagnostic.flaw = .missingNamespace)) = note.diagnostics := by
        rw [List.filter_eq_self]
        intro diagnostic member
        simpa using Row.flaw_ne_of_note? found diagnostic member
      simp [found, own]

/-- The annotations and the diagnostics of every document are in its order, in every language and under
    all rules for values. -/
theorem isOrdered_ofText : (ofText rules languageName document).IsOrdered := by
  have inUnit : ∀ note ∈ (ofText rules languageName document).annotations,
      ∃ row ∈ (ofText rules languageName document).units, row.note? rules = some note := by
    rw [annotations_ofText]
    exact fun note member => List.mem_filterMap.mp member
  constructor
  case nonempty =>
    intro note member
    obtain ⟨row, _, found⟩ := inUnit note member
    exact (Row.range_of_note? found).2.1
  case apart =>
    rw [annotations_ofText]
    apply (pairwise_units rules languageName document).filterMap
    intro row next apart note found nextNote nextFound
    obtain ⟨_, nonempty, before⟩ := Row.range_of_note? found
    obtain ⟨⟨place, _, behind⟩, _⟩ := Row.range_of_note? nextFound
    omega
  case inComment =>
    intro note member
    obtain ⟨row, rowMember, found⟩ := inUnit note member
    obtain ⟨comment, commentMember, unitMember⟩ := List.mem_flatMap.mp rowMember
    obtain ⟨⟨place, _, start⟩, nonempty, stop⟩ := Row.range_of_note? found
    have inside := (isLaidOut_of_mem_commentsIn commentMember).units.inside row unitMember
    refine ⟨comment, ⟨commentMember, by omega, by omega⟩, ?_⟩
    rintro other ⟨otherMember, otherStart, otherStop⟩
    by_contra different
    -- Two comments lie apart, and the annotation is not empty.
    have apart := apart_of_mem_commentsIn otherMember commentMember different
    omega
  case sorted => exact (pairwise_diagnostics rules languageName document).imp And.left
  case merged =>
    have strays := filter_flatMap_told rules (ofText rules languageName document).units
    rw [← diagnostics_ofText] at strays
    rw [← filter_diagnostics, ← strays]
    symm
    apply merge_filter
    apply (pairwise_diagnostics rules languageName document).imp
    intro front back ordered differ
    have before := ordered.2 differ
    simp only [decide_eq_true_eq, decide_eq_false_iff_not]
    omega

end Findings

end Marginalia
