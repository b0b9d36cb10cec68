import Marginalia.Proofs.Annotation.Judgement
import Marginalia.Proofs.Annotation.Ranges

/-!
# Outcomes of reading a document

Every text that can have an annotation, and has a sigil, comes to one thing: an annotation if a letter
follows its first sigil, and otherwise a diagnostic at the sigil.  Nothing else comes of a document, and
nothing at all of one without a sigil.
-/

namespace Marginalia

open Text (StandsAt)

/-! ## Texts with a sigil -/

namespace Row

/-- Whether a letter follows the first sigil of the row. -/
def isNamed (row : Row) : Bool :=
  match Text.find? sigil.toList row.text with
  | some place => (row.text[place + sigil.length]?).any Char.isAlpha
  | none => false

/-- The diagnostic that no namespace follows the first sigil of the row. -/
def stray (row : Row) : Diagnostic :=
  let place : Int := row.start + ((Text.find? sigil.toList row.text).getD 0 : Nat)
  ⟨.missingNamespace, ⟨place, place + sigil.length⟩⟩

def note? (rules : ValueRules) (row : Row) : Option Annotation :=
  Annotation.read? rules row.text row.start

def told (rules : ValueRules) (row : Row) : List Diagnostic :=
  match row.note? rules with
  | some note => note.diagnostics
  | none => [row.stray]

end Row

/-- The texts of the comments that can each have one annotation, and have a sigil. -/
def Findings.units (findings : Findings) : List Row :=
  findings.comments.flatMap Comment.units

/-- The lines of a documentation comment, or the content of another one. -/
def Comment.texts (comment : Comment) : List Row :=
  match comment.kind with
  | .doc => comment.rows
  | .line | .block => [⟨comment.contentStart, comment.content⟩]

/-- The texts of a document that can each have one annotation, in order: those of its comments in which
    a sigil stands. -/
def textsWithSigil (languageName : String) (document : List Char) : List Row :=
  ((commentsIn languageName document).flatMap Comment.texts).filter fun row =>
    sigil.toList <:+: row.text

variable {rules : ValueRules} {row : Row} {note : Annotation}

theorem hasSigil_iff {text : List Char} : hasSigil text = true ↔ sigil.toList <:+: text := by
  rw [hasSigil, Text.occursIn, Option.isSome_iff_exists]
  constructor
  · rintro ⟨place, found⟩
    exact (Text.prefix_of_find? found).isInfix.trans (List.drop_suffix place text).isInfix
  · rintro ⟨front, back, rfl⟩
    have stands : sigil.toList <+: (front ++ sigil.toList ++ back).drop front.length := by
      rw [List.append_assoc, List.drop_left]
      exact List.prefix_append _ _
    obtain ⟨first, found⟩ := Text.exists_find?_of_prefix stands
    exact ⟨first, found⟩

theorem Comment.units_eq (comment : Comment) :
    comment.units = comment.texts.filter fun row => sigil.toList <:+: row.text := by
  have rows : comment.texts.filter (fun row => hasSigil row.text) = comment.units := by
    rw [units, texts]
    cases comment.kind <;> rfl
  rw [← rows]
  refine List.filter_congr fun row _ => ?_
  rw [Bool.eq_iff_iff, hasSigil_iff, decide_eq_true_iff]

theorem isSome_readNamespace? (text : List Char) :
    (readNamespace? text).isSome = text.head?.any Char.isAlpha := by
  cases text with
  | nil => rfl
  | cons c rest => cases letter : c.isAlpha <;> simp [readNamespace?, letter]

theorem Annotation.isSome_readBehind? (text : List Char) (place : Int) :
    (readBehind? rules text place).isSome = (readNamespace? text).isSome := by
  rw [readBehind?]
  cases found : Parts.read? text with
  | some parts =>
    -- All parts are read behind a namespace.
    obtain ⟨space, spaceRead, _⟩ := Option.bind_eq_some_iff.mp found
    simp [spaceRead]
  | none => simp

namespace Row

theorem isSome_note? (rules : ValueRules) (row : Row) : (row.note? rules).isSome = row.isNamed := by
  rw [note?, Annotation.read?, isNamed]
  cases Text.find? sigil.toList row.text with
  | none => rfl
  | some place =>
    simp only [Option.bind_some, Annotation.isSome_readBehind?, isSome_readNamespace?,
      List.head?_drop]

theorem note?_eq_none_iff : row.note? rules = none ↔ row.isNamed = false := by
  rw [← isSome_note? rules, Option.isSome_eq_false_iff, Option.isNone_iff_eq_none]

theorem exists_note?_iff : (∃ note, row.note? rules = some note) ↔ row.isNamed = true := by
  rw [← isSome_note? rules, Option.isSome_iff_exists]

theorem flaw_ne_of_note? (found : row.note? rules = some note) :
    ∀ diagnostic ∈ note.diagnostics, diagnostic.flaw ≠ .missingNamespace := by
  intro diagnostic member missing
  -- An annotation is judged by its namespace and its value alone.
  have judged := Annotation.read?_eq_judgedBy found rules
  have flags := (((note.isJudged_judgedBy rules).diagnostic diagnostic).mp
    (Option.some.inj (found.symm.trans judged) ▸ member)).1
  rw [missing] at flags
  cases flags

theorem filter_told (rules : ValueRules) (row : Row) :
    (row.told rules).filter (·.flaw = .missingNamespace) = if row.isNamed then [] else [row.stray] := by
  rw [told]
  cases found : row.note? rules with
  | none => simp [note?_eq_none_iff.mp found, stray]
  | some note =>
    rw [if_pos (exists_note?_iff.mp ⟨note, found⟩), List.filter_eq_nil_iff]
    exact fun diagnostic member => by simpa using flaw_ne_of_note? found diagnostic member

end Row

/-! ## What is found -/

theorem map_some_filterMap_note? (rules : ValueRules) (rows : List Row) :
    (rows.filterMap (Row.note? rules)).map some = (rows.filter Row.isNamed).map (Row.note? rules) := by
  induction rows with
  | nil => rfl
  | cons row rows ih =>
    cases found : row.note? rules with
    | none => simp [found, Row.note?_eq_none_iff.mp found, ih]
    | some note => simp [found, Row.exists_note?_iff.mp ⟨note, found⟩, ih]

theorem filter_flatMap_told (rules : ValueRules) (rows : List Row) :
    (rows.flatMap (Row.told rules)).filter (·.flaw = .missingNamespace) =
      (rows.filter fun row => !row.isNamed).map Row.stray := by
  induction rows with
  | nil => rfl
  | cons row rows ih =>
    rw [List.flatMap_cons, List.filter_append, Row.filter_told, ih]
    cases named : row.isNamed <;> simp [named]

namespace Findings

theorem units_ofText (rules : ValueRules) (languageName : String) (document : List Char) :
    (ofText rules languageName document).units = textsWithSigil languageName document := by
  rw [textsWithSigil, List.filter_flatMap]
  exact List.flatMap_congr fun comment _ => comment.units_eq

theorem readComments_eq (rules : ValueRules) (comments : List Comment) :
    readComments rules comments = (comments.flatMap Comment.units).map (Row.read rules) := by
  rw [readComments, List.map_flatMap]

theorem annotations_ofText (rules : ValueRules) (languageName : String) (text : List Char) :
    (ofText rules languageName text).annotations =
      (ofText rules languageName text).units.filterMap (Row.note? rules) := by
  rw [ofText, units]
  simp only [readComments_eq, List.filterMap_map]
  refine List.filterMap_congr fun row _ => ?_
  simp only [Function.comp_apply, Row.read, Row.note?]
  cases Annotation.read? rules row.text row.start <;> rfl

theorem diagnostics_ofText (rules : ValueRules) (languageName : String) (text : List Char) :
    (ofText rules languageName text).diagnostics =
      (ofText rules languageName text).units.flatMap (Row.told rules) := by
  rw [ofText, units]
  simp only [readComments_eq, List.flatMap_map]
  refine List.flatMap_congr fun row _ => ?_
  simp only [Row.read, Row.told, Row.note?]
  cases Annotation.read? rules row.text row.start <;> rfl

/-- A text with a sigil stands in the document, and so does the sigil. -/
theorem exists_sigil_of_mem_units {languageName : String} {text : List Char}
    (member : row ∈ (ofText rules languageName text).units) :
    ∃ place, Text.find? sigil.toList row.text = some place ∧
      StandsAt sigil.toList (row.start + place) text := by
  obtain ⟨comment, commentMember, unitMember⟩ := List.mem_flatMap.mp member
  have stands := (standsIn_of_mem_commentsIn commentMember).units row unitMember
  have some : hasSigil row.text = true := (List.mem_filter.mp unitMember).2
  obtain ⟨place, found⟩ := Option.isSome_iff_exists.mp some
  exact ⟨place, found, StandsAt.trans (Text.prefix_of_find? found) stands⟩

theorem units_eq_nil {languageName : String} {text : List Char} (none : hasSigil text = false) :
    (ofText rules languageName text).units = [] := by
  refine List.eq_nil_iff_forall_not_mem.mpr fun row member => ?_
  obtain ⟨place, _, stands⟩ := exists_sigil_of_mem_units member
  obtain ⟨first, found⟩ := Text.exists_find?_of_prefix stands
  rw [hasSigil, Text.occursIn, found] at none
  cases none

/-- The findings account for a document in a language: its annotations are those of the texts with a
    named sigil, and its diagnostics of missing namespaces those of the other texts with a sigil, each in
    order and at the sigil. -/
structure AccountFor (findings : Findings) (rules : ValueRules) (languageName : String)
    (document : List Char) : Prop where
  annotations : findings.annotations.map some =
    ((textsWithSigil languageName document).filter Row.isNamed).map fun row =>
      Annotation.read? rules row.text row.start
  strays : findings.diagnostics.filter (·.flaw = .missingNamespace) =
    ((textsWithSigil languageName document).filter fun row => !row.isNamed).map Row.stray
  sigil : ∀ diagnostic ∈ findings.diagnostics, diagnostic.flaw = .missingNamespace →
    diagnostic.range.slice document = sigil.toList ∧ diagnostic.isError = false
  quiet : hasSigil document = false → findings.annotations = [] ∧ findings.diagnostics = []

/-- Of every text that can have an annotation and has a sigil there comes one annotation, if a letter
    follows the first sigil, and otherwise one diagnostic at this sigil; there are no other annotations,
    and no other diagnostics of missing namespaces. -/
theorem accountFor_ofText (rules : ValueRules) (languageName : String) (document : List Char) :
    (ofText rules languageName document).AccountFor rules languageName document := by
  have strays := filter_flatMap_told rules (ofText rules languageName document).units
  rw [← diagnostics_ofText] at strays
  constructor
  case annotations =>
    rw [annotations_ofText, ← units_ofText rules]
    exact map_some_filterMap_note? rules _
  case strays =>
    rw [← units_ofText rules]
    exact strays
  case sigil =>
    intro diagnostic member missing
    have isStray : diagnostic ∈ (ofText rules languageName document).diagnostics.filter
        (·.flaw = .missingNamespace) := List.mem_filter.mpr ⟨member, decide_eq_true missing⟩
    rw [strays] at isStray
    obtain ⟨row, rowMember, rfl⟩ := List.mem_map.mp isStray
    obtain ⟨place, found, stands⟩ := exists_sigil_of_mem_units (List.mem_filter.mp rowMember).1
    refine ⟨?_, rfl⟩
    rw [Row.stray, found, Option.getD_some, ← Int.natCast_add]
    exact stands.slice
  case quiet =>
    intro none
    have noUnits := @units_eq_nil rules languageName document none
    rw [annotations_ofText, diagnostics_ofText, noUnits]
    exact ⟨rfl, rfl⟩

-- Of the four texts one has no sigil, and behind the sigil of another no letter follows.
theorem accountFor_ofText_mixed :
    let document := "/** @acp:fn\n * Plain.\n * @acp: none */ // @acp:todo - later".toList
    (textsWithSigil "typescript" document).map (fun row => (row.start, row.isNamed)) =
        [(4, true), (25, false), (42, true)] ∧
      (ofText {} "typescript" document).AccountFor {} "typescript" document :=
  ⟨by decide +kernel, accountFor_ofText {} "typescript" _⟩

end Findings

end Marginalia
