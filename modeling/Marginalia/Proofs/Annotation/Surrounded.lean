import Marginalia.Annotation.Findings
import Marginalia.Proofs.Comment.Surrounded

/-!
# Annotations of a text between others

What an annotation is does not depend on where it stands: further on in a document it is the same, with
all its ranges moved.  So a text has the same findings wherever it stands between texts that have
nothing that comments or literals begin with.
-/

namespace Marginalia

/-! ## Findings further on -/

/-- The reference, further on by a distance. -/
def Reference.shift (distance : Nat) (reference : Reference) : Reference :=
  { reference with range := reference.range.shift distance }

/-- The diagnostic, further on by a distance. -/
def Diagnostic.shift (distance : Nat) (diagnostic : Diagnostic) : Diagnostic :=
  { diagnostic with range := diagnostic.range.shift distance }

/-- The annotation, further on by a distance with its references and diagnostics. -/
def Annotation.shift (distance : Nat) (note : Annotation) : Annotation :=
  { note with
    range := note.range.shift distance
    references := note.references.map (Reference.shift distance)
    diagnostics := note.diagnostics.map (Diagnostic.shift distance) }

/-- All that was found, further on by a distance. -/
def Findings.shift (distance : Nat) (findings : Findings) : Findings where
  annotations := findings.annotations.map (·.shift distance)
  comments := findings.comments.map (·.shift distance)
  diagnostics := findings.diagnostics.map (·.shift distance)

/-- What a text with a sigil turns out to be, further on by a distance. -/
def shiftOutcome (distance : Nat) : Except Diagnostic Annotation → Except Diagnostic Annotation
  | .ok note => .ok (note.shift distance)
  | .error diagnostic => .error (diagnostic.shift distance)

variable (distance : Nat)

/-! ## Reading further on -/

theorem Range.span_shift (place length distance : Int) :
    (⟨place + distance, place + distance + length⟩ : Range) =
      shift ⟨place, place + length⟩ distance := by
  rw [shift, Int.add_right_comm]

theorem Reference.ofHit?_shift (origin : Int) (hit : Text.Hit DollarToken) :
    ofHit? (origin + distance) hit = (ofHit? origin hit).map (shift distance) := by
  rw [ofHit?, ofHit?]
  cases hit.token with
  | escaped => rfl
  | reference name modifier => simp [shift, Range.shift, Int.add_right_comm]

theorem referencesIn_shift (text : List Char) (origin : Int) :
    referencesIn text (origin + distance) =
      (referencesIn text origin).map (Reference.shift distance) := by
  rw [referencesIn, referencesIn, List.map_filterMap]
  exact congrArg (List.filterMap · _) (funext (Reference.ofHit?_shift distance origin))

namespace Annotation

theorem ofParts_shift (rules : ValueRules) (text : List Char) (place : Int) (parts : Parts) :
    ofParts rules text (place + distance) parts = (ofParts rules text place parts).shift distance := by
  simp only [ofParts, shift, Range.span_shift, List.map_map]
  congr 1
  cases parts.value with
  | none => rfl
  | some written =>
    dsimp only
    rw [← referencesIn_shift, Int.add_right_comm place, Int.add_right_comm (place + _)]

theorem ofNamespace_shift (rules : ValueRules) (space : List Char) (place : Int) :
    ofNamespace rules space (place + distance) = (ofNamespace rules space place).shift distance := by
  simp only [ofNamespace, shift, Range.span_shift, List.map_map, List.map_nil]
  rfl

theorem readBehind?_shift (rules : ValueRules) (text : List Char) (place : Int) :
    readBehind? rules text (place + distance) =
      (readBehind? rules text place).map (shift distance) := by
  rw [readBehind?, readBehind?]
  cases Parts.read? text with
  | some parts => exact congrArg some (ofParts_shift distance rules text place parts)
  | none =>
    cases readNamespace? text with
    | none => rfl
    | some space => exact congrArg some (ofNamespace_shift distance rules space place)

theorem read?_shift (rules : ValueRules) (text : List Char) (origin : Int) :
    read? rules text (origin + distance) = (read? rules text origin).map (shift distance) := by
  rw [read?, read?]
  cases Text.find? sigil.toList text with
  | none => rfl
  | some place =>
    simp only [Option.bind_some]
    rw [Int.add_right_comm, readBehind?_shift]

end Annotation

theorem Row.read_shift (rules : ValueRules) (row : Row) :
    (row.shift distance).read rules = shiftOutcome distance (row.read rules) := by
  have found := Annotation.read?_shift distance rules row.text row.start
  simp only [read, shift, Int.natCast_add, found]
  cases Annotation.read? rules row.text row.start with
  | some note => rfl
  | none => simp [shiftOutcome, Diagnostic.shift, Range.shift, Int.add_right_comm]

theorem Comment.units_shift (comment : Comment) :
    (comment.shift distance).units = comment.units.map (Row.shift distance) := by
  rw [units, units, contentStart_shift, content_shift]
  cases kind : comment.kind with
  | doc =>
    simp only [shift, kind]
    exact List.filter_map
  | line | block =>
    simp only [shift, kind]
    exact List.filter_map (f := Row.shift distance) (l := [⟨comment.contentStart, comment.content⟩])

theorem readComments_shift (rules : ValueRules) (comments : List Comment) :
    readComments rules (comments.map (Comment.shift distance)) =
      (readComments rules comments).map (shiftOutcome distance) := by
  simp only [readComments, List.flatMap_map, List.map_flatMap, Comment.units_shift, List.map_map]
  refine List.flatMap_congr fun comment _ => ?_
  exact congrArg (List.map · _) (funext (Row.read_shift distance rules))

/-- Nothing is found in a text that stands between others but what is found in the text alone, in the
    same order and moved by what stands in front: as long as these others have no character that a
    comment or a literal begins with, and the line ends behind the text. -/
theorem Findings.ofText_append_append {front tail : List Char} (frontQuiet : IsQuiet front)
    (tailQuiet : IsQuiet tail) (rules : ValueRules) (language : Language) (text : List Char) :
    ofText rules language.name (front ++ text ++ '\n' :: tail) =
      (ofText rules language.name text).shift front.length := by
  have comments : commentsIn language.name (front ++ text ++ '\n' :: tail) =
      (commentsIn language.name text).map (Comment.shift front.length) := by
    simp only [commentsIn, Language.ofName?_name]
    exact CommentStyle.comments_append_append language.isMarked_style language.isClear_style
      frontQuiet tailQuiet text
  rw [ofText, comments, readComments_shift]
  simp only [ofText, shift, List.filterMap_map, List.map_filterMap, List.flatMap_map, List.map_flatMap]
  congr 1
  · refine List.filterMap_congr fun outcome _ => ?_
    cases outcome <;> rfl
  · refine List.flatMap_congr fun outcome _ => ?_
    cases outcome <;> rfl

-- The literal is open at the end of the text, and a backslash stands in front of the line end.
theorem Findings.ofText_append_append_open :
    let front := "mod quiet;\n".toList
    let text := "/// @acp:lock($LEVEL)\n\t/// @acp:\nlet open = \"\\".toList
    let tail := "@acp:module(Main)\nfn tail() -> u8;".toList
    (IsQuiet front ∧ IsQuiet tail ∧ (ofText {} "rust" text).annotations.map Annotation.raw =
        ["@acp:lock($LEVEL)"] ∧ (ofText {} "rust" text).diagnostics.length = 2) ∧
      ofText {} "rust" (front ++ text ++ '\n' :: tail) = (ofText {} "rust" text).shift 11 := by
  intro front text tail
  have frontQuiet : IsQuiet front := by decide
  have tailQuiet : IsQuiet tail := by decide
  exact ⟨⟨frontQuiet, tailQuiet, by decide +kernel, by decide +kernel⟩,
    ofText_append_append frontQuiet tailQuiet {} .rust text⟩

end Marginalia
