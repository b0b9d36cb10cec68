import Marginalia.Proofs.Comment.Order
import Marginalia.Proofs.Data.Along

/-!
# The content of comments

The content of a comment, cut at its line ends, is the texts of its rows again, and it has no blanks at
its ends.  So the rows tell of each line of the content where it stands in the document.
-/

namespace Marginalia

open Text (trimLeft trimRight allBlank lines)

/-! ## Rows of documentation -/

/-- A row lies on one line and has no blanks at its end. -/
structure Row.IsClean (row : Row) : Prop where
  oneLine : '\n' ∉ row.text
  ends : trimRight row.text = row.text

namespace Row

variable {row : Row}

theorem isClean_trimRight {text : List Char} (oneLine : '\n' ∉ text) (start : Nat) :
    IsClean ⟨start, trimRight text⟩ where
  oneLine member := oneLine ((Text.trimRight_isPrefix text).mem member)
  ends := Text.trimRight_trimRight text

theorem isClean_undecorate (oneLine : '\n' ∉ row.text) : row.undecorate.IsClean :=
  isClean_trimRight (fun member => oneLine (List.mem_of_mem_drop member)) _

theorem isClean_unmark (oneLine : '\n' ∉ row.text) (mark : List Char) : (row.unmark mark).IsClean := by
  refine isClean_trimRight (fun member => oneLine ?_) _
  exact List.mem_of_mem_drop ((List.dropWhile_suffix _).mem member)

theorem IsClean.trimLeft (clean : row.IsClean) : row.trimLeft.IsClean where
  oneLine member := clean.oneLine ((List.dropWhile_suffix _).mem member)
  ends := Text.trimRight_trimLeft clean.ends

end Row

theorem tidyRows_ne_nil (stop : Nat) (rows : List Row) : tidyRows stop rows ≠ [] := by
  rcases tidyRows_cases stop rows with nothing | ⟨first, more, tidied, -⟩
  · rw [nothing]
    exact List.cons_ne_nil _ _
  · rw [tidied]
    exact List.cons_ne_nil _ _

theorem isClean_of_mem_tidyRows {stop : Nat} {rows : List Row} (clean : ∀ row ∈ rows, row.IsClean) :
    ∀ row ∈ tidyRows stop rows, row.IsClean := by
  rcases tidyRows_cases stop rows with nothing | ⟨first, more, tidied, fewer, -⟩
  · rw [nothing]
    exact List.forall_mem_singleton.mpr ⟨List.not_mem_nil, rfl⟩
  · have kept : ∀ row ∈ first :: more, row.IsClean := fun row member => clean row (fewer.subset member)
    rw [List.forall_mem_cons] at kept
    rw [tidied]
    exact List.forall_mem_cons.mpr ⟨kept.1.trimLeft, kept.2⟩

theorem trimLeft_content_tidyRows (stop : Nat) (rows : List Row) :
    let content := ['\n'].intercalate ((tidyRows stop rows).map Row.text)
    trimLeft content = content := by
  rcases tidyRows_cases stop rows with nothing | ⟨first, more, tidied, -, solid, -⟩
  · rw [nothing]
    rfl
  · obtain ⟨c, rest, kept, cSolid⟩ := Text.exists_cons_trimLeft solid
    obtain ⟨behind, whole⟩ := exists_intercalate_cons ['\n'] first.trimLeft.text (more.map Row.text)
    rw [tidied, List.map_cons, whole, Row.trimLeft, kept]
    exact Text.trimLeft_cons cSolid _

theorem tidyRows_concat_cases (stop : Nat) (rows : List Row) : tidyRows stop rows = [⟨stop, []⟩] ∨
    ∃ others last, tidyRows stop rows = others ++ [last] ∧ last.text ≠ [] := by
  rcases tidyRows_cases stop rows with
    nothing | ⟨first, more, tidied, -, firstSolid, front, last, whole, lastSolid⟩
  · exact .inl nothing
  · refine .inr ?_
    rw [tidied]
    -- The last row is the first one where there is only one, and then it is trimmed in front.
    cases front with
    | nil =>
      cases whole
      obtain ⟨c, rest, kept, -⟩ := Text.exists_cons_trimLeft firstSolid
      refine ⟨[], first.trimLeft, rfl, ?_⟩
      rw [Row.trimLeft, kept]
      exact List.cons_ne_nil c rest
    | cons _ front =>
      cases whole
      refine ⟨first.trimLeft :: front, last, rfl, ?_⟩
      rintro nothing
      rw [nothing] at lastSolid
      cases lastSolid

theorem trimRight_content_tidyRows {stop : Nat} {rows : List Row}
    (clean : ∀ row ∈ rows, row.IsClean) :
    let content := ['\n'].intercalate ((tidyRows stop rows).map Row.text)
    trimRight content = content := by
  have tidyClean : ∀ row ∈ tidyRows stop rows, row.IsClean := isClean_of_mem_tidyRows clean
  rcases tidyRows_concat_cases stop rows with nothing | ⟨others, last, tidied, nonempty⟩
  · rw [nothing]
    rfl
  · rw [tidied] at tidyClean ⊢
    have ends := (tidyClean last (List.mem_append_right _ (List.mem_singleton_self _))).ends
    obtain ⟨before, split⟩ := exists_intercalate_concat ['\n'] last.text (others.map Row.text)
    rw [List.map_append, List.map_singleton, split]
    exact Text.trimRight_append_of_ne_nil before nonempty ends

/-! ## Content and rows -/

/-- The rows of a comment are the lines of its content, which has no blanks at its ends. -/
structure Comment.IsTidy (comment : Comment) : Prop where
  lines : lines comment.content = comment.rows.map Row.text
  trimmed : Text.trim comment.content = comment.content

namespace Comment

theorem isTidy_ofPiece (kind : CommentKind) (start stop bodyStart : Nat) (body : List Char) :
    (ofPiece kind start stop bodyStart body).IsTidy where
  lines := by
    rw [content_ofPiece, ofPiece, map_text_rowsFrom]
  trimmed := by
    rw [content_ofPiece, Text.trim_trim]

theorem isTidy_ofRows {start stop : Nat} {rows : List Row} (clean : ∀ row ∈ rows, row.IsClean) :
    (ofRows start stop rows).IsTidy where
  lines := by
    apply List.splitOn_intercalate
    · rw [List.forall_mem_map]
      exact fun row member => (isClean_of_mem_tidyRows clean row member).oneLine
    · rw [ne_eq, List.map_eq_nil_iff]
      exact tidyRows_ne_nil stop rows
  trimmed := by
    rw [Text.trim, content, ofRows, trimLeft_content_tidyRows, trimRight_content_tidyRows clean]

end Comment

theorem isClean_rowsFrom {shrink : Row → Row}
    (clean : ∀ row : Row, '\n' ∉ row.text → (shrink row).IsClean) (start : Nat) (text : List Char) :
    ∀ row ∈ (rowsFrom start (lines text)).map shrink, row.IsClean := by
  rw [List.forall_mem_map]
  intro row member
  have inLines : row.text ∈ lines text := by
    rw [← map_text_rowsFrom start (lines text)]
    exact List.mem_map_of_mem member
  exact clean row (Text.newline_notMem_of_mem_lines inLines)

/-- The rows of documentation on lines are the lines of the text that it covers. -/
theorem CommentStyle.rows_of_read {style : CommentStyle} {text : List Char} {length : Nat}
    {rows : List (List Char)} (found : style.read text = some (length, .docLines rows)) :
    rows = lines (text.take length) := by
  simp only [read, Option.orElse_eq_orElse, Option.orElse_eq_or, Option.or_eq_some_iff] at found
  rcases found with doc | ⟨_, block | ⟨_, docLines | ⟨_, line | ⟨_, literal⟩⟩⟩⟩
  · obtain ⟨marks, -, read⟩ := Option.bind_eq_some_iff.mp doc
    split at read
    · cases read
    · obtain ⟨body, -, same⟩ := Option.map_eq_some_iff.mp read
      cases same
  · obtain ⟨body, -, same⟩ := Option.map_eq_some_iff.mp block
    cases same
  · obtain ⟨mark, -, read⟩ := Option.bind_eq_some_iff.mp docLines
    split at read
    · cases read
      rfl
    · cases read
  · rw [readLine?] at line
    split at line <;> cases line
  · obtain ⟨_, -, same⟩ := Option.map_eq_some_iff.mp literal
    cases same

theorem Comment.isTidy_of_ofHit? {style : CommentStyle} {hit : Text.Hit CommentToken}
    {comment : Comment} {text : List Char} (read : style.read text = some (hit.length, hit.token))
    (found : ofHit? style hit = some comment) : comment.IsTidy := by
  rw [ofHit?] at found
  cases token : hit.token with
  | doc body =>
    rw [token] at found
    cases found
    exact isTidy_ofRows (isClean_rowsFrom (fun _ => Row.isClean_undecorate) _ body)
  | block body =>
    rw [token] at found
    cases found
    exact isTidy_ofPiece _ _ _ _ body
  | docLines rows =>
    rw [token] at read found
    cases found
    rw [CommentStyle.rows_of_read read]
    exact isTidy_ofRows (isClean_rowsFrom (fun _ oneLine => Row.isClean_unmark oneLine _) _ _)
  | line body =>
    rw [token] at found
    cases found
    exact isTidy_ofPiece _ _ _ _ body
  | literal =>
    rw [token] at found
    cases found

theorem isTidy_of_mem_commentsIn {languageName : String} {text : List Char} {comment : Comment}
    (member : comment ∈ commentsIn languageName text) : comment.IsTidy := by
  rw [commentsIn] at member
  split at member
  · cases member
  · obtain ⟨hit, hitMember, found⟩ := List.mem_filterMap.mp member
    obtain ⟨_, read⟩ := Text.read_of_mem_hits hitMember
    exact Comment.isTidy_of_ofHit? read found

/-! ## The map of a comment -/

namespace Comment

/-- The offsets at which the lines of the content start in the document. -/
def lineStarts (comment : Comment) : List Nat :=
  comment.rows.map Row.start

/-- The lines of the content, each with the offset at which it starts. -/
def placedLines (comment : Comment) : List (Nat × List Char) :=
  comment.lineStarts.zip (lines comment.content)

/-- A comment tells of each line of its content where it stands in the text: as many offsets as lines,
    each line at its offset, between the marks of the comment and one behind the other; and the content
    has no blanks at its ends. -/
structure MapsLines (comment : Comment) (text : List Char) : Prop where
  aligned : (lines comment.content).length = comment.lineStarts.length
  slices : ∀ place ∈ comment.placedLines,
    Range.slice ⟨place.1, (place.1 : Int) + place.2.length⟩ text = place.2
  inside : ∀ place ∈ comment.placedLines,
    comment.start ≤ place.1 ∧ place.1 + place.2.length ≤ comment.stop
  ordered : comment.placedLines.Pairwise fun front back =>
    front.1 < back.1 ∧ front.1 + front.2.length ≤ back.1
  trimmed : Text.trim comment.content = comment.content

theorem IsTidy.placedLines {comment : Comment} (tidy : comment.IsTidy) :
    comment.placedLines = comment.rows.map fun row => (row.start, row.text) := by
  rw [Comment.placedLines, tidy.lines, lineStarts, List.zip_map']

end Comment

/-- Every comment of a text maps the lines of its content to the text. -/
theorem mapsLines_of_mem_commentsIn {languageName : String} {text : List Char} {comment : Comment}
    (member : comment ∈ commentsIn languageName text) : comment.MapsLines text := by
  have tidy := isTidy_of_mem_commentsIn member
  have stand := (standsIn_of_mem_commentsIn member).rows
  obtain ⟨inside, apart⟩ := (isLaidOut_of_mem_commentsIn member).rows
  constructor
  case aligned => rw [tidy.lines, Comment.lineStarts, List.length_map, List.length_map]
  case slices =>
    rw [tidy.placedLines, List.forall_mem_map]
    exact fun row inRows => Text.StandsAt.slice (stand row inRows)
  case inside =>
    rw [tidy.placedLines, List.forall_mem_map]
    exact inside
  case ordered =>
    rw [tidy.placedLines, List.pairwise_map]
    apply apart.imp
    intro front back before
    exact ⟨Nat.lt_of_le_of_lt (Nat.le_add_right _ _) before, Nat.le_of_lt before⟩
  case trimmed => exact tidy.trimmed

-- Documentation with a blank line at either end, one in the middle and decoration with a tab behind it.
theorem mapsLines_of_mem_commentsIn_doc :
    let document := "x /**\n *\t a\r\n *\n * b \n\n*/".toList
    let comment : Comment := ⟨.doc, 2, 25, [⟨10, ['a']⟩, ⟨15, []⟩, ⟨19, ['b']⟩]⟩
    comment ∈ commentsIn "java" document ∧ comment.MapsLines document := by
  intro document comment
  have member : comment ∈ commentsIn "java" document := by decide +kernel
  exact ⟨member, mapsLines_of_mem_commentsIn member⟩

end Marginalia
