import Marginalia.Comment.Span
import Marginalia.Proofs.Text.Piece
import Marginalia.Proofs.Text.Scan

/-!
# Where comments stand

Every row of a comment stands in the document where it says, whatever was taken off it: marks,
decoration, blanks at its ends.  So does the content of a comment that is one piece of the document.
-/

namespace Marginalia

open Text (StandsAt lines)

variable {text : List Char}

/-! ## Tokens -/

/-- What a token holds of the text that it was read in front of stands there behind its mark. -/
def CommentToken.StandsIn (style : CommentStyle) (text : List Char) : CommentToken → Prop
  | .doc body => ∃ marks, style.doc = some marks ∧ StandsAt body marks.opener.length text
  | .block body => StandsAt body style.block.opener.length text
  | .docLines rows => StandsAt (['\n'].intercalate rows) 0 text
  | .line body => StandsAt body style.line.length text
  | .literal => True

theorem intercalate_lines (piece : List Char) : ['\n'].intercalate (lines piece) = piece :=
  List.intercalate_splitOn '\n'

theorem Delimiters.standsAt_of_read? {marks : Delimiters} {body : List Char}
    (found : marks.read? text = some body) : StandsAt body marks.opener.length text := by
  rw [Delimiters.read?] at found
  split at found
  · obtain ⟨place, _, rfl⟩ := Option.map_eq_some_iff.mp found
    exact List.take_prefix place _
  · cases found

namespace CommentStyle

variable {style : CommentStyle} {length : Nat} {token : CommentToken}

theorem standsIn_of_readDoc? (found : style.readDoc? text = some (length, token)) :
    token.StandsIn style text := by
  obtain ⟨marks, hasMarks, read⟩ := Option.bind_eq_some_iff.mp found
  split at read
  · cases read
  · obtain ⟨body, bodyFound, same⟩ := Option.map_eq_some_iff.mp read
    cases same
    exact ⟨marks, hasMarks, marks.standsAt_of_read? bodyFound⟩

theorem standsIn_of_readBlock? (found : style.readBlock? text = some (length, token)) :
    token.StandsIn style text := by
  obtain ⟨body, bodyFound, same⟩ := Option.map_eq_some_iff.mp found
  cases same
  exact style.block.standsAt_of_read? bodyFound

theorem standsIn_of_readDocLines? (found : style.readDocLines? text = some (length, token)) :
    token.StandsIn style text := by
  obtain ⟨mark, _, read⟩ := Option.bind_eq_some_iff.mp found
  split at read
  · cases read
    rw [CommentToken.StandsIn, intercalate_lines]
    exact List.take_prefix _ text
  · cases read

theorem standsIn_of_readLine? (found : style.readLine? text = some (length, token)) :
    token.StandsIn style text := by
  rw [readLine?] at found
  split at found
  · obtain ⟨_, rfl⟩ := Prod.mk.inj (Option.some.inj found)
    exact List.takeWhile_prefix _
  · cases found

/-- What is read in front of a text stands in it, whichever form of comment it is. -/
theorem standsIn_of_read (found : style.read text = some (length, token)) :
    token.StandsIn style text := by
  simp only [read, Option.orElse_eq_orElse, Option.orElse_eq_or, Option.or_eq_some_iff] at found
  rcases found with doc | ⟨_, block | ⟨_, docLines | ⟨_, line | ⟨_, literal⟩⟩⟩⟩
  · exact standsIn_of_readDoc? doc
  · exact standsIn_of_readBlock? block
  · exact standsIn_of_readDocLines? docLines
  · exact standsIn_of_readLine? line
  · obtain ⟨_, _, same⟩ := Option.map_eq_some_iff.mp literal
    cases same
    trivial

end CommentStyle

/-! ## Rows -/

def Row.StandsIn (row : Row) (text : List Char) : Prop :=
  StandsAt row.text row.start text

namespace Row.StandsIn

variable {row : Row}

theorem trim (stands : row.StandsIn text) : row.trim.StandsIn text :=
  StandsAt.trim stands

theorem trimLeft (stands : row.StandsIn text) : row.trimLeft.StandsIn text :=
  StandsAt.trimLeft stands

theorem drop (stands : row.StandsIn text) (count : Nat) : (row.drop count).StandsIn text :=
  StandsAt.drop stands count

theorem undecorate (stands : row.StandsIn text) : row.undecorate.StandsIn text :=
  StandsAt.trimRight (stands.drop (decoration row.text))

theorem unmark (stands : row.StandsIn text) (mark : List Char) :
    (row.unmark mark).StandsIn text :=
  (stands.drop _).trim

end Row.StandsIn

/-- The rows of pieces that stand in the text with line ends between them stand there too. -/
theorem standsIn_of_mem_rowsFrom {pieces : List (List Char)} {start : Nat}
    (stands : StandsAt (['\n'].intercalate pieces) start text) :
    ∀ row ∈ rowsFrom start pieces, row.StandsIn text := by
  induction pieces generalizing start with
  | nil => exact fun _ member => absurd member List.not_mem_nil
  | cons piece pieces ih =>
    rw [rowsFrom, List.forall_mem_cons]
    cases pieces with
    | nil =>
      rw [List.intercalate_singleton] at stands
      exact ⟨stands, fun _ member => absurd member List.not_mem_nil⟩
    | cons next pieces =>
      rw [List.intercalate_cons_cons, List.append_assoc] at stands
      refine ⟨stands.of_isPrefix (List.prefix_append _ _), ih ?_⟩
      exact stands.append_right.append_right

theorem standsIn_of_mem_rowsFrom_lines {piece : List Char} {start : Nat}
    (stands : StandsAt piece start text) :
    ∀ row ∈ rowsFrom start (lines piece), row.StandsIn text := by
  rw [← intercalate_lines piece] at stands
  exact standsIn_of_mem_rowsFrom stands

theorem map_text_rowsFrom (start : Nat) (pieces : List (List Char)) :
    (rowsFrom start pieces).map Row.text = pieces := by
  induction pieces generalizing start with
  | nil => rfl
  | cons piece pieces ih => rw [rowsFrom, List.map_cons, ih]

/-- What is left of rows without the blank ones at either end: an empty row at the end if nothing is,
    else some of the rows in their order, where neither the first nor the last is blank. -/
theorem tidyRows_cases (stop : Nat) (rows : List Row) : tidyRows stop rows = [⟨stop, []⟩] ∨
    ∃ first more, tidyRows stop rows = first.trimLeft :: more ∧ (first :: more).Sublist rows ∧
      Text.allBlank first.text = false ∧
        ∃ front last, first :: more = front ++ [last] ∧ Text.allBlank last.text = false := by
  let isEmpty := fun row : Row => Text.allBlank row.text
  let inFront := rows.dropWhile isEmpty
  have kept : (inFront.reverse.dropWhile isEmpty).reverse <+: inFront := by
    rw [← List.reverse_suffix, List.reverse_reverse]
    exact List.dropWhile_suffix isEmpty
  rw [tidyRows]
  split
  next => exact .inl rfl
  next first more tidied =>
    replace tidied : (inFront.reverse.dropWhile isEmpty).reverse = first :: more := tidied
    refine .inr ⟨first, more, rfl, ?_, ?_, ?_⟩
    · rw [← tidied]
      exact kept.sublist.trans (List.dropWhile_sublist isEmpty)
    · obtain ⟨tail, whole⟩ := kept
      have stops := List.head?_dropWhile_not isEmpty rows
      rwa [show rows.dropWhile isEmpty = inFront from rfl, ← whole, tidied] at stops
    · have stops := List.head?_dropWhile_not isEmpty inFront.reverse
      cases behind : inFront.reverse.dropWhile isEmpty with
      | nil =>
        rw [behind] at tidied
        cases tidied
      | cons last front =>
        rw [behind] at tidied stops
        exact ⟨front.reverse, last, by rw [← tidied, List.reverse_cons], stops⟩

theorem standsIn_of_mem_tidyRows {rows : List Row} {stop : Nat}
    (stand : ∀ row ∈ rows, row.StandsIn text) : ∀ row ∈ tidyRows stop rows, row.StandsIn text := by
  rcases tidyRows_cases stop rows with nothing | ⟨first, more, tidied, fewer, -⟩
  · rw [nothing]
    exact List.forall_mem_singleton.mpr (StandsAt.nil stop text)
  -- Dropping rows keeps the others where they are; only the first is trimmed.
  · have kept : ∀ row ∈ first :: more, row.StandsIn text := fun row member =>
      stand row (fewer.subset member)
    rw [List.forall_mem_cons] at kept
    rw [tidied]
    exact List.forall_mem_cons.mpr ⟨kept.1.trimLeft, kept.2⟩

/-! ## Comments -/

/-- The rows of a comment stand in the text, and so does its content unless it is documentation, of
    which the rows alone are pieces of the text. -/
structure Comment.StandsIn (comment : Comment) (text : List Char) : Prop where
  rows : ∀ row ∈ comment.rows, row.StandsIn text
  content : comment.kind ≠ .doc → StandsAt comment.content comment.contentStart text

namespace Comment

theorem contentStart_ofPiece (kind : CommentKind) (start stop bodyStart : Nat) (body : List Char) :
    (ofPiece kind start stop bodyStart body).contentStart = bodyStart + Text.indent body := by
  rw [contentStart, ofPiece]
  cases pieces : lines (Text.trim body) with
  | nil => exact absurd pieces (List.splitOn_ne_nil '\n' _)
  | cons => rfl

theorem content_ofPiece (kind : CommentKind) (start stop bodyStart : Nat) (body : List Char) :
    (ofPiece kind start stop bodyStart body).content = Text.trim body := by
  rw [content, ofPiece, map_text_rowsFrom, intercalate_lines]

theorem standsIn_ofPiece {bodyStart : Nat} {body : List Char} (kind : CommentKind)
    (start stop : Nat) (stands : StandsAt body bodyStart text) :
    (ofPiece kind start stop bodyStart body).StandsIn text := by
  constructor
  · exact standsIn_of_mem_rowsFrom_lines stands.trim
  · intro _
    rw [contentStart_ofPiece, content_ofPiece]
    exact stands.trim

theorem standsIn_ofRows {start stop : Nat} {rows : List Row}
    (stand : ∀ row ∈ rows, row.StandsIn text) : (ofRows start stop rows).StandsIn text :=
  ⟨standsIn_of_mem_tidyRows stand, fun notDoc => absurd rfl notDoc⟩

/-- A comment stands in the text if what its token holds stands behind the place of the token. -/
theorem standsIn_of_ofHit? {style : CommentStyle} {hit : Text.Hit CommentToken} {comment : Comment}
    (stands : hit.token.StandsIn style (text.drop hit.start))
    (found : ofHit? style hit = some comment) : comment.StandsIn text := by
  have rest : StandsAt (text.drop hit.start) hit.start text := List.prefix_refl _
  rw [ofHit?] at found
  cases token : hit.token with
  | doc body =>
    rw [token] at stands found
    obtain ⟨marks, hasMarks, stands⟩ := stands
    cases found
    rw [hasMarks]
    refine standsIn_ofRows (List.forall_mem_map.mpr fun row member => ?_)
    exact (standsIn_of_mem_rowsFrom_lines (stands.trans rest) row member).undecorate
  | block body =>
    rw [token] at stands found
    cases found
    exact standsIn_ofPiece _ _ _ (StandsAt.trans stands rest)
  | docLines rows =>
    rw [token] at stands found
    cases found
    refine standsIn_ofRows (List.forall_mem_map.mpr fun row member => ?_)
    exact (standsIn_of_mem_rowsFrom (StandsAt.trans stands rest) row member).unmark _
  | line body =>
    rw [token] at stands found
    cases found
    exact standsIn_ofPiece _ _ _ (StandsAt.trans stands rest)
  | literal =>
    rw [token] at found
    cases found

end Comment

theorem CommentStyle.standsIn_of_mem_comments {style : CommentStyle} {comment : Comment}
    (member : comment ∈ style.comments text) : comment.StandsIn text := by
  obtain ⟨hit, hitMember, found⟩ := List.mem_filterMap.mp member
  obtain ⟨_, read⟩ := Text.read_of_mem_hits hitMember
  exact Comment.standsIn_of_ofHit? (CommentStyle.standsIn_of_read read) found

theorem standsIn_of_mem_commentsIn {languageName : String} {comment : Comment}
    (member : comment ∈ commentsIn languageName text) : comment.StandsIn text := by
  rw [commentsIn] at member
  split at member
  · cases member
  · exact CommentStyle.standsIn_of_mem_comments member

end Marginalia
