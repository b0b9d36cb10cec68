import Marginalia.Proofs.Comment.Rows
import Marginalia.Proofs.Comment.Shape

/-!
# Order of the rows of a comment

The rows of a comment lie between its marks, one behind the other with a line end between them.  What is
taken off a row leaves it within the line that it was, so the order of the lines stays that of the rows.
-/

namespace Marginalia

open Text (trimRight indent isBlank lines)

/-! ## Rows within others -/

def Row.stop (row : Row) : Nat :=
  row.start + row.text.length

structure Row.Within (inner outer : Row) : Prop where
  start : outer.start ≤ inner.start
  stop : inner.stop ≤ outer.stop

theorem decoration_le_length (row : List Char) : decoration row ≤ row.length := by
  rw [decoration]
  split
  next rest starred =>
    have parts := congrArg List.length (List.takeWhile_append_dropWhile (p := isBlank) (l := row))
    have blanks := List.countP_le_length (p := isBlank) (l := rest.take 1)
    rw [starred] at parts
    simp only [List.length_append, List.length_cons, List.length_take, indent] at *
    omega
  next => exact Nat.zero_le _

namespace Row

theorem Within.trans {inner middle outer : Row} (within : inner.Within middle)
    (around : middle.Within outer) : inner.Within outer :=
  ⟨Nat.le_trans around.start within.start, Nat.le_trans within.stop around.stop⟩

theorem within_drop {count : Nat} {row : Row} (fits : count ≤ row.text.length) :
    (row.drop count).Within row := by
  refine ⟨Nat.le_add_right _ _, ?_⟩
  simp only [stop, drop, List.length_drop]
  omega

theorem within_trimRight (row : Row) : Within ⟨row.start, trimRight row.text⟩ row :=
  ⟨Nat.le_refl _, Nat.add_le_add_left (Text.trimRight_isPrefix row.text).length_le _⟩

theorem within_trimLeft (row : Row) : row.trimLeft.Within row := by
  have dropped : row.trimLeft = row.drop (indent row.text) := by
    rw [trimLeft, drop, Text.drop_indent]
  rw [dropped]
  exact within_drop (List.takeWhile_prefix isBlank).length_le

theorem within_trim (row : Row) : row.trim.Within row :=
  (within_trimRight row.trimLeft).trans row.within_trimLeft

theorem within_undecorate (row : Row) : row.undecorate.Within row :=
  (within_trimRight _).trans (within_drop (decoration_le_length row.text))

theorem within_unmark {mark : List Char} {row : Row} {place : Nat}
    (marked : mark <+: row.text.drop place) : (row.unmark mark).Within row := by
  obtain ⟨first, found⟩ := Text.exists_find?_of_prefix marked
  rw [unmark, found]
  exact (within_trim _).trans (within_drop (Text.find?_bound found))

end Row

/-! ## Rows one behind the other -/

/-- Rows lie between two offsets, one behind the other with something between them. -/
structure AreLaidOut (start stop : Nat) (rows : List Row) : Prop where
  inside : ∀ row ∈ rows, start ≤ row.start ∧ row.stop ≤ stop
  apart : rows.Pairwise fun front back => front.stop < back.start

theorem areLaidOut_rowsFrom (start : Nat) (pieces : List (List Char)) :
    AreLaidOut start (start + (['\n'].intercalate pieces).length) (rowsFrom start pieces) := by
  induction pieces generalizing start with
  | nil => exact ⟨fun _ member => (List.not_mem_nil member).elim, List.Pairwise.nil⟩
  | cons piece pieces ih =>
    cases pieces with
    | nil => exact ⟨by simp [rowsFrom, Row.stop], List.pairwise_singleton _ _⟩
    | cons next more =>
      -- The rows behind the first begin behind the line end that follows it.
      obtain ⟨inside, apart⟩ := ih (start + piece.length + 1)
      have length : start + (['\n'].intercalate (piece :: next :: more)).length =
          start + piece.length + 1 + (['\n'].intercalate (next :: more)).length := by
        rw [List.intercalate_cons_cons]
        simp only [List.length_append, List.length_singleton]
        omega
      rw [length, rowsFrom]
      constructor
      · rw [List.forall_mem_cons]
        refine ⟨⟨Nat.le_refl _, ?_⟩, fun row member => ?_⟩
        · simp only [Row.stop]
          omega
        · obtain ⟨behind, before⟩ := inside row member
          exact ⟨by omega, before⟩
      · apply List.Pairwise.cons _ apart
        intro row member
        have behind := (inside row member).1
        simp only [Row.stop]
        omega

namespace AreLaidOut

variable {start stop : Nat} {rows : List Row}

theorem mono {first last : Nat} (laidOut : AreLaidOut start stop rows) (front : first ≤ start)
    (back : stop ≤ last) : AreLaidOut first last rows := by
  refine ⟨fun row member => ?_, laidOut.apart⟩
  obtain ⟨behind, before⟩ := laidOut.inside row member
  exact ⟨Nat.le_trans front behind, Nat.le_trans before back⟩

theorem sublist {kept : List Row} (laidOut : AreLaidOut start stop rows) (fewer : kept.Sublist rows) :
    AreLaidOut start stop kept :=
  ⟨fun row member => laidOut.inside row (fewer.subset member), laidOut.apart.sublist fewer⟩

theorem map {shrink : Row → Row} (laidOut : AreLaidOut start stop rows)
    (within : ∀ row ∈ rows, (shrink row).Within row) : AreLaidOut start stop (rows.map shrink) := by
  constructor
  · rw [List.forall_mem_map]
    intro row member
    obtain ⟨behind, before⟩ := laidOut.inside row member
    exact ⟨Nat.le_trans behind (within row member).start, Nat.le_trans (within row member).stop before⟩
  · rw [List.pairwise_map]
    apply laidOut.apart.imp_of_mem
    intro front back frontMember backMember apart
    have frontStop := (within front frontMember).stop
    have backStart := (within back backMember).start
    omega

theorem tidyRows (laidOut : AreLaidOut start stop rows) (nonempty : start ≤ stop) :
    AreLaidOut start stop (tidyRows stop rows) := by
  rcases tidyRows_cases stop rows with nothing | ⟨first, more, tidied, fewer, -⟩
  · rw [nothing]
    exact ⟨by simp [Row.stop, nonempty], List.pairwise_singleton _ _⟩
  -- Only the first row is trimmed, which moves its start away from the others' fronts.
  · have kept := laidOut.sublist fewer
    have trimmed := first.within_trimLeft
    obtain ⟨firstInside, moreInside⟩ := List.forall_mem_cons.mp kept.inside
    obtain ⟨firstApart, moreApart⟩ := List.pairwise_cons.mp kept.apart
    rw [tidied]
    constructor
    · apply List.forall_mem_cons.mpr ⟨_, moreInside⟩
      exact ⟨Nat.le_trans firstInside.1 trimmed.start, Nat.le_trans trimmed.stop firstInside.2⟩
    · apply List.Pairwise.cons _ moreApart
      exact fun row member => Nat.lt_of_le_of_lt trimmed.stop (firstApart row member)

end AreLaidOut

/-! ## Tokens -/

/-- What a token holds lies behind its mark and within its length; documentation on lines has the mark in
    every line. -/
def CommentToken.FitsIn (style : CommentStyle) (length : Nat) : CommentToken → Prop
  | .doc body => ∃ marks, style.doc = some marks ∧ marks.opener.length + body.length ≤ length
  | .block body => style.block.opener.length + body.length ≤ length
  | .docLines rows => (['\n'].intercalate rows).length ≤ length ∧ ∃ mark, style.lineDoc = some mark ∧
      ∀ row ∈ rows, ∃ place, mark.toList <+: row.drop place
  | .line body => style.line.length + body.length ≤ length
  | .literal => True

namespace CommentStyle

variable {style : CommentStyle} {text : List Char} {length : Nat} {token : CommentToken}

theorem fitsIn_of_readDocLines? (clear : style.IsClear)
    (found : style.readDocLines? text = some (length, token)) : token.FitsIn style length := by
  have tells := tells_of_readDocLines? clear found
  obtain ⟨mark, hasMark, read⟩ := Option.bind_eq_some_iff.mp found
  split at read
  · cases read
    obtain ⟨_, known, ⟨first, more, split, starts, goOn⟩, _⟩ := tells
    obtain rfl := Option.some.inj (known.symm.trans hasMark)
    refine ⟨?_, _, hasMark, ?_⟩
    · rw [intercalate_lines]
      exact List.length_take_le _ _
    · rw [split, List.forall_mem_cons]
      refine ⟨⟨0, starts⟩, fun row member => ?_⟩
      obtain ⟨blanks, _, behind, rfl⟩ := goOn row member
      exact ⟨blanks.length, behind, by simp⟩
  · cases read

theorem fitsIn_of_read (clear : style.IsClear) (found : style.read text = some (length, token)) :
    token.FitsIn style length := by
  simp only [read, Option.orElse_eq_orElse, Option.orElse_eq_or, Option.or_eq_some_iff] at found
  rcases found with doc | ⟨_, block | ⟨_, docLines | ⟨_, line | ⟨_, literal⟩⟩⟩⟩
  · obtain ⟨marks, hasMarks, read⟩ := Option.bind_eq_some_iff.mp doc
    split at read
    · cases read
    · obtain ⟨body, _, same⟩ := Option.map_eq_some_iff.mp read
      cases same
      exact ⟨marks, hasMarks, Nat.le_add_right _ _⟩
  · obtain ⟨body, _, same⟩ := Option.map_eq_some_iff.mp block
    cases same
    exact Nat.le_add_right _ _
  · exact fitsIn_of_readDocLines? clear docLines
  · rw [readLine?] at line
    split at line
    · cases line
      exact Nat.le_refl _
    · cases line
  · obtain ⟨_, _, same⟩ := Option.map_eq_some_iff.mp literal
    cases same
    trivial

end CommentStyle

/-! ## Comments -/

/-- The rows of a comment lie in it one behind the other, and so does its content as one piece unless it
    is documentation. -/
structure Comment.IsLaidOut (comment : Comment) : Prop where
  rows : AreLaidOut comment.start comment.stop comment.rows
  content : comment.kind ≠ .doc → comment.start ≤ comment.contentStart ∧
    comment.contentStart + comment.content.length ≤ comment.stop

namespace Comment

theorem isLaidOut_ofPiece {start stop bodyStart : Nat} {body : List Char} (kind : CommentKind)
    (front : start ≤ bodyStart) (back : bodyStart + body.length ≤ stop) :
    (ofPiece kind start stop bodyStart body).IsLaidOut := by
  -- The content is the body as a row without the blanks at its ends.
  have trimmed := Row.within_trim ⟨bodyStart, body⟩
  have behind : bodyStart ≤ bodyStart + indent body := trimmed.start
  have before : bodyStart + indent body + (Text.trim body).length ≤ bodyStart + body.length :=
    trimmed.stop
  constructor
  · have rows := areLaidOut_rowsFrom (bodyStart + indent body) (lines (Text.trim body))
    rw [intercalate_lines] at rows
    exact rows.mono (Nat.le_trans front behind) (Nat.le_trans before back)
  · intro _
    rw [contentStart_ofPiece, content_ofPiece]
    exact ⟨Nat.le_trans front behind, Nat.le_trans before back⟩

theorem isLaidOut_ofRows {start stop : Nat} {rows : List Row} (laidOut : AreLaidOut start stop rows)
    (nonempty : start ≤ stop) : (ofRows start stop rows).IsLaidOut :=
  ⟨laidOut.tidyRows nonempty, fun notDoc => absurd rfl notDoc⟩

theorem isLaidOut_of_ofHit? {style : CommentStyle} {hit : Text.Hit CommentToken} {comment : Comment}
    (fits : hit.token.FitsIn style hit.length) (found : ofHit? style hit = some comment) :
    comment.IsLaidOut := by
  have nonempty : hit.start ≤ hit.stop := Nat.le_add_right _ _
  rw [ofHit?] at found
  cases token : hit.token with
  | doc body =>
    rw [token] at fits found
    obtain ⟨marks, hasMarks, fits⟩ := fits
    cases found
    have rows := areLaidOut_rowsFrom (hit.start + marks.opener.length) (lines body)
    rw [intercalate_lines] at rows
    have lines := rows.map fun row _ => row.within_undecorate
    simp only [hasMarks, Option.map_some, Option.getD_some]
    apply isLaidOut_ofRows _ nonempty
    apply lines.mono (Nat.le_add_right _ _)
    rw [Text.Hit.stop]
    omega
  | block body =>
    rw [token] at fits found
    cases found
    apply isLaidOut_ofPiece _ (Nat.le_add_right _ _)
    rw [Text.Hit.stop, Nat.add_assoc]
    exact Nat.add_le_add_left fits _
  | docLines pieces =>
    rw [token] at fits found
    obtain ⟨fits, mark, hasMark, marked⟩ := fits
    cases found
    have rows := areLaidOut_rowsFrom hit.start pieces
    simp only [hasMark, Option.getD_some]
    apply isLaidOut_ofRows _ nonempty
    apply (rows.map _).mono (Nat.le_refl _) (Nat.add_le_add_left fits _)
    intro row member
    have text : row.text ∈ pieces := by
      rw [← map_text_rowsFrom hit.start pieces]
      exact List.mem_map_of_mem member
    obtain ⟨place, here⟩ := marked _ text
    exact Row.within_unmark here
  | line body =>
    rw [token] at fits found
    cases found
    apply isLaidOut_ofPiece _ (Nat.le_add_right _ _)
    rw [Text.Hit.stop, Nat.add_assoc]
    exact Nat.add_le_add_left fits _
  | literal =>
    rw [token] at found
    cases found

end Comment

/-- The rows of every comment of a text lie in it, one behind the other. -/
theorem isLaidOut_of_mem_commentsIn {languageName : String} {text : List Char} {comment : Comment}
    (member : comment ∈ commentsIn languageName text) : comment.IsLaidOut := by
  rw [commentsIn] at member
  split at member
  · cases member
  next language _ =>
    obtain ⟨hit, hitMember, found⟩ := List.mem_filterMap.mp member
    obtain ⟨_, read⟩ := Text.read_of_mem_hits hitMember
    exact Comment.isLaidOut_of_ofHit? (CommentStyle.fitsIn_of_read language.isClear_style read) found

end Marginalia
