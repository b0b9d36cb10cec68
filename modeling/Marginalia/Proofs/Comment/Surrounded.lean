import Marginalia.Proofs.Comment.Shape
import Marginalia.Proofs.Text.Scan

/-!
# Comments of a text between others

Comments and literals begin with a few characters, and what is closed ends with one of them.  A text
may therefore stand between others without these characters: its comments are found again as they are,
moved by what stands in front, and there are no others.  A line end has to part the text from what
follows, since a comment may go on to the end of its line.
-/

namespace Marginalia

open Text (trimRight allBlank)

/-! ## Characters of marks -/

/-- The characters that comments and literals begin with. -/
def markChars : List Char := ['/', '#', '"', '\'', '`']

/-- A text without any of the characters that comments and literals begin with. -/
def IsQuiet (text : List Char) : Prop :=
  ∀ c ∈ text, c ∉ markChars

instance (text : List Char) : Decidable (IsQuiet text) :=
  List.decidableBAll (· ∉ markChars) text

/-- A mark can be told from a quiet text in front of it, and has no line end. -/
structure IsOpener (mark : String) : Prop where
  begins : ∃ c rest, mark.toList = c :: rest ∧ c ∈ markChars
  oneLine : '\n' ∉ mark.toList

/-- A mark can be told from a quiet text behind it. -/
def IsCloser (mark : String) : Prop :=
  ∃ front c, mark.toList = front ++ [c] ∧ c ∈ markChars

/-- The marks of a style can be told from quiet texts around them. -/
structure CommentStyle.IsMarked (style : CommentStyle) : Prop where
  line : IsOpener style.line
  block : IsOpener style.block.opener ∧ IsCloser style.block.closer
  doc : ∀ marks, style.doc = some marks → IsOpener marks.opener ∧ IsCloser marks.closer
  lineDoc : ∀ mark, style.lineDoc = some mark → IsOpener mark

theorem Language.isMarked_style (language : Language) : language.style.IsMarked := by
  have slashes : IsOpener "//" := ⟨⟨'/', _, rfl, by decide⟩, by decide⟩
  have block : IsOpener "/*" ∧ IsCloser "*/" :=
    ⟨⟨⟨'/', _, rfl, by decide⟩, by decide⟩, ⟨['*'], '/', rfl, by decide⟩⟩
  have doc : IsOpener "/**" ∧ IsCloser "*/" := ⟨⟨⟨'/', _, rfl, by decide⟩, by decide⟩, block.2⟩
  have lineDoc : IsOpener "///" := ⟨⟨'/', _, rfl, by decide⟩, by decide⟩
  have hash : IsOpener "#" := ⟨⟨'#', _, rfl, by decide⟩, by decide⟩
  have double : IsOpener "\"\"\"" ∧ IsCloser "\"\"\"" :=
    ⟨⟨⟨'"', _, rfl, by decide⟩, by decide⟩, ⟨['"', '"'], '"', rfl, by decide⟩⟩
  have single : IsOpener "'''" ∧ IsCloser "'''" :=
    ⟨⟨⟨'\'', _, rfl, by decide⟩, by decide⟩, ⟨['\'', '\''], '\'', rfl, by decide⟩⟩
  cases language <;> constructor <;>
    simp [style, slashBlock, slashes, block, doc, lineDoc, hash, double, single]

theorem LiteralForm.quote_mem_markChars (form : LiteralForm) : form.quote ∈ markChars := by
  cases form <;> decide

variable {tail : List Char} {mark : String}

theorem IsQuiet.notMem (quiet : IsQuiet tail) {c : Char} (isMark : c ∈ markChars) : c ∉ tail :=
  fun member => quiet c member isMark

theorem IsQuiet.newline (quiet : IsQuiet tail) : IsQuiet ('\n' :: tail) :=
  List.forall_mem_cons.mpr ⟨by decide, quiet⟩

theorem IsOpener.not_prefix (opens : IsOpener mark) {text : List Char}
    (quiet : ∀ c rest, text = c :: rest → c ∉ markChars) : ¬ mark.toList <+: text := by
  obtain ⟨first, more, spelled, isMark⟩ := opens.begins
  rintro ⟨rest, rfl⟩
  rw [spelled] at quiet
  exact quiet first _ rfl isMark

theorem IsOpener.isPrefixOf_append (opens : IsOpener mark) (text : List Char) :
    mark.toList.isPrefixOf (text ++ '\n' :: tail) = mark.toList.isPrefixOf text := by
  rw [Bool.eq_iff_iff, List.isPrefixOf_iff_prefix, List.isPrefixOf_iff_prefix]
  exact Text.prefix_append_cons_iff opens.oneLine text

theorem IsOpener.isPrefixOf_of_quiet (opens : IsOpener mark) {c : Char} (quiet : c ∉ markChars)
    (rest : List Char) : mark.toList.isPrefixOf (c :: rest) = false := by
  rw [Bool.eq_false_iff, Ne, List.isPrefixOf_iff_prefix]
  exact opens.not_prefix fun _ _ same => (List.cons.inj same).1 ▸ quiet

theorem IsCloser.before?_append (closes : IsCloser mark) (quiet : IsQuiet tail) (text : List Char) :
    Text.before? mark.toList (text ++ tail) = Text.before? mark.toList text := by
  obtain ⟨front, last, spelled, isMark⟩ := closes
  rw [spelled]
  exact Text.before?_append (quiet.notMem isMark) text

/-! ## Literals -/

theorem exists_append_of_isClosed {quote : Char} {manyLines : Bool} {piece : List Char}
    (closed : IsClosed quote manyLines piece) : ∃ front, piece = front ++ [quote] := by
  induction closed with
  | quote => exact ⟨[], rfl⟩
  | @unit unit rest _ _ ih =>
    obtain ⟨front, rfl⟩ := ih
    exact ⟨unit ++ front, (List.append_assoc unit front [quote]).symm⟩

namespace LiteralForm

theorem exists_append_of_spells {form : LiteralForm} {piece : List Char}
    (spells : form.Spells piece) : ∃ front, piece = front ++ [form.quote] := by
  obtain ⟨rest, closes, rfl⟩ := spells
  have ends : ∃ front, rest = front ++ [form.quote] := by
    cases form with
    | doubleQuoted | singleQuoted | template => exact exists_append_of_isClosed closes
    | character =>
      obtain ⟨unit, _, rfl⟩ := closes
      exact ⟨unit, rfl⟩
    | rawString =>
      obtain ⟨body, _, rfl⟩ := closes
      exact ⟨body, rfl⟩
  obtain ⟨front, rfl⟩ := ends
  exact ⟨form.quote :: front, rfl⟩

/-- A literal that is open at the end of a text is not closed by a quiet tail. -/
theorem read?_append (form : LiteralForm) (quiet : IsQuiet tail) (text : List Char) :
    form.read? (text ++ tail) = form.read? text := by
  -- What the readers accept is told by spellings, so no reader has to be followed into the tail.
  apply Option.ext
  intro length
  rw [read?_eq_some_iff, read?_eq_some_iff]
  refine exists_congr fun piece => and_congr_right fun spells => and_congr_left fun _ => ?_
  obtain ⟨front, rfl⟩ := exists_append_of_spells spells
  exact Text.append_singleton_prefix_append_iff (quiet.notMem form.quote_mem_markChars) text

theorem read?_of_quiet (form : LiteralForm) {c : Char} (quiet : c ∉ markChars) (rest : List Char) :
    form.read? (c :: rest) = none := by
  cases found : form.read? (c :: rest) with
  | none => rfl
  | some length =>
    obtain ⟨_, ⟨_, _, rfl⟩, front, _⟩ := form.read?_eq_some_iff.mp found
    obtain ⟨same, _⟩ := List.cons_prefix_cons.mp front
    exact absurd (same ▸ form.quote_mem_markChars) quiet

end LiteralForm

/-! ## Readers -/

theorem Delimiters.read?_append {marks : Delimiters} (opens : IsOpener marks.opener)
    (closes : IsCloser marks.closer) (quiet : IsQuiet tail) (text : List Char) :
    marks.read? (text ++ '\n' :: tail) = marks.read? text := by
  rw [read?, read?, opens.isPrefixOf_append]
  split
  next front =>
    have fits := (List.isPrefixOf_iff_prefix.mp front).length_le
    rw [String.length_toList] at fits
    rw [List.drop_append_of_le_length fits, closes.before?_append quiet.newline]
  next => rfl

theorem continuesDoc_append (opens : IsOpener mark) (text : List Char) :
    continuesDoc mark.toList (text ++ '\n' :: tail) = continuesDoc mark.toList text := by
  rw [continuesDoc, continuesDoc, List.dropWhile_append]
  split
  next blanks =>
    -- The blanks go on up to the line end, and there is no mark in the empty line.
    rw [List.isEmpty_iff.mp blanks, List.dropWhile_cons_of_neg (by decide)]
    exact opens.isPrefixOf_append []
  next => exact opens.isPrefixOf_append _

theorem not_continuesDoc_of_quiet (opens : IsOpener mark) (quiet : IsQuiet tail) :
    continuesDoc mark.toList tail = false := by
  rw [continuesDoc, Bool.eq_false_iff, Ne, List.isPrefixOf_iff_prefix]
  refine opens.not_prefix fun c rest same => quiet c ?_
  exact (List.dropWhile_suffix _).subset (same ▸ List.mem_cons_self)

theorem docLength_append (opens : IsOpener mark) (quiet : IsQuiet tail) (text : List Char) :
    docLength mark.toList (text ++ '\n' :: tail) = docLength mark.toList text := by
  induction text with
  | nil => simp [docLength, not_continuesDoc_of_quiet opens quiet]
  | cons c rest ih =>
    rw [List.cons_append, docLength, docLength, continuesDoc_append opens, ih]

theorem docLength_le (mark text : List Char) : docLength mark text ≤ text.length := by
  induction text with
  | nil => exact Nat.le_refl 0
  | cons c rest ih =>
    rw [docLength]
    split
    · exact Nat.zero_le _
    · exact Nat.succ_le_succ ih

namespace CommentStyle

variable {style : CommentStyle}

/-- A quiet tail does not make an empty block of what begins documentation. -/
theorem isEmptyBlock_append {marks : Delimiters} (closes : IsCloser marks.closer)
    {text : List Char} (fits : marks.opener.length ≤ text.length) :
    style.isEmptyBlock marks (text ++ '\n' :: tail) = style.isEmptyBlock marks text := by
  obtain ⟨front, last, spelled, isMark⟩ := closes
  have next : ((text ++ '\n' :: tail).drop marks.opener.length).head? = some last ↔
      (text.drop marks.opener.length).head? = some last := by
    rw [List.drop_append_of_le_length fits]
    cases text.drop marks.opener.length with
    | nil =>
      have noEnd : '\n' ≠ last := fun same => absurd (same ▸ isMark) (by decide)
      simpa using noEnd
    | cons c rest => rfl
  rw [isEmptyBlock, isEmptyBlock, spelled, List.getLast?_concat]
  congr 1
  rw [Bool.eq_iff_iff, beq_iff_eq, beq_iff_eq, next]

theorem readDoc?_append (marked : style.IsMarked) (quiet : IsQuiet tail) (text : List Char) :
    style.readDoc? (text ++ '\n' :: tail) = style.readDoc? text := by
  rw [readDoc?, readDoc?]
  cases known : style.doc with
  | none => rfl
  | some marks =>
    obtain ⟨opens, closes⟩ := marked.doc marks known
    have same := Delimiters.read?_append opens closes quiet text
    rw [Option.bind_some, Option.bind_some, same]
    cases found : marks.read? text with
    | none => simp
    | some body =>
      -- The opener is whole in the text, so what is looked at behind it is the same.
      have front := (Delimiters.enclose_of_read? found).opens.length_le
      rw [String.length_toList] at front
      rw [isEmptyBlock_append closes front]

theorem readBlock?_append (marked : style.IsMarked) (quiet : IsQuiet tail) (text : List Char) :
    style.readBlock? (text ++ '\n' :: tail) = style.readBlock? text := by
  rw [readBlock?, readBlock?, Delimiters.read?_append marked.block.1 marked.block.2 quiet]

theorem readDocLines?_append (marked : style.IsMarked) (quiet : IsQuiet tail) (text : List Char) :
    style.readDocLines? (text ++ '\n' :: tail) = style.readDocLines? text := by
  rw [readDocLines?, readDocLines?]
  cases known : style.lineDoc with
  | none => rfl
  | some mark =>
    have opens := marked.lineDoc mark known
    have inside := docLength_le mark.toList text
    simp only [Option.bind_some, opens.isPrefixOf_append, docLength_append opens quiet,
      List.take_append_of_le_length inside]

theorem readLine?_append (marked : style.IsMarked) (text : List Char) :
    style.readLine? (text ++ '\n' :: tail) = style.readLine? text := by
  rw [readLine?, readLine?, marked.line.isPrefixOf_append]
  split
  next front =>
    have fits := (List.isPrefixOf_iff_prefix.mp front).length_le
    rw [String.length_toList] at fits
    rw [List.drop_append_of_le_length fits, Text.takeWhile_ne_append]
  next => rfl

theorem readLiteral?_append (quiet : IsQuiet tail) (text : List Char) :
    style.readLiteral? (text ++ tail) = style.readLiteral? text := by
  simp only [readLiteral?, LiteralForm.read?_append _ quiet]

/-- What is read in front of a text does not depend on a quiet tail behind a line end. -/
theorem read_append (marked : style.IsMarked) (quiet : IsQuiet tail) (text : List Char) :
    style.read (text ++ '\n' :: tail) = style.read text := by
  rw [read, read, readDoc?_append marked quiet, readBlock?_append marked quiet,
    readDocLines?_append marked quiet, readLine?_append marked, readLiteral?_append quiet.newline]

/-- Nothing begins with a character that is in no mark. -/
theorem read_of_quiet (marked : style.IsMarked) {c : Char} (quiet : c ∉ markChars)
    (rest : List Char) : style.read (c :: rest) = none := by
  have unopened {mark : String} (opens : IsOpener mark) :
      mark.toList.isPrefixOf (c :: rest) = false :=
    opens.isPrefixOf_of_quiet quiet rest
  have doc : style.readDoc? (c :: rest) = none := by
    rw [readDoc?, Option.bind_eq_none_iff]
    intro marks known
    simp [Delimiters.read?, unopened (marked.doc marks known).1]
  have docLines : style.readDocLines? (c :: rest) = none := by
    rw [readDocLines?, Option.bind_eq_none_iff]
    intro mark known
    simp [unopened (marked.lineDoc mark known)]
  have literal : style.readLiteral? (c :: rest) = none := by
    rw [readLiteral?, Option.map_eq_none_iff, List.findSome?_eq_none_iff]
    exact fun form _ => form.read?_of_quiet quiet rest
  simp [read, doc, docLines, literal, readBlock?, Delimiters.read?, readLine?,
    unopened marked.block.1, unopened marked.line]

end CommentStyle

/-! ## Comments further on -/

/-- The row, further on by a distance. -/
def Row.shift (distance : Nat) (row : Row) : Row :=
  { row with start := row.start + distance }

/-- The comment, further on by a distance with all its rows. -/
def Comment.shift (distance : Nat) (comment : Comment) : Comment :=
  { comment with
    start := comment.start + distance
    stop := comment.stop + distance
    rows := comment.rows.map (Row.shift distance) }

variable (distance : Nat)

theorem rowsFrom_shift (start : Nat) (pieces : List (List Char)) :
    rowsFrom (start + distance) pieces = (rowsFrom start pieces).map (Row.shift distance) := by
  induction pieces generalizing start with
  | nil => rfl
  | cons piece more ih =>
    have further := ih (start + piece.length + 1)
    rw [Nat.add_right_comm _ 1, Nat.add_right_comm start] at further
    rw [rowsFrom, rowsFrom, List.map_cons, ← further]
    rfl

namespace Row

theorem trim_shift (row : Row) : (row.shift distance).trim = row.trim.shift distance := by
  simp only [trim, shift, Nat.add_right_comm]

theorem trimLeft_shift (row : Row) :
    (row.shift distance).trimLeft = row.trimLeft.shift distance := by
  simp only [trimLeft, shift, Nat.add_right_comm]

theorem drop_shift (count : Nat) (row : Row) :
    (row.shift distance).drop count = (row.drop count).shift distance := by
  simp only [drop, shift, Nat.add_right_comm]

theorem undecorate_shift (row : Row) :
    (row.shift distance).undecorate = row.undecorate.shift distance := by
  simp only [undecorate, drop_shift]
  rfl

theorem unmark_shift (mark : List Char) (row : Row) :
    (row.shift distance).unmark mark = (row.unmark mark).shift distance := by
  rw [unmark, unmark, drop_shift, trim_shift]
  rfl

end Row

theorem tidyRows_shift (stop : Nat) (rows : List Row) :
    tidyRows (stop + distance) (rows.map (Row.shift distance)) =
      (tidyRows stop rows).map (Row.shift distance) := by
  have blank : (fun row : Row => allBlank row.text) ∘ Row.shift distance =
      fun row => allBlank row.text := rfl
  simp only [tidyRows, List.dropWhile_map, ← List.map_reverse, blank]
  cases ((rows.dropWhile fun row => allBlank row.text).reverse.dropWhile
      fun row => allBlank row.text).reverse with
  | nil => rfl
  | cons first more => simp only [List.map_cons, Row.trimLeft_shift]

namespace Comment

theorem ofPiece_shift (kind : CommentKind) (start stop bodyStart : Nat) (body : List Char) :
    ofPiece kind (start + distance) (stop + distance) (bodyStart + distance) body =
      (ofPiece kind start stop bodyStart body).shift distance := by
  rw [ofPiece, ofPiece, Nat.add_right_comm, rowsFrom_shift]
  rfl

theorem ofRows_shift (start stop : Nat) (rows : List Row) :
    ofRows (start + distance) (stop + distance) (rows.map (Row.shift distance)) =
      (ofRows start stop rows).shift distance := by
  rw [ofRows, ofRows, tidyRows_shift]
  rfl

theorem ofHit?_shift (style : CommentStyle) (hit : Text.Hit CommentToken) :
    ofHit? style (hit.shift distance) = (ofHit? style hit).map (shift distance) := by
  have stop : (hit.shift distance).stop = hit.stop + distance := by
    simp only [Text.Hit.stop, Text.Hit.shift, Nat.add_right_comm]
  have undecorated : Row.undecorate ∘ Row.shift distance = Row.shift distance ∘ Row.undecorate :=
    funext (Row.undecorate_shift distance)
  have unmarked (mark : List Char) :
      Row.unmark mark ∘ Row.shift distance = Row.shift distance ∘ Row.unmark mark :=
    funext (Row.unmark_shift distance mark)
  rw [ofHit?, ofHit?, stop]
  -- Each form of comment counts its rows from where its body starts, and that is moved as well.
  cases token : hit.token with
  | literal => simp only [Text.Hit.shift, token, Option.map_none]
  | block body | line body =>
    simp only [Text.Hit.shift, token, Option.map_some]
    rw [Nat.add_right_comm, ofPiece_shift]
  | doc body =>
    simp only [Text.Hit.shift, token, Option.map_some]
    rw [Nat.add_right_comm, rowsFrom_shift, List.map_map, undecorated, ← List.map_map, ofRows_shift]
  | docLines rows =>
    simp only [Text.Hit.shift, token, Option.map_some]
    rw [rowsFrom_shift, List.map_map, unmarked, ← List.map_map, ofRows_shift]

theorem content_shift (comment : Comment) : (comment.shift distance).content = comment.content := by
  rw [content, shift, List.map_map]
  rfl

theorem contentStart_shift (comment : Comment) :
    (comment.shift distance).contentStart = comment.contentStart + distance := by
  rw [contentStart, contentStart, shift]
  cases comment.rows <;> rfl

end Comment

/-- The comments of a text are found again between quiet texts, moved, and no others. -/
theorem CommentStyle.comments_append_append {style : CommentStyle} (marked : style.IsMarked)
    (clear : style.IsClear) {front : List Char} (frontQuiet : IsQuiet front) (quiet : IsQuiet tail)
    (text : List Char) :
    style.comments (front ++ text ++ '\n' :: tail) =
      (style.comments text).map (Comment.shift front.length) := by
  have tokens : Text.hits style.read (front ++ text ++ '\n' :: tail) =
      (Text.hits style.read text).map (Text.Hit.shift front.length) :=
    Text.hits_append_append (fun c member => read_of_quiet marked (frontQuiet c member))
      (fun c member => read_of_quiet marked (quiet.newline c member)) (read_append marked quiet)
      (fun found => (tells_of_read clear found).length_le) text
  rw [comments, comments, tokens, List.filterMap_map, List.map_filterMap]
  exact congrArg (List.filterMap · _) (funext (Comment.ofHit?_shift front.length style))

end Marginalia
