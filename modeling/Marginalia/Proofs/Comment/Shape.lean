import Marginalia.Comment.Span
import Marginalia.Proofs.Comment.Literal

/-!
# Shapes of comments

What a comment of each form looks like in front of a text, said without the readers: where its marks
stand and where it ends.  The readers find exactly what has one of these shapes, so a comment is read
wherever one that ends could start.
-/

namespace Marginalia

open Text (lines lines_newline lines_cons)

/-! ## Shapes -/

/-- The first occurrence of `needle` from `start` on is at `place`. -/
structure OccursFirst (needle : List Char) (start place : Nat) (text : List Char) : Prop where
  behind : start ≤ place
  stands : needle <+: text.drop place
  first : ∀ earlier, start ≤ earlier → earlier < place → ¬ needle <+: text.drop earlier

/-- A closed comment of a length in front of a text: it opens with the opener and ends with the first
    closer from the end of the opener on. -/
structure Delimiters.Enclose (marks : Delimiters) (length : Nat) (text : List Char) : Prop where
  opens : marks.opener.toList <+: text
  closes : ∃ place, OccursFirst marks.closer.toList marks.opener.length place text ∧
    length = place + marks.closer.length

/-- A comment on one line, of a length in front of a text: it goes on to the end of the line. -/
structure IsLineComment (mark : List Char) (length : Nat) (text : List Char) : Prop where
  opens : mark <+: text.take length
  oneLine : '\n' ∉ text.take length
  ends : length = text.length ∨ ∃ rest, text.drop length = '\n' :: rest

/-- A line starts with the mark behind spaces and tabs only. -/
def GoesOn (mark line : List Char) : Prop :=
  ∃ blanks, (∀ c ∈ blanks, c = ' ' ∨ c = '\t') ∧ blanks ++ mark <+: line

/-- Documentation on lines, of a length in front of a text: the first line starts with the mark, the
    others go on with it, and the line behind them does not. -/
structure IsLineDoc (mark : List Char) (length : Nat) (text : List Char) : Prop where
  rows : ∃ first more, lines (text.take length) = first :: more ∧ mark <+: first ∧
    ∀ row ∈ more, GoesOn mark row
  ends : length = text.length ∨ ∃ rest, text.drop length = '\n' :: rest ∧ ¬ GoesOn mark rest

/-- A comment has the shape of its form in a text. -/
def Comment.HasShape (style : CommentStyle) (text : List Char) (comment : Comment) : Prop :=
  let length := comment.stop - comment.start
  let rest := text.drop comment.start
  match comment.kind with
  | .line => IsLineComment style.line.toList length rest
  | .block => style.block.Enclose length rest
  | .doc => (∃ marks, style.doc = some marks ∧ marks.Enclose length rest) ∨
      ∃ mark, style.lineDoc = some mark ∧ IsLineDoc mark.toList length rest

/-- A comment that ends could start in front of the text. -/
inductive CommentStyle.CanStart (style : CommentStyle) (text : List Char) : Prop where
  | line (opens : style.line.toList <+: text)
  | lineDoc {mark : String} (known : style.lineDoc = some mark) (opens : mark.toList <+: text)
  | closed {marks : Delimiters} (known : marks = style.block ∨ style.doc = some marks)
      (opens : marks.opener.toList <+: text) {place : Nat} (behind : marks.opener.length ≤ place)
      (closes : marks.closer.toList <+: text.drop place)

/-- The marks of a style can be told from what stands around them: none is empty, those of lines have
    no line end, and that of documentation does not start with a space or a tab. -/
structure CommentStyle.IsClear (style : CommentStyle) : Prop where
  line : style.line.toList ≠ [] ∧ '\n' ∉ style.line.toList
  block : style.block.opener.toList ≠ []
  doc : ∀ marks, style.doc = some marks → marks.opener.toList ≠ []
  lineDoc : ∀ mark, style.lineDoc = some mark → '\n' ∉ mark.toList ∧
    ∃ c rest, mark.toList = c :: rest ∧ c ≠ ' ' ∧ c ≠ '\t'

theorem Language.isClear_style (language : Language) : language.style.IsClear := by
  cases language <;> constructor <;> simp [Language.style, Language.slashBlock]

variable {text : List Char}

/-! ## Closed comments -/

namespace Delimiters

variable {marks : Delimiters} {body : List Char}

theorem enclose_of_read? (found : marks.read? text = some body) :
    marks.Enclose (marks.extent body) text := by
  rw [read?] at found
  split at found
  next opens =>
    obtain ⟨place, placeFound, rfl⟩ := Option.map_eq_some_iff.mp found
    have bound := Text.find?_bound placeFound
    refine ⟨List.isPrefixOf_iff_prefix.mp opens, marks.opener.length + place, ?_, ?_⟩
    · refine ⟨Nat.le_add_right _ _, ?_, fun earlier behind before here => ?_⟩
      · rw [← List.drop_drop]
        exact Text.prefix_of_find? placeFound
      · obtain ⟨offset, rfl⟩ := Nat.exists_eq_add_of_le behind
        rw [← List.drop_drop] at here
        exact Text.not_prefix_of_find? placeFound (Nat.lt_of_add_lt_add_left before) here
    · have whole : ((text.drop marks.opener.length).take place).length = place :=
        List.length_take_of_le (by omega)
      rw [extent, whole]
  · cases found

theorem exists_read? (opens : marks.opener.toList <+: text) {place : Nat}
    (behind : marks.opener.length ≤ place) (closes : marks.closer.toList <+: text.drop place) :
    ∃ body, marks.read? text = some body := by
  obtain ⟨offset, rfl⟩ := Nat.exists_eq_add_of_le behind
  rw [← List.drop_drop] at closes
  obtain ⟨first, found⟩ := Text.exists_find?_of_prefix closes
  refine ⟨(text.drop marks.opener.length).take first, ?_⟩
  rw [read?, if_pos (List.isPrefixOf_iff_prefix.mpr opens), Text.before?, found]
  rfl

theorem Enclose.length_le {length : Nat} (encloses : marks.Enclose length text) :
    length ≤ text.length := by
  obtain ⟨opens, place, ⟨behind, stands, first⟩, rfl⟩ := encloses
  have fits := stands.length_le
  rw [List.length_drop, String.length_toList] at fits
  have opened := opens.length_le
  rw [String.length_toList] at opened
  -- A closer behind the end would be empty, and so stand at the end of the opener already.
  have inside : place ≤ text.length := by
    refine Nat.le_of_not_lt fun outside => ?_
    rw [List.drop_of_length_le (Nat.le_of_lt outside), List.prefix_nil] at stands
    exact first _ (Nat.le_refl _) (by omega) (stands ▸ List.nil_prefix)
  omega

theorem Enclose.length_ne_zero {length : Nat} (encloses : marks.Enclose length text)
    (nonempty : marks.opener.toList ≠ []) : length ≠ 0 := by
  obtain ⟨_, place, ⟨behind, _, _⟩, rfl⟩ := encloses
  have opened := List.length_pos_iff.mpr nonempty
  rw [String.length_toList] at opened
  omega

end Delimiters

/-! ## Lines -/

theorem goesOn_of_continuesDoc {mark : List Char} (continues : continuesDoc mark text = true) :
    GoesOn mark text := by
  obtain ⟨rest, whole⟩ := List.isPrefixOf_iff_prefix.mp continues
  refine ⟨text.takeWhile fun c => c = ' ' || c = '\t', fun c member => ?_, rest, ?_⟩
  · simpa using List.mem_takeWhile_imp member
  · rw [List.append_assoc, whole, List.takeWhile_append_dropWhile]

theorem continuesDoc_of_goesOn {mark : List Char} {c : Char} {rest : List Char}
    (starts : mark = c :: rest) (noSpace : c ≠ ' ') (noTab : c ≠ '\t') (goesOn : GoesOn mark text) :
    continuesDoc mark text = true := by
  obtain ⟨blanks, areBlank, behind, rfl⟩ := goesOn
  rw [continuesDoc, List.isPrefixOf_iff_prefix, List.append_assoc,
    List.dropWhile_append_of_pos (by simpa using areBlank), starts]
  refine ⟨behind, ?_⟩
  rw [List.cons_append, List.dropWhile_cons_of_neg (by simp [noSpace, noTab])]

theorem drop_docLength (mark text : List Char) : docLength mark text = text.length ∨
    ∃ rest, text.drop (docLength mark text) = '\n' :: rest ∧ continuesDoc mark rest = false := by
  induction text with
  | nil => exact .inl rfl
  | cons c rest ih =>
    rw [docLength]
    split
    next ends =>
      simp only [Bool.and_eq_true, decide_eq_true_eq, Bool.not_eq_true'] at ends
      exact .inr ⟨rest, by rw [ends.1, List.drop_zero], ends.2⟩
    next => exact ih.imp_left (congrArg (· + 1))

/-- The first line of documentation is whole as far as it is known, and the others go on with it. -/
theorem lines_take_docLength {mark front : List Char} (oneLine : '\n' ∉ mark)
    (frontOneLine : '\n' ∉ front) (starts : front <+: text) :
    ∃ first more, lines (text.take (docLength mark text)) = first :: more ∧ front <+: first ∧
      ∀ row ∈ more, GoesOn mark row := by
  induction text generalizing front with
  | nil => exact ⟨[], [], rfl, starts, fun _ member => absurd member List.not_mem_nil⟩
  | cons c rest ih =>
    rw [docLength]
    by_cases isEnd : c = '\n'
    · subst isEnd
      obtain rfl : front = [] := by
        cases front with
        | nil => rfl
        | cons first front =>
          obtain ⟨rfl, _⟩ := List.cons_prefix_cons.mp starts
          exact absurd List.mem_cons_self frontOneLine
      cases continues : continuesDoc mark rest with
      | false => exact ⟨[], [], rfl, List.nil_prefix, fun _ member => absurd member List.not_mem_nil⟩
      | true =>
        -- The next line goes on with the mark, and so does what is taken of it.
        obtain ⟨blanks, areBlank, behind⟩ := goesOn_of_continuesDoc continues
        have nextOneLine : '\n' ∉ blanks ++ mark := by
          rw [List.mem_append, not_or]
          refine ⟨fun member => ?_, oneLine⟩
          rcases areBlank _ member with same | same <;> exact absurd same (by decide)
        obtain ⟨next, more, split, starts, goOn⟩ := ih nextOneLine behind
        refine ⟨[], next :: more, ?_, List.nil_prefix, ?_⟩
        · rw [if_neg (by simp), List.take_succ_cons, lines_newline, split]
        · exact List.forall_mem_cons.mpr ⟨⟨blanks, areBlank, starts⟩, goOn⟩
    · rw [if_neg (by simp [isEnd]), List.take_succ_cons]
      cases front with
      | nil =>
        obtain ⟨first, more, split, _, goOn⟩ := ih List.not_mem_nil List.nil_prefix
        exact ⟨c :: first, more, lines_cons isEnd split, List.nil_prefix, goOn⟩
      | cons d front =>
        obtain ⟨rfl, behind⟩ := List.cons_prefix_cons.mp starts
        rw [List.mem_cons, not_or] at frontOneLine
        obtain ⟨first, more, split, starts, goOn⟩ := ih frontOneLine.2 behind
        exact ⟨d :: first, more, lines_cons isEnd split, List.cons_prefix_cons.mpr ⟨rfl, starts⟩, goOn⟩

theorem isLineComment_append {mark : List Char} (oneLine : '\n' ∉ mark) (rest : List Char) :
    IsLineComment mark (mark.length + (rest.takeWhile (· ≠ '\n')).length) (mark ++ rest) := by
  let body := rest.takeWhile (· ≠ '\n')
  have whole : mark ++ rest = (mark ++ body) ++ rest.dropWhile (· ≠ '\n') := by
    rw [List.append_assoc, List.takeWhile_append_dropWhile]
  have size : mark.length + body.length = (mark ++ body).length := List.length_append.symm
  rw [size, whole]
  constructor
  · rw [List.take_left]
    exact List.prefix_append mark body
  · rw [List.take_left, List.mem_append, not_or]
    exact ⟨oneLine, fun member => by simpa using List.mem_takeWhile_imp member⟩
  · rw [List.drop_left]
    cases dropped : rest.dropWhile (· ≠ '\n') with
    | nil => exact .inl (by rw [List.append_nil])
    | cons c more =>
      have stops := List.head?_dropWhile_not (· ≠ '\n') rest
      rw [dropped] at stops
      obtain rfl : c = '\n' := by simpa using stops
      exact .inr ⟨more, rfl⟩

/-! ## What is read -/

namespace CommentStyle

variable {style : CommentStyle} {length : Nat} {token : CommentToken}

/-- What a token says of the text in front of which it was read with a length. -/
def Tells (style : CommentStyle) (length : Nat) (text : List Char) : CommentToken → Prop
  | .doc _ => ∃ marks, style.doc = some marks ∧ marks.Enclose length text
  | .block _ => style.block.Enclose length text
  | .docLines _ => ∃ mark, style.lineDoc = some mark ∧ IsLineDoc mark.toList length text
  | .line _ => IsLineComment style.line.toList length text
  | .literal => length ≤ text.length ∧ ∃ form ∈ style.literals, form.Spells (text.take length)

theorem tells_of_readDoc? (found : style.readDoc? text = some (length, token)) :
    style.Tells length text token := by
  obtain ⟨marks, hasMarks, read⟩ := Option.bind_eq_some_iff.mp found
  split at read
  · cases read
  · obtain ⟨body, bodyFound, same⟩ := Option.map_eq_some_iff.mp read
    cases same
    exact ⟨marks, hasMarks, marks.enclose_of_read? bodyFound⟩

theorem tells_of_readBlock? (found : style.readBlock? text = some (length, token)) :
    style.Tells length text token := by
  obtain ⟨body, bodyFound, same⟩ := Option.map_eq_some_iff.mp found
  cases same
  exact style.block.enclose_of_read? bodyFound

theorem tells_of_readDocLines? (clear : style.IsClear)
    (found : style.readDocLines? text = some (length, token)) :
    style.Tells length text token := by
  obtain ⟨mark, hasMark, read⟩ := Option.bind_eq_some_iff.mp found
  split at read
  next starts =>
    cases read
    obtain ⟨oneLine, c, rest, spelled, noSpace, noTab⟩ := clear.lineDoc mark hasMark
    refine ⟨mark, hasMark, ?_, ?_⟩
    · exact lines_take_docLength oneLine oneLine (List.isPrefixOf_iff_prefix.mp starts)
    · rcases drop_docLength mark.toList text with atEnd | ⟨rest, behind, stops⟩
      · exact .inl atEnd
      · refine .inr ⟨rest, behind, fun goesOn => ?_⟩
        rw [continuesDoc_of_goesOn spelled noSpace noTab goesOn] at stops
        cases stops
  · cases read

theorem tells_of_readLine? (clear : style.IsClear)
    (found : style.readLine? text = some (length, token)) : style.Tells length text token := by
  rw [readLine?] at found
  split at found
  next starts =>
    cases found
    obtain ⟨rest, rfl⟩ := List.isPrefixOf_iff_prefix.mp starts
    have behind : (style.line.toList ++ rest).drop style.line.length = rest := by
      rw [← String.length_toList, List.drop_left]
    rw [behind]
    exact isLineComment_append clear.line.2 rest
  · cases found

theorem tells_of_readLiteral? (found : style.readLiteral? text = some (length, token)) :
    style.Tells length text token := by
  obtain ⟨size, read, same⟩ := Option.map_eq_some_iff.mp found
  cases same
  obtain ⟨form, member, formRead⟩ := List.exists_of_findSome?_eq_some read
  obtain ⟨piece, spells, front, rfl⟩ := form.read?_eq_some_iff.mp formRead
  exact ⟨front.length_le, form, member, (List.prefix_iff_eq_take.mp front) ▸ spells⟩

theorem tells_of_read (clear : style.IsClear) (found : style.read text = some (length, token)) :
    style.Tells length text token := by
  simp only [read, Option.orElse_eq_orElse, Option.orElse_eq_or, Option.or_eq_some_iff] at found
  rcases found with doc | ⟨_, block | ⟨_, docLines | ⟨_, line | ⟨_, literal⟩⟩⟩⟩
  · exact tells_of_readDoc? doc
  · exact tells_of_readBlock? block
  · exact tells_of_readDocLines? clear docLines
  · exact tells_of_readLine? clear line
  · exact tells_of_readLiteral? literal

theorem length_le_of_ends
    (ends : length = text.length ∨ ∃ rest, text.drop length = '\n' :: rest) :
    length ≤ text.length := by
  rcases ends with rfl | ⟨rest, behind⟩
  · exact Nat.le_refl _
  · refine Nat.le_of_not_lt fun outside => ?_
    rw [List.drop_of_length_le (Nat.le_of_lt outside)] at behind
    cases behind

theorem Tells.length_le (tells : style.Tells length text token) : length ≤ text.length := by
  cases token with
  | doc =>
    obtain ⟨marks, _, encloses⟩ := tells
    exact encloses.length_le
  | block => exact Delimiters.Enclose.length_le tells
  | docLines =>
    obtain ⟨mark, _, isLineDoc⟩ := tells
    exact length_le_of_ends (isLineDoc.ends.imp_right fun ⟨rest, behind, _⟩ => ⟨rest, behind⟩)
  | line => exact length_le_of_ends (IsLineComment.ends tells)
  | literal => exact tells.1

theorem Tells.length_pos (clear : style.IsClear) (tells : style.Tells length text token) :
    0 < length := by
  refine Nat.pos_of_ne_zero fun nothing => ?_
  subst nothing
  cases token with
  | doc =>
    obtain ⟨marks, known, encloses⟩ := tells
    exact encloses.length_ne_zero (clear.doc marks known) rfl
  | block => exact Delimiters.Enclose.length_ne_zero tells clear.block rfl
  | docLines =>
    obtain ⟨mark, known, isLineDoc⟩ := tells
    obtain ⟨first, more, split, starts, _⟩ := isLineDoc.rows
    obtain ⟨_, c, rest, spelled, _⟩ := clear.lineDoc mark known
    obtain ⟨rfl, _⟩ := List.cons.inj split
    rw [spelled] at starts
    cases List.prefix_nil.mp starts
  | line => exact clear.line.1 (List.prefix_nil.mp (IsLineComment.opens tells))
  | literal =>
    obtain ⟨_, form, _, rest, _, spelled⟩ := tells
    cases spelled

/-! ## Nothing that could start is passed over -/

/-- Where a comment could start one of the readers of comments finds it. -/
theorem isSome_of_canStart (can : style.CanStart text) : (style.readDoc? text).isSome = true ∨
    (style.readBlock? text).isSome = true ∨ (style.readDocLines? text).isSome = true ∨
      (style.readLine? text).isSome = true := by
  cases can with
  | line opens =>
    right; right; right
    rw [readLine?, if_pos (List.isPrefixOf_iff_prefix.mpr opens)]
    rfl
  | @lineDoc mark known opens =>
    right; right; left
    rw [readDocLines?, known, Option.bind_some, if_pos (List.isPrefixOf_iff_prefix.mpr opens)]
    rfl
  | @closed marks known opens place behind closes =>
    have block (isBlock : marks = style.block) : (style.readBlock? text).isSome = true := by
      subst isBlock
      obtain ⟨body, found⟩ := Delimiters.exists_read? opens behind closes
      rw [readBlock?, found]
      rfl
    rcases known with isBlock | isDoc
    · exact .inr (.inl (block isBlock))
    · cases empty : style.isEmptyBlock marks text with
      | false =>
        left
        obtain ⟨body, found⟩ := Delimiters.exists_read? opens behind closes
        rw [readDoc?, isDoc, Option.bind_some, if_neg (by simp [empty]), found]
        rfl
      | true =>
        -- What is no documentation because it is an empty block is a block.
        right; left
        simp only [isEmptyBlock, Bool.and_eq_true, decide_eq_true_eq] at empty
        obtain ⟨⟨blockOpens, sameCloser⟩, _⟩ := empty
        have shorter := List.isPrefixOf_iff_prefix.mp blockOpens
        have size := shorter.length_le
        rw [String.length_toList, String.length_toList] at size
        obtain ⟨body, found⟩ := Delimiters.exists_read? (shorter.trans opens) (size.trans behind)
          (sameCloser ▸ closes)
        rw [readBlock?, found]
        rfl

/-- Where a comment could start a comment is read, and no literal. -/
theorem exists_read_of_canStart (can : style.CanStart text) :
    ∃ length token, style.read text = some (length, token) ∧ token ≠ .literal := by
  let comment? := (style.readDoc? text).or <| (style.readBlock? text).or <|
    (style.readDocLines? text).or (style.readLine? text)
  have comments : style.read text = comment?.or (style.readLiteral? text) := by
    simp only [read, Option.orElse_eq_orElse, Option.orElse_eq_or, comment?, Option.or_assoc]
  have some : comment?.isSome = true := by
    simpa only [comment?, Option.isSome_or, Bool.or_eq_true] using isSome_of_canStart can
  obtain ⟨⟨length, token⟩, found⟩ := Option.isSome_iff_exists.mp some
  refine ⟨length, token, by rw [comments, found, Option.some_or], ?_⟩
  rintro rfl
  simp only [comment?, Option.or_eq_some_iff] at found
  rcases found with doc | ⟨_, block | ⟨_, docLines | ⟨_, line⟩⟩⟩
  · obtain ⟨marks, _, read⟩ := Option.bind_eq_some_iff.mp doc
    split at read
    · cases read
    · obtain ⟨_, _, same⟩ := Option.map_eq_some_iff.mp read
      cases same
  · obtain ⟨_, _, same⟩ := Option.map_eq_some_iff.mp block
    cases same
  · obtain ⟨mark, _, read⟩ := Option.bind_eq_some_iff.mp docLines
    split at read <;> cases read
  · rw [readLine?] at line
    split at line <;> cases line

/-- Where a literal stands something is read. -/
theorem isSome_read_of_spells {form : LiteralForm} {piece : List Char}
    (member : form ∈ style.literals) (spells : form.Spells piece) (front : piece <+: text) :
    (style.read text).isSome = true := by
  have literal : (style.readLiteral? text).isSome = true := by
    rw [readLiteral?, Option.isSome_map, List.findSome?_isSome_iff]
    refine ⟨form, member, ?_⟩
    rw [form.read?_eq_some_iff.mpr ⟨piece, spells, front, rfl⟩]
    rfl
  simp [read, literal]

end CommentStyle

end Marginalia
