import Marginalia.Proofs.Annotation.Metadata
import Marginalia.Proofs.Text.Search

/-!
# Reading written annotations

Reading the text that an annotation is written as gives back its parts, wherever the text stands.  The
parts are read one after the other from the left; for each of them it is shown what is read of it in
front of everything that can follow it, and that the readings tried before do not fit.
-/

namespace Marginalia

open Text (trim trimLeft trimRight allBlank indent isBlank)

/-! ## Metadata -/

/-- The text behind the first bar of metadata. -/
def metadataLine : List String → Option (List Char)
  | [] => none
  | item :: rest => some (' ' :: item.toList ++ writeMetadata rest)

variable {metadata : List String}

theorem newline_notMem_writeMetadata (oneLine : ∀ item ∈ metadata, '\n' ∉ item.toList) :
    '\n' ∉ writeMetadata metadata := by
  induction metadata with
  | nil => exact List.not_mem_nil
  | cons item rest ih =>
    obtain ⟨itemLine, restLines⟩ := List.forall_mem_cons.mp oneLine
    simp [writeMetadata, itemLine, ih restLines]

theorem readMetadata?_line {line : List Char} (nonempty : line ≠ []) (oneLine : '\n' ∉ line) :
    readMetadata? ('|' :: line) = some line := by
  rw [readMetadata?, Text.takeWhile_ne_of_notMem oneLine, Text.dropWhile_ne_of_notMem oneLine]
  simp [nonempty, allBlank]

theorem trimLeft_bar (text : List Char) : trimLeft (' ' :: '|' :: text) = '|' :: text := by
  rw [Text.trimLeft_space, Text.trimLeft_cons (by decide)]

theorem readEnd?_writeMetadata (oneLine : ∀ item ∈ metadata, '\n' ∉ item.toList) :
    readEnd? (writeMetadata metadata) = some (metadataLine metadata) := by
  cases metadata with
  | nil => rfl
  | cons item rest =>
    have line := newline_notMem_writeMetadata oneLine
    simp only [writeMetadata, List.cons_append, List.mem_cons, not_or] at line
    rw [readEnd?, writeMetadata, List.cons_append, List.cons_append, trimLeft_bar,
      readMetadata?_line (by simp) (by simp [line])]
    rfl

theorem tidy_of_isItem {text : String} (isItem : IsItem text.toList) : tidy text.toList = [text] := by
  have some : ¬ allBlank text.toList = true := by
    rw [← Text.trim_eq_nil_iff, isItem.trimmed]
    exact isItem.nonempty
  rw [tidy, if_neg some, isItem.trimmed, String.ofList_toList]

/-- The items of written metadata are those that were written. -/
theorem metadataItems_metadataLine (areItems : ∀ item ∈ metadata, IsItem item.toList) :
    metadataItems ((metadataLine metadata).getD []) = metadata := by
  have same : metadataItems ((metadataLine metadata).getD []) =
      metadataItems (writeMetadata metadata) := by
    cases metadata with
    | nil => rfl
    | cons item rest => exact (metadataItems_append_space_bar [] _).symm
  rw [same, metadataItems_writeMetadata fun item member => (areItems item member).unbarred,
    List.flatMap_congr fun item member => tidy_of_isItem (areItems item member),
    List.flatMap_singleton']

/-! ## Tails -/

/-- What stands behind the description of an annotation: nothing, or something behind a bar. -/
inductive IsTail : List Char → Prop where
  | nil : IsTail []
  | bar (text : List Char) : IsTail (' ' :: '|' :: text)

theorem isTail_writeMetadata (metadata : List String) : IsTail (writeMetadata metadata) := by
  cases metadata with
  | nil => exact .nil
  | cons item rest => exact .bar _

namespace IsTail

variable {tail : List Char}

theorem readDescription?_eq_none (isTail : IsTail tail) : readDescription? tail = none := by
  cases isTail with
  | nil => rfl
  | bar text =>
    rw [readDescription?, trimLeft_bar]
    rfl

theorem readWithValue?_of_no_value (isTail : IsTail tail) (space : List Char)
    (description : Option String) :
    readWithValue? space (writeDescription description ++ tail) = none := by
  cases description with
  | some text =>
    rw [readWithValue?, writeDescription, List.cons_append, Text.trimLeft_space, List.cons_append,
      Text.trimLeft_cons (by decide)]
    rfl
  | none =>
    cases isTail with
    | nil => rfl
    | bar text =>
      rw [readWithValue?, writeDescription, List.nil_append, trimLeft_bar]
      rfl

theorem not_isNamespaceRest_head (isTail : IsTail tail) (description : Option String) :
    ∀ c, (writeDescription description ++ tail).head? = some c → isNamespaceRest c = false := by
  intro c first
  cases description with
  | some text =>
    cases first
    decide
  | none =>
    cases isTail with
    | nil => cases first
    | bar text =>
      cases first
      decide

end IsTail

/-! ## Description -/

theorem descriptionText?_space {c : Char} {rest : List Char} (solid : isBlank c = false)
    (noBar : c ≠ '|') : descriptionText? (' ' :: c :: rest) = some (c :: rest) := by
  have blanks : indent (' ' :: c :: rest) = 1 := by
    rw [indent, List.takeWhile_cons_of_pos (by decide), List.takeWhile_cons_of_neg (by simp [solid])]
    rfl
  rw [descriptionText?, blanks]
  simp [noBar]

theorem closeDescription_of_isItem {text : List Char} (isItem : IsItem text) :
    closeDescription text = text ∧ closeDescription (text ++ [' ']) = text := by
  obtain ⟨c, rest, rfl⟩ := List.exists_cons_of_ne_nil isItem.nonempty
  have solid := Text.solid_of_trim isItem.trimmed
  have kept : c :: trimRight rest = c :: rest := by
    rw [← List.nil_append (c :: trimRight rest), ← Text.trimRight_append_cons [] rest solid]
    exact Text.trimRight_of_trim isItem.trimmed
  refine ⟨kept, ?_⟩
  rw [List.cons_append, closeDescription, Text.trimRight_append_blanks _ (by decide), kept]

theorem readDescription?_write {text : String} (isItem : IsItem text.toList)
    (oneLine : ∀ item ∈ metadata, '\n' ∉ item.toList) :
    readDescription? (writeDescription (some text) ++ writeMetadata metadata) =
      some (text.toList, metadataLine metadata) := by
  obtain ⟨c, rest, written⟩ := List.exists_cons_of_ne_nil isItem.nonempty
  rw [written] at isItem
  have solid := Text.solid_of_trim isItem.trimmed
  have noBar : c ≠ '|' := fun same => isItem.unbarred (same ▸ List.mem_cons_self)
  have dashed : trimLeft (writeDescription (some text) ++ writeMetadata metadata) =
      '-' :: ' ' :: c :: (rest ++ writeMetadata metadata) := by
    rw [writeDescription, written, List.cons_append, Text.trimLeft_space,
      List.cons_append, Text.trimLeft_cons (by decide)]
    rfl
  rw [readDescription?, dashed]
  simp only [descriptionText?_space solid noBar, Option.bind_some]
  rw [written, ← List.cons_append]
  cases metadata with
  | nil =>
    rw [writeMetadata, List.append_nil, Text.takeWhile_ne_of_notMem isItem.unbarred,
      Text.dropWhile_ne_of_notMem isItem.unbarred, (closeDescription_of_isItem isItem).1]
    rfl
  | cons item more =>
    -- The blank in front of the first bar is read as the end of the description.
    have split : (c :: rest) ++ writeMetadata (item :: more) =
        ((c :: rest) ++ [' ']) ++ '|' :: (' ' :: item.toList ++ writeMetadata more) := by
      simp [writeMetadata]
    have unbarred : '|' ∉ (c :: rest) ++ [' '] := by simpa using isItem.unbarred
    have line := newline_notMem_writeMetadata oneLine
    simp only [writeMetadata, List.cons_append, List.mem_cons, not_or] at line
    rw [split, Text.takeWhile_ne unbarred, Text.dropWhile_ne unbarred,
      (closeDescription_of_isItem isItem).2]
    dsimp only
    rw [readMetadata?_line (by simp) (by simp [line])]
    rfl

/-- What follows the value or the namespace is read as the description and the metadata. -/
theorem readRest?_write {description : Option String}
    (isItem : ∀ text, description = some text → IsItem text.toList)
    (oneLine : ∀ item ∈ metadata, '\n' ∉ item.toList) :
    readRest? (writeDescription description ++ writeMetadata metadata) =
      some (description.map String.toList, metadataLine metadata) := by
  cases description with
  | none =>
    rw [writeDescription, List.nil_append, readRest?,
      (isTail_writeMetadata metadata).readDescription?_eq_none,
      readEnd?_writeMetadata oneLine]
    rfl
  | some text =>
    rw [readRest?, readDescription?_write (isItem text rfl) oneLine]
    rfl

/-! ## Values -/

theorem escape_cons_of_isEscaped {c : Char} (escaped : isEscaped c = true) (text : List Char) :
    escape (c :: text) = '\\' :: c :: escape text := by
  rw [escape, List.flatMap_cons, if_pos escaped]
  rfl

theorem escape_cons_of_not_isEscaped {c : Char} (plain : isEscaped c = false) (text : List Char) :
    escape (c :: text) = c :: escape text := by
  rw [escape, List.flatMap_cons, if_neg (Bool.eq_false_iff.mp plain)]
  rfl

theorem unescape_cons {c : Char} (plain : c ≠ '\\') (text : List Char) :
    unescape (c :: text) = c :: unescape text := by
  rw [unescape.eq_def]
  split <;> simp_all

theorem unescape_escape (text : List Char) : unescape (escape text) = text := by
  induction text with
  | nil => rfl
  | cons c text ih =>
    cases escaped : isEscaped c with
    | true =>
      have special : (c = '"' || c = '\'' || c = '\\') = true := escaped
      rw [escape_cons_of_isEscaped escaped, unescape, if_pos special, ih]
    | false =>
      have plain : c ≠ '\\' := by
        rintro rfl
        cases escaped
      rw [escape_cons_of_not_isEscaped escaped, unescape_cons plain, ih]

variable {quote : Char}

theorem quotedLength?_cons {c : Char} (plain : c ≠ '\\') (other : c ≠ quote) (text : List Char) :
    quotedLength? quote (c :: text) = (quotedLength? quote text).map (· + 1) := by
  rw [quotedLength?.eq_def]
  split <;> simp_all

/-- A quoted value ends at the quote behind the escaped text: those in it are passed over. -/
theorem quotedLength?_escape (isQuote : quote = '"' ∨ quote = '\'') (text rest : List Char) :
    quotedLength? quote (escape text ++ quote :: rest) = some ((escape text).length + 1) := by
  induction text with
  | nil =>
    rcases isQuote with rfl | rfl
    · rfl
    · rfl
  | cons c text ih =>
    cases escaped : isEscaped c with
    | true =>
      have sameLine : c ≠ '\n' := by
        rintro rfl
        cases escaped
      rw [escape_cons_of_isEscaped escaped, List.cons_append, List.cons_append, quotedLength?,
        if_neg sameLine, ih]
      rfl
    | false =>
      have plain : c ≠ '\\' := by
        rintro rfl
        cases escaped
      have other : c ≠ quote := by
        rintro rfl
        rcases isQuote with rfl | rfl
        · cases escaped
        · cases escaped
      rw [escape_cons_of_not_isEscaped escaped, List.cons_append, quotedLength?_cons plain other, ih]
      rfl

theorem isBlank_of_isQuote (isQuote : quote = '"' ∨ quote = '\'') : isBlank quote = false := by
  rcases isQuote with rfl | rfl
  · decide
  · decide

theorem trim_between {c : Char} (solid : isBlank c = false) (inside : List Char) :
    trim (c :: inside ++ [c]) = c :: inside ++ [c] := by
  rw [trim, List.cons_append, Text.trimLeft_cons solid, ← List.cons_append,
    Text.trimRight_append_cons _ _ solid]
  rfl

theorem unquote_between (isQuote : quote = '"' ∨ quote = '\'') (inside : List Char) :
    unquote (quote :: inside ++ [quote]) = unescape inside := by
  have opened : (quote = '"' || quote = '\'') = true := by simpa using isQuote
  have closed : betweenQuotes? quote (inside ++ [quote]) = some inside := by
    rw [betweenQuotes?, List.getLast?_concat, if_pos rfl, List.dropLast_concat]
  rw [List.cons_append, unquote, if_pos opened, closed]

theorem readQuoted?_append (isQuote : quote = '"' ∨ quote = '\'') {piece rest : List Char}
    (closes : quotedLength? quote (piece ++ ')' :: rest) = some piece.length) :
    readQuoted? (quote :: piece ++ ')' :: rest) = some ⟨0, quote :: piece, rest⟩ := by
  have solid := isBlank_of_isQuote isQuote
  rw [List.cons_append, readQuoted?, Text.trimLeft_cons solid]
  simp only [closes, Option.bind_some, List.drop_left, List.take_left]
  rw [if_pos (by simpa using isQuote), Text.trimLeft_cons (by decide)]
  simp [indent, solid]

namespace ValueLayout

/-- One layer of quotes is taken off a quoted value, and none off a bare one. -/
theorem unquote_written (layout : ValueLayout) :
    unquote (trim layout.written) = layout.value.toList := by
  cases layout with
  | quoted quote isQuote value =>
    rw [written, trim_between (isBlank_of_isQuote isQuote), unquote_between isQuote]
    exact unescape_escape value.toList
  | bare text trimmed unclosed unquoted =>
    rw [written, trimmed, value]
    cases content : text.toList with
    | nil => rfl
    | cons c rest =>
      rw [content] at unquoted
      rw [unquote, if_neg (by simpa using unquoted)]

/-- A written value is read up to the parenthesis behind it, by the first reading that fits. -/
theorem readQuoted?_or_readBare? (layout : ValueLayout) (rest : List Char) :
    readQuoted? (layout.written ++ ')' :: rest) = some ⟨0, layout.written, rest⟩ ∨
      readQuoted? (layout.written ++ ')' :: rest) = none ∧
        readBare? (layout.written ++ ')' :: rest) = some ⟨0, layout.written, rest⟩ := by
  cases layout with
  | quoted quote isQuote value =>
    refine .inl (readQuoted?_append isQuote ?_)
    simpa using quotedLength?_escape isQuote value.toList (')' :: rest)
  | bare text trimmed unclosed unquoted =>
    -- No blanks are read in front: an empty value is followed by the parenthesis at once.
    have kept : trimLeft (text.toList ++ ')' :: rest) = text.toList ++ ')' :: rest := by
      cases content : text.toList with
      | nil => exact Text.trimLeft_cons (by decide) rest
      | cons c more =>
        rw [content] at trimmed
        exact Text.trimLeft_cons (Text.solid_of_trim trimmed) (more ++ ')' :: rest)
    refine .inr ⟨?_, ?_⟩
    · rw [written, readQuoted?, kept]
      cases content : text.toList with
      | nil => rfl
      | cons c more =>
        rw [content] at unquoted
        dsimp only [List.cons_append]
        rw [if_neg (by simpa using unquoted)]
    · rw [written, readBare?, kept, Text.dropWhile_ne unclosed, Text.takeWhile_ne unclosed,
        Text.trimRight_of_trim trimmed, Text.indent_of_trimLeft kept]
      rfl

end ValueLayout

/-! ## Namespaces -/

theorem isBlank_of_isNamespaceRest {c : Char} (inSpace : isNamespaceRest c = true) :
    isBlank c = false := by
  have bounds : 45 ≤ c.toNat ∧ c.toNat ≤ 122 := by
    have cases : (((c.isUpper || c.isLower) || c.isDigit) || c = '-') = true := inSpace
    simp only [Bool.or_eq_true, decide_eq_true_eq] at cases
    rcases cases with ((upper | lower) | digit) | rfl
    · obtain ⟨low, high⟩ := of_decide_eq_true upper
      have low : 65 ≤ c.toNat := low
      have high : c.toNat ≤ 90 := high
      omega
    · obtain ⟨low, high⟩ := (Bool.and_eq_true _ _).mp lower
      have low : 97 ≤ c.toNat := of_decide_eq_true low
      have high : c.toNat ≤ 122 := of_decide_eq_true high
      omega
    · obtain ⟨low, high⟩ := (Bool.and_eq_true _ _).mp digit
      have low : 48 ≤ c.toNat := of_decide_eq_true low
      have high : c.toNat ≤ 57 := of_decide_eq_true high
      omega
    · decide
  simp only [isBlank, Text.blankRuns, List.any_cons, List.any_nil, Bool.or_false, Bool.or_eq_false_iff,
    Bool.and_eq_false_iff, decide_eq_false_iff_not]
  omega

theorem readNamespace?_append {space rest : List Char} (isNamespace : IsNamespace space)
    (boundary : ∀ c, rest.head? = some c → isNamespaceRest c = false) :
    readNamespace? (space ++ rest) = some space := by
  cases space with
  | nil => exact absurd isNamespace id
  | cons c more =>
    obtain ⟨letter, inside⟩ := isNamespace
    rw [List.cons_append, readNamespace?, if_pos letter,
      Text.takeWhile_append_of_boundary inside boundary]

theorem not_isNamespaceRest_head (value : Option ValueLayout) (description : Option String)
    (metadata : List String) : ∀ c,
      (writeValue value ++ (writeDescription description ++ writeMetadata metadata)).head? = some c →
        isNamespaceRest c = false := by
  intro c first
  cases value with
  | some value =>
    cases first
    decide
  | none => exact (isTail_writeMetadata metadata).not_isNamespaceRest_head description c first

theorem IsNamespace.forall_mem {space : List Char} (isNamespace : IsNamespace space) :
    ∀ c ∈ space, isNamespaceRest c = true := by
  cases space with
  | nil => exact absurd isNamespace id
  | cons first rest =>
    obtain ⟨letter, inside⟩ := isNamespace
    refine List.forall_mem_cons.mpr ⟨?_, inside⟩
    simp [isNamespaceRest, Char.isAlphanum, letter]

/-! ## Annotations -/

theorem trimRight_writeValue (value : Option ValueLayout) :
    trimRight (writeValue value) = writeValue value := by
  cases value with
  | none => rfl
  | some value => exact Text.trimRight_append_cons ('(' :: value.written) [] (by decide)

theorem trimRight_writeDescription {description : Option String}
    (isItem : ∀ text, description = some text → IsItem text.toList) :
    trimRight (writeDescription description) = writeDescription description := by
  cases description with
  | none => rfl
  | some text =>
    have ends := Text.trimRight_of_trim (isItem text rfl).trimmed
    exact Text.trimRight_append_of_ne_nil [' ', '-', ' '] (isItem text rfl).nonempty ends

theorem trimRight_writeMetadata (areItems : ∀ item ∈ metadata, IsItem item.toList) :
    trimRight (writeMetadata metadata) = writeMetadata metadata := by
  induction metadata with
  | nil => rfl
  | cons item rest ih =>
    obtain ⟨isItem, restItems⟩ := List.forall_mem_cons.mp areItems
    have itemEnds : trimRight (' ' :: '|' :: ' ' :: item.toList) = ' ' :: '|' :: ' ' :: item.toList :=
      Text.trimRight_append_of_ne_nil [' ', '|', ' '] isItem.nonempty
        (Text.trimRight_of_trim isItem.trimmed)
    exact Text.trimRight_append itemEnds (ih restItems)

theorem readWithValue?_write (space : List Char) (value : ValueLayout) {description : Option String}
    (isItem : ∀ text, description = some text → IsItem text.toList)
    (oneLine : ∀ item ∈ metadata, '\n' ∉ item.toList) :
    ∃ valuePlace, readWithValue? space (writeValue (some value) ++
        (writeDescription description ++ writeMetadata metadata)) =
      some ⟨space, some value.written, valuePlace, description.map String.toList,
        metadataLine metadata⟩ := by
  have rest := readRest?_write isItem oneLine
  have opened : trimLeft (writeValue (some value) ++
      (writeDescription description ++ writeMetadata metadata)) =
        '(' :: (value.written ++ ')' :: (writeDescription description ++ writeMetadata metadata)) := by
    rw [writeValue, List.cons_append, List.cons_append, Text.trimLeft_cons (by decide),
      List.append_assoc]
    rfl
  rw [readWithValue?, opened]
  rcases value.readQuoted?_or_readBare? (writeDescription description ++ writeMetadata metadata) with
    quoted | ⟨notQuoted, bare⟩
  · simp [quoted, rest]
  · simp [notQuoted, bare, rest]

namespace Layout

/-- The parts that are read of what is written behind the sigil. -/
theorem read?_behind (layout : Layout) :
    ∃ valuePlace, Parts.read? layout.behind =
      some ⟨layout.space.toList, layout.value.map ValueLayout.written, valuePlace,
        layout.description.map String.toList, metadataLine layout.metadata⟩ := by
  have boundary := not_isNamespaceRest_head layout.value layout.description layout.metadata
  rw [behind, Parts.read?, readNamespace?_append layout.isNamespace boundary, Option.bind_some,
    List.drop_left]
  dsimp only
  cases layout.value with
  | some value =>
    obtain ⟨valuePlace, read⟩ := readWithValue?_write layout.space.toList value
      layout.descriptionIsItem layout.metadataOnOneLine
    rw [read]
    exact ⟨valuePlace, rfl⟩
  | none =>
    have rest := readRest?_write layout.descriptionIsItem layout.metadataOnOneLine
    rw [writeValue, List.nil_append, (isTail_writeMetadata _).readWithValue?_of_no_value,
      readWithoutValue?, rest]
    exact ⟨0, rfl⟩

theorem trimRight_text (layout : Layout) : trimRight layout.text = layout.text := by
  have spaceEnds : trimRight layout.space.toList = layout.space.toList :=
    Text.trimRight_of_forall fun c member =>
      isBlank_of_isNamespaceRest (layout.isNamespace.forall_mem c member)
  have valueEnds := trimRight_writeValue layout.value
  have descriptionEnds := trimRight_writeDescription layout.descriptionIsItem
  have metadataEnds := trimRight_writeMetadata layout.metadataAreItems
  have sigilEnds : trimRight sigil.toList = sigil.toList := by decide
  exact Text.trimRight_append sigilEnds (Text.trimRight_append spaceEnds
    (Text.trimRight_append valueEnds (Text.trimRight_append descriptionEnds metadataEnds)))

end Layout

/-- Reading the text of a written annotation gives back its namespace, its value, its description and
    its metadata, and finds the whole text to be the annotation, wherever it stands. -/
theorem Annotation.read?_text (rules : ValueRules) (layout : Layout) (origin : Int) :
    ∃ note, Annotation.read? rules layout.text origin = some note ∧
      note.space = layout.space ∧ note.value = layout.value.map ValueLayout.value ∧
      note.description = layout.description ∧ note.metadata = layout.metadata ∧
      note.raw = String.ofList layout.text ∧ note.range.start = origin := by
  obtain ⟨valuePlace, partsRead⟩ := layout.read?_behind
  -- The text begins with the sigil, so others in the value are not looked at.
  have found : Text.find? sigil.toList layout.text = some 0 :=
    Text.find?_of_prefix (List.prefix_append _ _)
  have rest : layout.text.drop (0 + sigil.length) = layout.behind := by
    rw [Nat.zero_add]
    exact List.drop_left
  have readBehind : Annotation.read? rules layout.text origin =
      Annotation.readBehind? rules layout.behind (origin + (0 : Nat)) := by
    rw [read?, found, Option.bind_some, rest]
  rw [readBehind, readBehind?, partsRead]
  refine ⟨_, rfl, ?_, ?_, ?_, ?_, ?_, ?_⟩
  · exact String.ofList_toList
  · cases layout.value with
    | none => rfl
    | some value => simp [ofParts, value.unquote_written]
  · cases hasDescription : layout.description with
    | none => rfl
    | some text => simp [ofParts, (layout.descriptionIsItem text hasDescription).trimmed]
  · exact metadataItems_metadataLine layout.metadataAreItems
  · exact congrArg String.ofList layout.trimRight_text
  · exact Int.add_zero origin

-- The value holds a parenthesis, a bar, a quote and a sigil; the dash of the namespace stays in it.
theorem Annotation.read?_text_quoted :
    ∃ layout : Layout, layout.text = "@acp:a-b(\"x) | \\\"@acp:\") - y | m".toList ∧
      layout.value.map ValueLayout.value = some "x) | \"@acp:" ∧
      ∃ note, Annotation.read? {} layout.text 7 = some note ∧
        note.space = layout.space ∧ note.value = layout.value.map ValueLayout.value ∧
        note.description = layout.description ∧ note.metadata = layout.metadata ∧
        note.raw = String.ofList layout.text ∧ note.range.start = 7 := by
  let layout : Layout :=
    { space := "a-b", value := some (.quoted '"' (.inl rfl) "x) | \"@acp:")
      description := some "y", metadata := ["m"]
      isNamespace := by
        show 'a'.isAlpha = true ∧ ∀ other ∈ ['-', 'b'], isNamespaceRest other = true
        simp [isNamespaceRest]
      descriptionIsItem := by
        rintro _ ⟨⟩
        exact ⟨by decide, by decide, by decide⟩
      metadataAreItems := List.forall_mem_singleton.mpr ⟨by decide, by decide, by decide⟩
      metadataOnOneLine := List.forall_mem_singleton.mpr (by decide) }
  exact ⟨layout, by decide +kernel, rfl, Annotation.read?_text {} layout 7⟩

end Marginalia
