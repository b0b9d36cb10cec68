import Marginalia.Proofs.Annotation.RoundTrip

/-!
# What fits the grammar of annotations

The grammar, said without the readers: which texts are a value, a description or metadata, each with
the blanks in front of it, and which texts are put together from such parts.  The readers find parts
in exactly these texts.
-/

namespace Marginalia

open Text (trimLeft allBlank isBlank indent)

/-! ## Parts -/

/-- Metadata: a bar behind blanks, and something on its line. -/
inductive IsMetadata : List Char → Prop where
  | bar {blanks line : List Char} (blank : allBlank blanks = true) (nonempty : line ≠ [])
      (oneLine : '\n' ∉ line) : IsMetadata (blanks ++ '|' :: line)

/-- A description: a dash behind blanks, and something without a bar. -/
inductive IsDescription : List Char → Prop where
  | dash {blanks body : List Char} (blank : allBlank blanks = true) (nonempty : body ≠ [])
      (unbarred : '|' ∉ body) : IsDescription (blanks ++ '-' :: body)

/-- What a quoted value has behind its opening quote.  A backslash takes another character of its line
    with it. -/
inductive IsQuotedRest (quote : Char) : List Char → Prop where
  | quote : IsQuotedRest quote [quote]
  | escape {c : Char} {rest : List Char} (sameLine : c ≠ '\n') (closed : IsQuotedRest quote rest) :
      IsQuotedRest quote ('\\' :: c :: rest)
  | plain {c : Char} {rest : List Char} (other : c ≠ quote) (noEscape : c ≠ '\\')
      (closed : IsQuotedRest quote rest) : IsQuotedRest quote (c :: rest)

/-- What stands behind the opening parenthesis of a value: the value, between quotes or without a
    closing parenthesis in it, and the closing parenthesis. -/
inductive IsClosedValue : List Char → Prop where
  | quoted {blanks rest after : List Char} {quote : Char} (blank : allBlank blanks = true)
      (isQuote : quote = '"' ∨ quote = '\'') (closed : IsQuotedRest quote rest)
      (afterBlank : allBlank after = true) :
      IsClosedValue (blanks ++ quote :: rest ++ after ++ [')'])
  | bare {body : List Char} (unclosed : ')' ∉ body) : IsClosedValue (body ++ [')'])

/-- A value: an opening parenthesis behind blanks, and what closes it. -/
inductive IsValue : List Char → Prop where
  | paren {blanks rest : List Char} (blank : allBlank blanks = true) (closed : IsClosedValue rest) :
      IsValue (blanks ++ '(' :: rest)

/-! ## Texts -/

/-- A part, which may be absent, and a rest behind it. -/
inductive Optionally (part rest : List Char → Prop) : List Char → Prop where
  | absent {text : List Char} (fits : rest text) : Optionally part rest text
  | present {front back : List Char} (isPart : part front) (fits : rest back) :
      Optionally part rest (front ++ back)

/-- What may stand behind a description. -/
def FitsEnd : List Char → Prop :=
  Optionally IsMetadata fun blanks => allBlank blanks = true

/-- What may stand behind a value. -/
def FitsRest : List Char → Prop :=
  Optionally IsDescription FitsEnd

/-- What may stand behind a namespace. -/
def Fits : List Char → Prop :=
  Optionally IsValue FitsRest

/-! ## Metadata -/

variable {text : List Char}

theorem isSome_readMetadata?_bar_iff : (readMetadata? ('|' :: text)).isSome = true ↔
    text.takeWhile (· ≠ '\n') ≠ [] ∧ allBlank (text.dropWhile (· ≠ '\n')) = true := by
  simp only [readMetadata?, Option.isSome_ite]
  simp

theorem isSome_readMetadata?_iff : (readMetadata? text).isSome = true ↔
    ∃ line rest, line ≠ [] ∧ '\n' ∉ line ∧ allBlank rest = true ∧ text = '|' :: (line ++ rest) := by
  constructor
  · intro found
    rw [readMetadata?.eq_def] at found
    split at found
    next rest =>
      obtain ⟨nonempty, blank⟩ := (@isSome_readMetadata?_bar_iff rest).mp found
      refine ⟨_, _, nonempty, fun member => ?_, blank,
        congrArg _ List.takeWhile_append_dropWhile.symm⟩
      simpa using List.mem_takeWhile_imp member
    next => cases found
  · rintro ⟨line, rest, nonempty, oneLine, blank, rfl⟩
    -- The line may go on with blanks; what is read is all of it.
    rw [isSome_readMetadata?_bar_iff, List.takeWhile_append_of_pos (Text.decide_ne_of_notMem oneLine),
      List.dropWhile_append_of_pos (Text.decide_ne_of_notMem oneLine)]
    refine ⟨List.append_ne_nil_of_left_ne_nil nonempty _, List.all_eq_true.mpr fun c member => ?_⟩
    exact List.all_eq_true.mp blank c ((List.dropWhile_suffix _).subset member)

theorem isSome_readEnd?_iff : (readEnd? text).isSome = true ↔ FitsEnd text := by
  constructor
  · intro found
    rw [readEnd?] at found
    split at found
    next metadata read =>
      obtain ⟨line, rest, nonempty, oneLine, blank, trimmed⟩ :=
        isSome_readMetadata?_iff.mp (Option.isSome_of_eq_some read)
      obtain ⟨blanks, inFront, whole⟩ := Text.exists_append_trimLeft text
      rw [trimmed, ← List.cons_append, ← List.append_assoc] at whole
      rw [whole]
      exact .present (.bar inFront nonempty oneLine) blank
    next =>
      split at found
      next blank => exact .absent blank
      next => cases found
  · intro fits
    rw [readEnd?]
    cases fits with
    | absent blank =>
      split
      · rfl
      · rw [if_pos blank]
        rfl
    | @present _ back isMetadata blank =>
      obtain @⟨blanks, line, inFront, nonempty, oneLine⟩ := isMetadata
      have bar : trimLeft (blanks ++ '|' :: line ++ back) = '|' :: (line ++ back) := by
        rw [List.append_assoc, Text.trimLeft_append inFront, List.cons_append,
          Text.trimLeft_cons (by decide)]
      obtain ⟨metadata, read⟩ := Option.isSome_iff_exists.mp
        (isSome_readMetadata?_iff.mpr ⟨line, back, nonempty, oneLine, blank, bar⟩)
      rw [read]
      rfl

theorem fitsEnd_space_iff : FitsEnd (' ' :: text) ↔ FitsEnd text := by
  rw [← isSome_readEnd?_iff, ← isSome_readEnd?_iff, readEnd?_space]

theorem fitsEnd_bar_iff : FitsEnd ('|' :: text) ↔
    text.takeWhile (· ≠ '\n') ≠ [] ∧ allBlank (text.dropWhile (· ≠ '\n')) = true := by
  rw [← isSome_readEnd?_iff, readEnd?_bar, Option.isSome_map, isSome_readMetadata?_bar_iff]

/-- The blanks in front of metadata may be left out. -/
theorem FitsEnd.dropWhile (fits : FitsEnd text) : FitsEnd (text.dropWhile (· ≠ '|')) := by
  cases fits with
  | absent blank =>
    rw [Text.dropWhile_ne_of_notMem (Text.notMem_of_allBlank blank (by decide))]
    exact .absent rfl
  | present isMetadata behind =>
    obtain @⟨blanks, line, blank, nonempty, oneLine⟩ := isMetadata
    rw [List.append_assoc, List.cons_append,
      Text.dropWhile_ne (Text.notMem_of_allBlank blank (by decide))]
    have bar : IsMetadata ([] ++ '|' :: line) := .bar rfl nonempty oneLine
    exact Optionally.present bar behind

/-! ## Description -/

theorem isSome_descriptionText?_iff : (descriptionText? text).isSome = true ↔
    text.takeWhile (· ≠ '|') ≠ [] := by
  rw [descriptionText?, Text.drop_indent]
  cases text with
  | nil => simp [trimLeft, indent]
  | cons c rest =>
    by_cases blank : isBlank c = true
    · -- The blanks in front are some of the description, if nothing else is.
      have some : 0 < indent (c :: rest) := by simp [indent, blank]
      have noBar : c ≠ '|' := by
        rintro rfl
        cases blank
      split <;> simp [some, noBar]
      split <;> rfl
    · have none : indent (c :: rest) = 0 := by simp [indent, blank]
      simp only [Text.trimLeft_cons (by simpa using blank), none]
      by_cases noBar : c = '|' <;> simp [noBar]

/-- What is left out in front of a description are blanks. -/
theorem exists_append_of_descriptionText? {body : List Char}
    (found : descriptionText? text = some body) :
    ∃ blanks, allBlank blanks = true ∧ text = blanks ++ body := by
  have dropped : ∃ count ≤ indent text, body = text.drop count := by
    rw [descriptionText?] at found
    split at found
    next c rest behind =>
      split at found
      · exact ⟨_, Nat.le_refl _, by rw [behind]; exact (Option.some.inj found).symm⟩
      · split at found
        · exact ⟨_, Nat.sub_le _ _, (Option.some.inj found).symm⟩
        · cases found
    next =>
      split at found
      · exact ⟨_, Nat.sub_le _ _, (Option.some.inj found).symm⟩
      · cases found
  obtain ⟨count, few, rfl⟩ := dropped
  have front : text.take count = (text.takeWhile isBlank).take count := by
    have whole := congrArg (List.take count) (Text.takeWhile_append_trimLeft text)
    rw [← whole, List.take_append_of_le_length few]
  refine ⟨text.take count, ?_, (List.take_append_drop count text).symm⟩
  rw [front]
  exact List.all_eq_true.mpr fun c member => List.mem_takeWhile_imp (List.mem_of_mem_take member)

/-- Behind its dash, a description goes on up to the first bar, where the end of the text begins. -/
theorem readDescription?_of_dash {rest body : List Char} (trimmed : trimLeft text = '-' :: rest)
    (found : descriptionText? rest = some body) :
    readDescription? text = (readEnd? (rest.dropWhile (· ≠ '|'))).map fun metadata =>
      (closeDescription (body.takeWhile (· ≠ '|')), metadata) := by
  obtain ⟨blanks, blank, rfl⟩ := exists_append_of_descriptionText? found
  have noBar := Text.decide_ne_of_notMem (Text.notMem_of_allBlank blank (c := '|') (by decide))
  rw [readDescription?, trimmed, List.dropWhile_append_of_pos noBar]
  simp only [found, Option.bind_some]
  cases dropped : body.dropWhile (· ≠ '|') with
  | nil => rfl
  | cons c more =>
    have stops := List.head?_dropWhile_not (· ≠ '|') body
    rw [dropped] at stops
    obtain rfl : c = '|' := by simpa using stops
    rw [readEnd?_bar, Option.map_map]
    rfl

theorem isSome_readDescription?_of_dash {rest : List Char} (trimmed : trimLeft text = '-' :: rest) :
    (readDescription? text).isSome = true ↔
      rest.takeWhile (· ≠ '|') ≠ [] ∧ FitsEnd (rest.dropWhile (· ≠ '|')) := by
  rw [← isSome_descriptionText?_iff, ← isSome_readEnd?_iff]
  cases found : descriptionText? rest with
  | none => simp [readDescription?, trimmed, found]
  | some body => simp [readDescription?_of_dash trimmed found]

theorem isSome_readDescription?_iff : (readDescription? text).isSome = true ↔
    ∃ description rest, IsDescription description ∧ FitsEnd rest ∧ text = description ++ rest := by
  constructor
  · intro found
    have dashed : ∃ rest, trimLeft text = '-' :: rest := by
      rw [readDescription?] at found
      split at found
      next rest trimmed => exact ⟨rest, trimmed⟩
      next => cases found
    obtain ⟨rest, trimmed⟩ := dashed
    obtain ⟨nonempty, fits⟩ := (isSome_readDescription?_of_dash trimmed).mp found
    obtain ⟨blanks, blank, whole⟩ := Text.exists_append_trimLeft text
    have unbarred : '|' ∉ rest.takeWhile (· ≠ '|') := fun member => by
      simpa using List.mem_takeWhile_imp member
    refine ⟨_, _, .dash blank nonempty unbarred, fits, ?_⟩
    rw [List.append_assoc, List.cons_append, List.takeWhile_append_dropWhile, ← trimmed]
    exact whole
  · rintro ⟨description, rest, @⟨blanks, body, blank, nonempty, unbarred⟩, fits, rfl⟩
    have trimmed : trimLeft (blanks ++ '-' :: body ++ rest) = '-' :: (body ++ rest) := by
      rw [List.append_assoc, Text.trimLeft_append blank, List.cons_append,
        Text.trimLeft_cons (by decide)]
    have inside := Text.decide_ne_of_notMem unbarred
    rw [isSome_readDescription?_of_dash trimmed, List.takeWhile_append_of_pos inside,
      List.dropWhile_append_of_pos inside]
    -- The blanks in front of metadata are read as the end of the description.
    exact ⟨List.append_ne_nil_of_left_ne_nil nonempty _, fits.dropWhile⟩

theorem isSome_readRest?_iff_or : (readRest? text).isSome = true ↔
    (readDescription? text).isSome = true ∨ (readEnd? text).isSome = true := by
  rw [readRest?]
  cases readDescription? text with
  | some both => simp
  | none => simp

theorem isSome_readRest?_iff : (readRest? text).isSome = true ↔ FitsRest text := by
  rw [isSome_readRest?_iff_or, isSome_readDescription?_iff, isSome_readEnd?_iff]
  constructor
  · rintro (⟨description, rest, isDescription, fits, rfl⟩ | fits)
    · exact .present isDescription fits
    · exact .absent fits
  · intro fits
    cases fits with
    | absent fits => exact .inr fits
    | present isDescription fits => exact .inl ⟨_, _, isDescription, fits, rfl⟩

/-! ## Values -/

section

variable {quote : Char}

theorem quotedLength?_of_isQuotedRest {piece : List Char} (noEscape : quote ≠ '\\')
    (closed : IsQuotedRest quote piece) (rest : List Char) :
    quotedLength? quote (piece ++ rest) = some piece.length := by
  induction closed with
  | quote => simp [quotedLength?, noEscape]
  | escape sameLine _ ih => simp [quotedLength?, sameLine, ih]
  | plain other plain _ ih =>
    rw [List.cons_append, quotedLength?_cons plain other, ih]
    rfl

theorem isQuotedRest_of_quotedLength? {length : Nat} (found : quotedLength? quote text = some length) :
    IsQuotedRest quote (text.take length) := by
  fun_induction quotedLength? quote text generalizing length with
  | case1 => cases found
  | case2 => cases found
  | case3 => cases found
  | case4 c rest sameLine ih =>
    obtain ⟨less, inner, rfl⟩ := Option.map_eq_some_iff.mp found
    exact .escape sameLine (ih inner)
  | case5 =>
    cases found
    exact .quote
  | case6 c rest single double other ih =>
    obtain ⟨less, inner, rfl⟩ := Option.map_eq_some_iff.mp found
    have noEscape : c ≠ '\\' := by
      rintro rfl
      cases rest with
      | nil => exact single rfl rfl
      | cons next rest => exact double next rest rfl rfl
    exact .plain other noEscape (ih inner)

end

theorem exists_append_of_readQuoted? {written : WrittenValue}
    (found : readQuoted? text = some written) :
    ∃ closed, IsClosedValue closed ∧ text = closed ++ written.rest := by
  obtain ⟨blanks, blank, whole⟩ := Text.exists_append_trimLeft text
  rw [readQuoted?] at found
  split at found
  next quote body trimmed =>
    split at found
    next isQuote =>
      obtain ⟨length, quoted, closes⟩ := Option.bind_eq_some_iff.mp found
      obtain ⟨after, afterBlank, behind⟩ := Text.exists_append_trimLeft (body.drop length)
      split at closes
      next rest closing =>
        cases closes
        rw [Bool.or_eq_true, decide_eq_true_eq, decide_eq_true_eq] at isQuote
        refine ⟨_, .quoted blank isQuote (isQuotedRest_of_quotedLength? quoted) afterBlank, ?_⟩
        rw [closing] at behind
        rw [whole, trimmed]
        simp [← behind]
      next => cases closes
    next => cases found
  next => cases found

theorem exists_append_of_readBare? {written : WrittenValue}
    (found : readBare? text = some written) :
    ∃ closed, IsClosedValue closed ∧ text = closed ++ written.rest := by
  obtain ⟨blanks, blank, whole⟩ := Text.exists_append_trimLeft text
  rw [readBare?] at found
  split at found
  next rest closing =>
    cases found
    have unclosed : ')' ∉ blanks ++ (trimLeft text).takeWhile (· ≠ ')') := by
      rw [List.mem_append, not_or]
      refine ⟨Text.notMem_of_allBlank blank (by decide), fun member => ?_⟩
      simpa using List.mem_takeWhile_imp member
    refine ⟨_, .bare unclosed, ?_⟩
    have parts := List.takeWhile_append_dropWhile (p := (· ≠ ')')) (l := trimLeft text)
    rw [closing] at parts
    simp only [List.append_assoc, List.singleton_append, parts]
    exact whole
  next => cases found

/-- What closes a value is read, whatever stands behind it. -/
theorem exists_read_of_isClosedValue {closed : List Char} (isClosed : IsClosedValue closed)
    (rest : List Char) : ∃ read ∈ [readQuoted?, readBare?], ∃ written : WrittenValue,
      read (closed ++ rest) = some written ∧ written.rest = rest := by
  cases isClosed with
  | @quoted blanks inner after quote blank isQuote closed afterBlank =>
    have solid := isBlank_of_isQuote isQuote
    have noEscape : quote ≠ '\\' := by rcases isQuote with rfl | rfl <;> decide
    have trimmed : trimLeft (blanks ++ quote :: inner ++ after ++ [')'] ++ rest) =
        quote :: (inner ++ (after ++ ')' :: rest)) := by
      simp only [List.append_assoc, List.cons_append, List.nil_append]
      rw [Text.trimLeft_append blank, Text.trimLeft_cons solid]
    have closing : trimLeft (after ++ ')' :: rest) = ')' :: rest := by
      rw [Text.trimLeft_append afterBlank, Text.trimLeft_cons (by decide)]
    refine ⟨readQuoted?, List.mem_cons_self, ?_⟩
    rw [readQuoted?, trimmed]
    simp only [quotedLength?_of_isQuotedRest noEscape closed, Option.bind_some, List.drop_left,
      closing]
    rw [if_pos (by simpa using isQuote)]
    exact ⟨_, rfl, rfl⟩
  | @bare body unclosed =>
    have trimmed : trimLeft (body ++ [')'] ++ rest) = trimLeft body ++ ')' :: rest := by
      rw [List.append_assoc, List.singleton_append, Text.trimLeft_append_cons body rest (by decide)]
    have stays : ')' ∉ trimLeft body := fun member =>
      unclosed ((List.dropWhile_suffix _).subset member)
    refine ⟨readBare?, by simp, ?_⟩
    rw [readBare?, trimmed]
    simp only [Text.dropWhile_ne stays]
    exact ⟨_, rfl, rfl⟩

theorem isSome_readWithValue?_iff {space : List Char} : (readWithValue? space text).isSome = true ↔
    ∃ value rest, IsValue value ∧ FitsRest rest ∧ text = value ++ rest := by
  constructor
  · intro found
    rw [readWithValue?] at found
    split at found
    next body trimmed =>
      obtain ⟨blanks, blank, whole⟩ := Text.exists_append_trimLeft text
      obtain ⟨parts, someParts⟩ := Option.isSome_iff_exists.mp found
      obtain ⟨read, member, partsRead⟩ := List.exists_of_findSome?_eq_some someParts
      obtain ⟨written, valueRead, restRead⟩ := Option.bind_eq_some_iff.mp partsRead
      obtain ⟨rest, restFound, _⟩ := Option.map_eq_some_iff.mp restRead
      have fits := isSome_readRest?_iff.mp (Option.isSome_of_eq_some restFound)
      have split : ∃ closed, IsClosedValue closed ∧ body = closed ++ written.rest := by
        rcases List.mem_pair.mp member with rfl | rfl
        · exact exists_append_of_readQuoted? valueRead
        · exact exists_append_of_readBare? valueRead
      obtain ⟨closed, isClosed, rfl⟩ := split
      refine ⟨_, _, .paren blank isClosed, fits, ?_⟩
      rw [whole, trimmed]
      simp
    next => cases found
  · rintro ⟨value, rest, @⟨blanks, closed, blank, isClosed⟩, fits, rfl⟩
    have trimmed : trimLeft (blanks ++ '(' :: closed ++ rest) = '(' :: (closed ++ rest) := by
      rw [List.append_assoc, Text.trimLeft_append blank, List.cons_append,
        Text.trimLeft_cons (by decide)]
    obtain ⟨read, member, written, valueRead, rfl⟩ := exists_read_of_isClosedValue isClosed rest
    obtain ⟨both, restFound⟩ := Option.isSome_iff_exists.mp (isSome_readRest?_iff.mpr fits)
    rw [readWithValue?, trimmed]
    simp only [List.findSome?_isSome_iff]
    exact ⟨read, member, by simp [valueRead, restFound]⟩

/-- The text behind a namespace is read, with or without a value, exactly where it fits the grammar. -/
theorem isSome_read?_iff {space : List Char} : ((readWithValue? space text).isSome = true ∨
    (readWithoutValue? space text).isSome = true) ↔ Fits text := by
  rw [isSome_readWithValue?_iff, readWithoutValue?, Option.isSome_map, isSome_readRest?_iff]
  constructor
  · rintro (⟨value, rest, isValue, fits, rfl⟩ | fits)
    · exact .present isValue fits
    · exact .absent fits
  · intro fits
    cases fits with
    | absent fits => exact .inr fits
    | present isValue fits => exact .inl ⟨_, _, isValue, fits, rfl⟩

theorem not_fits_of_none {space : List Char} (noValue : readWithValue? space text = none)
    (noRest : readWithoutValue? space text = none) : ¬ Fits text := by
  rw [← @isSome_read?_iff text space, noValue, noRest]
  simp

end Marginalia
