import Marginalia.Proofs.Annotation.Grammar

/-!
# Quoted values

A quoted value is read up to its closing quote, whatever it holds.  If the text behind it does not fit, it
is read anew as a bare value, which ends at the first closing parenthesis; what the quotes hold is read no
more then.
-/

namespace Marginalia

open Text (trim trimLeft)

/-- A quoted value: a quote, and what the grammar has behind it. -/
inductive IsQuoted : List Char → Prop where
  | intro {quote : Char} {rest : List Char} (isQuote : quote = '"' ∨ quote = '\'')
      (closed : IsQuotedRest quote rest) : IsQuoted (quote :: rest)

theorem IsQuotedRest.exists_append {quote : Char} {piece : List Char}
    (closed : IsQuotedRest quote piece) : ∃ inside, piece = inside ++ [quote] := by
  induction closed with
  | quote => exact ⟨[], rfl⟩
  | @escape c rest _ _ ih =>
    obtain ⟨inside, rfl⟩ := ih
    exact ⟨'\\' :: c :: inside, rfl⟩
  | @plain c rest _ _ _ ih =>
    obtain ⟨inside, rfl⟩ := ih
    exact ⟨c :: inside, rfl⟩

theorem mem_unescape {c : Char} (noEscape : c ≠ '\\') {text : List Char} (member : c ∈ text) :
    c ∈ unescape text := by
  fun_induction unescape text with
  | case1 => exact member
  | case2 => exact member
  | case3 other rest _ ih =>
    rcases List.mem_cons.mp member with escape | inside
    · exact absurd escape noEscape
    · exact List.mem_cons.mpr ((List.mem_cons.mp inside).imp_right ih)
  | case4 other rest _ ih => exact List.mem_cons.mpr ((List.mem_cons.mp member).imp_right ih)
  | case5 other rest _ _ ih => exact List.mem_cons.mpr ((List.mem_cons.mp member).imp_right ih)

theorem unescape_subset (text : List Char) : unescape text ⊆ text := by
  fun_induction unescape text with
  | case1 => exact List.Subset.refl _
  | case2 => exact List.Subset.refl _
  | case3 c rest _ ih => exact List.subset_cons_of_subset _ (List.cons_subset_cons c ih)
  | case4 c rest _ ih => exact List.cons_subset_cons _ ih
  | case5 c rest _ _ ih => exact List.cons_subset_cons c ih

theorem subset_of_betweenQuotes? {quote : Char} {text body : List Char}
    (found : betweenQuotes? quote text = some body) : body ⊆ text := by
  rw [betweenQuotes?] at found
  split at found
  · cases found
    exact List.dropLast_subset text
  · split at found
    · cases found
      exact List.Subset.trans (List.dropLast_subset _) (List.dropLast_subset text)
    · cases found

theorem unquote_subset (written : List Char) : unquote written ⊆ written := by
  rw [unquote.eq_def]
  split
  next quote rest =>
    split
    · split
      next body found =>
        have inside := List.Subset.trans (unescape_subset body) (subset_of_betweenQuotes? found)
        exact List.subset_cons_of_subset quote inside
      next => exact List.Subset.refl _
    · exact List.Subset.refl _
  next => exact List.Subset.refl _

namespace IsQuoted

variable {written : List Char}

theorem readQuoted?_eq (isQuoted : IsQuoted written) (rest : List Char) :
    readQuoted? (written ++ ')' :: rest) = some ⟨0, written, rest⟩ := by
  obtain @⟨quote, piece, isQuote, closed⟩ := isQuoted
  have noEscape : quote ≠ '\\' := by rcases isQuote with rfl | rfl <;> decide
  exact readQuoted?_append isQuote (quotedLength?_of_isQuotedRest noEscape closed _)

theorem trim_eq (isQuoted : IsQuoted written) : trim written = written := by
  obtain @⟨quote, body, isQuote, closed⟩ := isQuoted
  obtain ⟨inside, rfl⟩ := closed.exists_append
  exact trim_between (isBlank_of_isQuote isQuote) inside

theorem mem_unquote (isQuoted : IsQuoted written) (closes : ')' ∈ written) : ')' ∈ unquote written := by
  obtain @⟨quote, piece, isQuote, closed⟩ := isQuoted
  obtain ⟨inside, rfl⟩ := closed.exists_append
  have other : ')' ≠ quote := by rcases isQuote with rfl | rfl <;> decide
  have member : ')' ∈ inside := by simpa [other] using closes
  rw [← List.cons_append, unquote_between isQuote]
  exact mem_unescape (by decide) member

end IsQuoted

/-! ## Values that are read anew -/

theorem exists_written_of_readWithValue? {space body : List Char} {parts : Parts}
    (found : readWithValue? space ('(' :: body) = some parts) :
    ∃ written : WrittenValue, (readQuoted? body = some written ∨ readBare? body = some written) ∧
      FitsRest written.rest ∧ parts.value = some written.value := by
  rw [readWithValue?, Text.trimLeft_cons (by decide)] at found
  obtain ⟨read, member, partsRead⟩ := List.exists_of_findSome?_eq_some found
  obtain ⟨written, valueRead, restRead⟩ := Option.bind_eq_some_iff.mp partsRead
  obtain ⟨both, restFound, rfl⟩ := Option.map_eq_some_iff.mp restRead
  refine ⟨written, ?_, isSome_readRest?_iff.mp (Option.isSome_of_eq_some restFound), rfl⟩
  rcases List.mem_pair.mp member with rfl | rfl
  · exact .inl valueRead
  · exact .inr valueRead

theorem IsQuoted.of_readBare?_append {value rest : List Char} (isQuoted : IsQuoted value)
    {written : WrittenValue} (found : readBare? (value ++ ')' :: rest) = some written) :
    ')' ∉ written.value ∧ (')' ∉ value ∧ written.rest = rest ∨
      ')' ∈ value ∧ ∃ front, written.rest = front ++ rest) := by
  have kept : trimLeft (value ++ ')' :: rest) = value ++ ')' :: rest := by
    cases isQuoted with
    | intro isQuote closed => exact Text.trimLeft_cons (isBlank_of_isQuote isQuote) _
  rw [readBare?, kept] at found
  split at found
  next behind closing =>
    cases found
    refine ⟨fun member => ?_, ?_⟩
    · have inside := (Text.trimRight_isPrefix _).subset member
      simpa using List.mem_takeWhile_imp inside
    · -- The bare value ends at the first closing parenthesis, maybe one inside the quotes.
      by_cases closes : ')' ∈ value
      · obtain ⟨front, back, rfl, absent⟩ := List.eq_append_cons_of_mem closes
        rw [List.append_assoc, List.cons_append, Text.dropWhile_ne absent] at closing
        refine .inr ⟨closes, back ++ [')'], ?_⟩
        simp [← (List.cons.inj closing).2]
      · rw [Text.dropWhile_ne closes] at closing
        exact .inl ⟨closes, (List.cons.inj closing).2.symm⟩
  next => cases found

/-- Where the text behind a quoted value does not fit, only an end of it inside the quotes can be
    read. -/
theorem IsQuoted.bare_of_readWithValue? {value rest space : List Char} {parts : Parts}
    (isQuoted : IsQuoted value) (unfit : ¬ FitsRest rest)
    (found : readWithValue? space ('(' :: (value ++ ')' :: rest)) = some parts) :
    ')' ∈ value ∧ ∃ bare front, parts.value = some bare ∧ ')' ∉ bare ∧ FitsRest (front ++ rest) := by
  obtain ⟨written, quoted | bare, fits, isValue⟩ := exists_written_of_readWithValue? found
  · rw [isQuoted.readQuoted?_eq] at quoted
    cases quoted
    exact absurd fits unfit
  · obtain ⟨unclosed, ⟨_, same⟩ | ⟨closes, front, same⟩⟩ := isQuoted.of_readBare?_append bare
    · exact absurd (same ▸ fits) unfit
    · exact ⟨closes, written.value, front, isValue, unclosed, same ▸ fits⟩

end Marginalia
