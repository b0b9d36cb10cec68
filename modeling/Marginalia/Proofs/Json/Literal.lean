import Marginalia.Proofs.Json.Grammar
import Marginalia.Report.Account

/-!
# What the readers of strings, numbers and words take

Each reader of a value without parts takes a text in front of its input that spells the value, and
counts the characters of that text.
-/

namespace Marginalia.Json

/-! ## Escapes -/

theorem SpellsEscape.length_pos {escape : List Char} {c : Option Char}
    (spelled : SpellsEscape escape c) : 0 < escape.length := by
  cases spelled <;> simp

theorem exists_of_hexPrefix? {text : List Char} {width number : Nat}
    (found : Text.hexPrefix? width text = some number) :
    ∃ digits, text = digits ++ text.drop width ∧ digits.length = width ∧
      Text.hexNumber? digits = some number := by
  rw [Text.hexPrefix?] at found
  split at found
  next wide => exact ⟨text.take width, (List.take_append_drop width text).symm, wide, found⟩
  next => cases found

/-- A code unit that is read, or a pair of them. -/
theorem spellsEscape_of_readEscape_unicode {offset length : Nat} {rest : List Char} {c : Option Char}
    (found : readEscape offset ('u' :: rest) = .ok (c, length)) :
    ∃ escape, 'u' :: rest = escape ++ ('u' :: rest).drop length ∧ escape.length = length ∧
      SpellsEscape escape c := by
  rw [readEscape] at found
  split at found
  next => cases found
  next =>
  split at found
  next => cases found
  next unit number =>
  obtain ⟨digits, whole, four, number⟩ := exists_of_hexPrefix? number
  have alone : ∃ escape, 'u' :: rest = escape ++ ('u' :: rest).drop 5 ∧ escape.length = 5 ∧
      SpellsEscape escape (unitChar? unit) :=
    ⟨'u' :: digits, by rw [List.cons_append, List.drop_succ_cons, ← whole], by simp [four],
      .unit four number⟩
  split at found
  next second behind =>
    split at found
    next high =>
      split at found
      next => cases found
      next low lowNumber =>
      split at found
      next isLow =>
        -- Both halves of a pair were read.
        cases found
        obtain ⟨lowDigits, lowWhole, lowFour, lowNumber⟩ := exists_of_hexPrefix? lowNumber
        refine ⟨_, ?_, ?_, .pair four number (Bool.and_eq_true_iff.mp high).1 lowFour lowNumber isLow⟩
        · have rest : rest.drop 10 = second.drop 4 := by
            rw [show (10 : Nat) = 4 + 6 from rfl, ← List.drop_drop, behind]
            rfl
          rw [List.drop_succ_cons, rest, List.cons_append, List.append_assoc, List.cons_append,
            List.cons_append, ← lowWhole, ← behind, ← whole]
        · simp [four, lowFour]
      next =>
        cases found
        exact alone
    next =>
      cases found
      exact alone
  next =>
    cases found
    exact alone

/-- The escape that is read in front of a text. -/
theorem spellsEscape_of_readEscape {offset length : Nat} {text : List Char} {c : Option Char}
    (found : readEscape offset text = .ok (c, length)) :
    ∃ escape, text = escape ++ text.drop length ∧ escape.length = length ∧ SpellsEscape escape c := by
  match text with
  | [] => cases found
  | first :: rest =>
    by_cases unicode : first = 'u'
    · subst unicode
      exact spellsEscape_of_readEscape_unicode found
    · unfold readEscape at found
      split at found
      next nothing => cases nothing
      next same => exact absurd (List.cons.inj same).1 unicode
      next plainFirst plainRest _ same =>
        obtain ⟨rfl, rfl⟩ := List.cons.inj same
        split at found
        next plain known =>
          cases found
          exact ⟨[first], rfl, rfl, .simple known⟩
        next => cases found

/-- No longer escape stands in front of a text that goes on behind it. -/
theorem length_le_of_readEscape {offset length : Nat} {text longer : List Char} {c other : Option Char}
    (found : readEscape offset text = .ok (c, length)) (spelled : SpellsEscape longer other)
    (front : longer <+: text) (goesOn : longer.length < text.length) : longer.length ≤ length := by
  obtain ⟨tail, rfl⟩ := front
  cases spelled with
  | simple known =>
    obtain ⟨escape, -, rfl, spelled⟩ := spellsEscape_of_readEscape found
    exact spelled.length_pos
  | @unit digits unit four number =>
    have long : ¬ (digits ++ tail).length ≤ 4 := by
      simp only [List.length_cons, List.cons_append, List.length_append] at goesOn ⊢
      omega
    rw [List.cons_append, readEscape, if_neg long, Text.hexPrefix?_append four, number] at found
    have five : ('u' :: digits).length = 5 := by rw [List.length_cons, four]
    rw [five]
    -- Either this half alone is read or another half behind it too.
    grind
  | @pair highDigits lowDigits high low highFour highNumber isHigh lowFour lowNumber isLow =>
    have long : ¬ (highDigits ++ '\\' :: 'u' :: (lowDigits ++ tail)).length ≤ 4 := by
      simp only [List.length_cons, List.length_append]
      omega
    have more : 4 < (lowDigits ++ tail).length := by
      simp only [List.length_cons, List.cons_append, List.append_assoc, List.length_append] at goesOn ⊢
      omega
    simp only [List.cons_append, List.append_assoc] at found
    rw [readEscape, if_neg long, Text.hexPrefix?_append highFour, highNumber] at found
    simp only [List.drop_left' highFour, isHigh, more, Text.hexPrefix?_append lowFour, lowNumber, isLow,
      decide_true, Bool.and_self, if_true] at found
    cases found
    simp [highFour, lowFour]

/-! ## Strings -/

theorem readBody_busy (offset busy : Nat) (text : List Char) :
    readBody offset busy text = readBody (offset + busy) 0 (text.drop busy) := by
  induction text generalizing offset busy with
  | nil => rw [List.drop_nil, readBody, readBody]
  | cons c rest ih =>
    cases busy with
    | zero => rfl
    | succ busy => rw [readBody, ih, List.drop_succ_cons, Nat.add_assoc, Nat.add_comm 1]

/-- The body that is read in front of a quote. -/
theorem spellsBody_of_readBody {offset stop : Nat} {text : List Char} {body : List (Option Char)}
    (found : readBody offset 0 text = .ok (body, stop)) :
    ∃ inside tail, text = inside ++ '"' :: tail ∧ stop = offset + inside.length + 1 ∧
      SpellsBody inside body := by
  match text with
  | [] => cases found
  | c :: rest =>
    rw [readBody] at found
    split at found
    next quote =>
      cases found
      exact ⟨[], rest, by rw [quote]; rfl, rfl, .nil⟩
    next noQuote =>
    split at found
    next backslash =>
      obtain ⟨⟨plain, length⟩, escaped, found⟩ := exists_of_bind_eq_ok found
      obtain ⟨⟨body, stop⟩, later, found⟩ := exists_of_bind_eq_ok found
      cases found
      obtain ⟨escape, whole, rfl, spelled⟩ := spellsEscape_of_readEscape escaped
      rw [readBody_busy] at later
      obtain ⟨inside, tail, behind, counted, rest⟩ := spellsBody_of_readBody later
      rw [behind] at whole
      refine ⟨'\\' :: (escape ++ inside), tail, by simp [backslash, whole], ?_,
        .escape spelled (fun longer other spelled front => ?_) rest⟩
      · simp only [counted, List.length_cons, List.length_append]
        omega
      · refine length_le_of_readEscape escaped spelled (front.trans ?_) ?_
        · rw [whole, ← List.append_assoc]
          exact List.prefix_append _ _
        · have bound := front.length_le
          simp only [whole, List.length_append, List.length_cons] at bound ⊢
          omega
    next noEscape =>
    split at found
    next => cases found
    next control =>
      obtain ⟨⟨body, stop⟩, later, found⟩ := exists_of_bind_eq_ok found
      cases found
      obtain ⟨inside, tail, rfl, counted, spelled⟩ := spellsBody_of_readBody later
      refine ⟨c :: inside, tail, rfl, ?_, .plain noQuote noEscape (Nat.le_of_not_lt control) spelled⟩
      rw [counted, List.length_cons]
      omega
termination_by text.length
decreasing_by
  all_goals
    simp only [List.length_cons, List.length_drop]
    omega

theorem spellsString_of_readString {length : Nat} {rest : List Char} {body : List (Option Char)}
    (found : readString ('"' :: rest) = .ok (body, length)) :
    ∃ literal tail, '"' :: rest = literal ++ tail ∧ length = literal.length ∧
      SpellsString literal body := by
  obtain ⟨inside, tail, behind, counted, spelled⟩ := spellsBody_of_readBody found
  rw [List.drop_succ_cons, List.drop_zero] at behind
  refine ⟨'"' :: (inside ++ ['"']), tail, by simp [behind], ?_, .quoted spelled⟩
  simp only [counted, List.length_cons, List.length_append, List.length_nil]
  omega

/-! ## Words and numbers -/

theorem word_of_readWord? {length : Nat} {text : List Char} {value : Value}
    (found : readWord? text = some (value, length)) :
    ∃ spelled tail, text = spelled ++ tail ∧ length = spelled.length ∧ (spelled, value) ∈ words := by
  obtain ⟨word, isFirst, same⟩ := Option.map_eq_some_iff.mp found
  cases same
  have front := List.find?_some isFirst
  obtain ⟨tail, rfl⟩ := List.isPrefixOf_iff_prefix.mp front
  exact ⟨word.1, tail, rfl, rfl, List.mem_of_find?_eq_some isFirst⟩

theorem isDigit_of_mem_leadingDigits {text : List Char} :
    ∀ c ∈ leadingDigits text, c.isDigit = true :=
  fun _ member => List.mem_takeWhile_imp member

theorem leadingDigits_isPrefix (text : List Char) : leadingDigits text <+: text :=
  List.takeWhile_prefix Char.isDigit

/-- The digits in front of the point: a zero ends them. -/
theorem whole_leadingDigits (unsigned : List Char) :
    let digits := leadingDigits unsigned
    let whole := if digits.head? = some '0' then ['0'] else digits
    whole <+: unsigned ∧ (∀ c ∈ whole, c.isDigit = true) ∧
      (whole.head? = some '0' → whole = ['0']) := by
  intro digits whole
  simp only [whole]
  split
  next zero =>
    obtain ⟨more, digits_zero⟩ := List.head?_eq_some_iff.mp zero
    have front : ['0'] <+: digits := ⟨more, digits_zero.symm⟩
    exact ⟨front.trans (leadingDigits_isPrefix unsigned), List.forall_mem_singleton.mpr rfl, fun _ => rfl⟩
  next apart =>
    exact ⟨leadingDigits_isPrefix unsigned, isDigit_of_mem_leadingDigits, fun zero => absurd zero apart⟩

/-- The point and the digits behind it: a point without digits is not read. -/
theorem fraction_leadingDigits (rest : List Char) :
    let fraction := if rest.head? = some '.' then leadingDigits (rest.drop 1) else []
    let behind := if fraction.isEmpty then rest else rest.drop (fraction.length + 1)
    rest = (if fraction.isEmpty then [] else '.' :: fraction) ++ behind ∧
      ∀ c ∈ fraction, c.isDigit = true := by
  by_cases point : rest.head? = some '.'
  · obtain ⟨digits, rfl⟩ := List.head?_eq_some_iff.mp point
    simp only [List.head?_cons, if_true, List.drop_succ_cons, List.drop_zero]
    refine ⟨?_, isDigit_of_mem_leadingDigits⟩
    split
    next => rfl
    next => rw [List.cons_append, List.prefix_iff_eq_append.mp (leadingDigits_isPrefix digits)]
  · simp [point]

/-- The exponent in front of a text. -/
theorem exists_spellsPower (text : List Char) :
    let marked := text.head? == some 'e' || text.head? == some 'E'
    let sign := (text.drop 1).head?
    let signed := sign == some '+' || sign == some '-'
    let power := leadingDigits (text.drop (if signed then 2 else 1))
    let power? := if marked && !power.isEmpty then some (sign == some '-', power) else none
    ∃ spelled tail, text = spelled ++ tail ∧ SpellsPower spelled power? ∧
      spelled.length = if power?.isSome then power.length + (if signed then 2 else 1) else 0 := by
  intro marked sign signed power power?
  by_cases present : marked && !power.isEmpty
  · obtain ⟨isMarked, nonempty⟩ := Bool.and_eq_true_iff.mp present
    have nonempty : power ≠ [] := by simpa using nonempty
    obtain ⟨mark, rest, rfl, isMark⟩ : ∃ mark rest, text = mark :: rest ∧ (mark = 'e' ∨ mark = 'E') := by
      cases text with
      | nil => simp [marked] at isMarked
      | cons mark rest => exact ⟨mark, rest, rfl, by simpa [marked] using isMarked⟩
    simp only [power?, present, if_true, Option.isSome_some]
    by_cases isSigned : signed
    · obtain ⟨written, rest, rfl, isSign⟩ :
          ∃ written more, rest = written :: more ∧ (written = '+' ∨ written = '-') := by
        cases rest with
        | nil => simp [signed, sign] at isSigned
        | cons written more => exact ⟨written, more, rfl, by simpa [signed, sign] using isSigned⟩
      have power_eq : power = leadingDigits rest := by simp only [power, isSigned, if_true]; rfl
      obtain ⟨tail, whole⟩ := leadingDigits_isPrefix rest
      refine ⟨mark :: written :: power, tail, by rw [power_eq, List.cons_append, List.cons_append, whole],
        .signed isMark isSign nonempty isDigit_of_mem_leadingDigits, ?_⟩
      simp [isSigned]
    · have power_eq : power = leadingDigits rest := by simp only [power, isSigned]; rfl
      obtain ⟨tail, whole⟩ := leadingDigits_isPrefix rest
      have positive : (sign == some '-') = false := by
        simp only [signed, Bool.or_eq_true, not_or, Bool.not_eq_true] at isSigned
        exact isSigned.2
      refine ⟨mark :: power, tail, by rw [power_eq, List.cons_append, whole], ?_, by simp [isSigned]⟩
      rw [positive]
      exact .plain isMark nonempty isDigit_of_mem_leadingDigits
  · simp only [power?, present]
    exact ⟨[], text, rfl, .missing, rfl⟩

/-- The number that is read in front of a text. -/
theorem spellsNumeral_of_readNumeral? {text : List Char} {numeral : Numeral}
    (found : readNumeral? text = some numeral) :
    ∃ spelled tail, text = spelled ++ tail ∧ SpellsNumeral spelled numeral := by
  unfold readNumeral? at found
  extract_lets negative unsigned digits whole rest fraction behind marked sign signed power power?
    length at found
  split at found
  next => cases found
  next nonempty =>
  cases found
  have text_eq : text = (if negative then ['-'] else []) ++ unsigned := by
    by_cases isNegative : negative
    · obtain ⟨tail, rfl⟩ := List.head?_eq_some_iff.mp (eq_of_beq isNegative)
      simp [unsigned, isNegative]
    · simp [unsigned, isNegative]
  obtain ⟨front, wholeDigits, zero⟩ := whole_leadingDigits unsigned
  have unsigned_eq : whole ++ rest = unsigned := List.prefix_iff_eq_append.mp front
  obtain ⟨rest_eq, fractionDigits⟩ := fraction_leadingDigits rest
  obtain ⟨exponent, tail, behind_eq, spelled, counted⟩ := exists_spellsPower behind
  have mantissa : text = Numeral.mantissa ⟨negative, whole, fraction, power?, length⟩ ++ behind := by
    rw [Numeral.mantissa, List.append_assoc, List.append_assoc, ← rest_eq, unsigned_eq, ← text_eq]
  refine ⟨_ ++ exponent, tail, ?_, ⟨exponent, spelled, rfl⟩, ?_, wholeDigits, zero, fractionDigits, ?_⟩
  · rw [List.append_assoc, ← behind_eq, ← mantissa]
  · simpa using nonempty
  · have total := congrArg List.length mantissa
    rw [List.length_append] at total ⊢
    rw [counted]
    exact congrArg (· + _) (by rw [total, Nat.add_sub_cancel])

end Marginalia.Json
