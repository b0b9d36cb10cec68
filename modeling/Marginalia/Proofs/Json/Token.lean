import Marginalia.Proofs.Json.Literal
import Marginalia.Proofs.Text.Trim

/-!
# What is taken for a string, a number or a word

Where a string, a number or a word stands in front of something else, the reader takes all of it: a
string up to its closing quote, and a number as long as nothing that could go on with it follows.
-/

namespace Marginalia.Json

/-! ## Strings -/

section Escapes

variable {escape inside rest : List Char} {c : Option Char}

/-- A text that stands for a string and goes on like a unicode escape does so with four digits. -/
theorem exists_of_spellsBody_unicode {second : List Char} {body : List (Option Char)}
    (spelled : SpellsBody inside body) (behind : inside ++ '"' :: rest = '\\' :: 'u' :: second) :
    ∃ digits tail unit, inside = '\\' :: 'u' :: (digits ++ tail) ∧ digits.length = 4 ∧
      Text.hexNumber? digits = some unit ∧ second = digits ++ (tail ++ '"' :: rest) := by
  cases spelled with
  | nil => cases behind
  | plain _ noEscape => exact absurd (List.cons.inj behind).1 noEscape
  | @escape escape inside _ _ spelled =>
    rw [List.cons_append, List.cons.injEq] at behind
    have behind := behind.2
    cases spelled with
    | simple known =>
      obtain ⟨rfl, -⟩ := List.cons.inj behind
      cases known
    | @unit digits unit four number =>
      obtain ⟨-, rfl⟩ := List.cons.inj behind
      exact ⟨digits, inside, unit, rfl, four, number, List.append_assoc _ _ _⟩
    | @pair digits lowDigits unit low four number =>
      obtain ⟨-, rfl⟩ := List.cons.inj behind
      exact ⟨digits, '\\' :: 'u' :: (lowDigits ++ inside), unit, by simp, four, number, by simp⟩

/-- The longest escape behind a backslash is read. -/
theorem readEscape_of_spells {body : List (Option Char)} (offset : Nat)
    (spelled : SpellsEscape escape c)
    (longest : ∀ longer other, SpellsEscape longer other → longer <+: escape ++ inside →
      longer.length ≤ escape.length)
    (behind : SpellsBody inside body) :
    readEscape offset (escape ++ (inside ++ '"' :: rest)) = .ok (c, escape.length) := by
  cases spelled with
  | @simple first plain known =>
    have other : first ≠ 'u' := by
      rintro rfl
      cases known
    rw [List.singleton_append]
    unfold readEscape
    split
    next nothing => cases nothing
    next same => exact absurd (List.cons.inj same).1 other
    next same =>
      obtain ⟨rfl, -⟩ := List.cons.inj same
      rw [known]
      rfl
  | @unit digits unit four number =>
    have long : ¬ (digits ++ (inside ++ '"' :: rest)).length ≤ 4 := by
      simp only [List.length_append, List.length_cons]
      omega
    rw [List.cons_append, readEscape, if_neg long, Text.hexPrefix?_append four, number]
    simp only [List.drop_left' four, List.length_cons, four]
    split
    next second goesOn =>
      obtain ⟨lowDigits, tail, low, rfl, lowFour, lowNumber, rfl⟩ :=
        exists_of_spellsBody_unicode behind goesOn
      split
      next isPair =>
        -- Were the second half of a pair behind the first, the pair would be the longer escape.
        have single : ¬ isLowSurrogate low = true := by
          intro isLow
          have bound := longest _ _ (.pair four number (Bool.and_eq_true_iff.mp isPair).1 lowFour
            lowNumber isLow) ⟨tail, by simp⟩
          simp only [List.length_cons, List.length_append, four, lowFour] at bound
          omega
        rw [Text.hexPrefix?_append lowFour, lowNumber]
        exact if_neg single
      next => rfl
    next => rfl
  | @pair highDigits lowDigits high low highFour highNumber isHigh lowFour lowNumber isLow =>
    have long : ¬ (highDigits ++ '\\' :: 'u' :: (lowDigits ++ (inside ++ '"' :: rest))).length ≤ 4 := by
      simp only [List.length_append, List.length_cons]
      omega
    have more : 4 < (lowDigits ++ (inside ++ '"' :: rest)).length := by
      simp only [List.length_append, List.length_cons]
      omega
    simp only [List.cons_append, List.append_assoc]
    rw [readEscape, if_neg long, Text.hexPrefix?_append highFour, highNumber]
    simp only [List.drop_left' highFour, isHigh, more, Text.hexPrefix?_append lowFour, lowNumber, isLow,
      decide_true, Bool.and_self, if_true]
    simp [highFour, lowFour]

end Escapes

theorem readBody_of_spells {inside : List Char} {body : List (Option Char)}
    (spelled : SpellsBody inside body) (offset : Nat) (rest : List Char) :
    readBody offset 0 (inside ++ '"' :: rest) = .ok (body, offset + inside.length + 1) := by
  induction spelled generalizing offset with
  | nil => rfl
  | @plain c inside body noQuote noEscape noControl _ ih =>
    rw [List.cons_append, readBody, if_neg noQuote, if_neg noEscape,
      if_neg (Nat.not_lt.mpr noControl), ih, List.length_cons]
    show Except.ok (some c :: body, _) = _
    rw [Nat.add_right_comm offset 1, Nat.add_assoc offset]
  | @escape escape inside c body spelled longest behind ih =>
    rw [List.cons_append, readBody, if_neg (by decide), if_pos rfl, List.append_assoc,
      readEscape_of_spells offset spelled longest behind]
    show (readBody (offset + 1) escape.length _ >>= _) = _
    rw [readBody_busy, List.drop_left, ih]
    show Except.ok (c :: body, _) = _
    simp only [List.length_cons, List.length_append]
    congr 2
    omega

theorem readString_of_spells {literal : List Char} {body : List (Option Char)}
    (spelled : SpellsString literal body) (rest : List Char) :
    readString (literal ++ rest) = .ok (body, literal.length) := by
  cases spelled with
  | @quoted inside _ spelled =>
    rw [readString, List.cons_append, List.drop_succ_cons, List.drop_zero, List.append_assoc,
      List.singleton_append, readBody_of_spells spelled]
    simp only [List.length_cons, List.length_append, List.length_nil]
    congr 2
    omega

/-! ## Words -/

theorem readWord?_of_mem {spelled : List Char} {value : Value} (member : (spelled, value) ∈ words)
    (rest : List Char) : readWord? (spelled ++ rest) = some (value, spelled.length) := by
  simp only [words, List.mem_cons, Prod.mk.injEq, List.not_mem_nil, or_false] at member
  rcases member with ⟨rfl, rfl⟩ | ⟨rfl, rfl⟩ | ⟨rfl, rfl⟩ | ⟨rfl, rfl⟩ | ⟨rfl, rfl⟩ | ⟨rfl, rfl⟩ <;> rfl

/-! ## Numbers -/

/-- What may follow a value: nothing, white space, a comma or a closing bracket. -/
def IsBehind (rest : List Char) : Prop :=
  ∀ c, rest.head? = some c → isSpace c = true ∨ c = ',' ∨ c = ']' ∨ c = '\x7d'

/-- What cannot go on with a number. -/
theorem IsBehind.apart {rest : List Char} (behind : IsBehind rest) {c : Char}
    (first : rest.head? = some c) : c.isDigit = false ∧ c ≠ '.' ∧ c ≠ 'e' ∧ c ≠ 'E' := by
  have cases := behind c first
  simp only [isSpace, Bool.or_eq_true, decide_eq_true_eq] at cases
  rcases cases with ((( rfl | rfl) | rfl) | rfl) | rfl | rfl | rfl <;> decide

theorem leadingDigits_append {digits rest : List Char} (areDigits : ∀ c ∈ digits, c.isDigit = true)
    (boundary : ∀ c, rest.head? = some c → c.isDigit = false) :
    leadingDigits (digits ++ rest) = digits :=
  Text.takeWhile_append_of_boundary areDigits boundary

/-- The exponent in front of what may follow a number, as the reader looks for it. -/
theorem power_of_spells {power rest : List Char} {power? : Option (Bool × List Char)}
    (spelled : SpellsPower power power?) (behind : IsBehind rest) :
    let text := power ++ rest
    let marked := text.head? == some 'e' || text.head? == some 'E'
    let sign := (text.drop 1).head?
    let signed := sign == some '+' || sign == some '-'
    let digits := leadingDigits (text.drop (if signed then 2 else 1))
    (if marked && !digits.isEmpty then some (sign == some '-', digits) else none) = power? ∧
      (if power?.isSome then digits.length + (if signed then 2 else 1) else 0) = power.length := by
  cases spelled with
  | missing =>
    have unmarked : (rest.head? == some 'e' || rest.head? == some 'E') = false := by
      cases first : rest.head? with
      | none => rfl
      | some c => simp [(behind.apart first).2.2]
    simp [unmarked]
  | @plain mark digits isMark nonempty areDigits =>
    obtain ⟨first, more, rfl⟩ := List.exists_cons_of_ne_nil nonempty
    have isDigit := areDigits first List.mem_cons_self
    have unsigned : first ≠ '+' ∧ first ≠ '-' :=
      ⟨fun same => by simp [same] at isDigit, fun same => by simp [same] at isDigit⟩
    have taken := leadingDigits_append areDigits (fun c ahead => (behind.apart ahead).1)
    rw [List.cons_append] at taken
    simp [isMark, unsigned, taken]
  | @signed mark sign digits isMark isSign nonempty areDigits =>
    have taken := leadingDigits_append areDigits (fun c ahead => (behind.apart ahead).1)
    simp [isMark, isSign, taken, nonempty]

theorem head?_power {power rest : List Char} {power? : Option (Bool × List Char)}
    (spelled : SpellsPower power power?) (behind : IsBehind rest) {c : Char}
    (first : (power ++ rest).head? = some c) : c.isDigit = false ∧ c ≠ '.' := by
  cases spelled with
  | missing => exact ⟨(behind.apart first).1, (behind.apart first).2.1⟩
  | plain isMark | signed isMark =>
    cases first
    rcases isMark with rfl | rfl <;> decide

/-- The fraction in front of an exponent, as the reader looks for it. -/
theorem fraction_of_spells {fraction tail : List Char} (areDigits : ∀ c ∈ fraction, c.isDigit = true)
    (boundary : ∀ c, tail.head? = some c → c.isDigit = false ∧ c ≠ '.') :
    let text := (if fraction.isEmpty then [] else '.' :: fraction) ++ tail
    (if text.head? = some '.' then leadingDigits (text.drop 1) else []) = fraction ∧
      (if fraction.isEmpty then text else text.drop (fraction.length + 1)) = tail := by
  cases fraction with
  | nil =>
    have noPoint : tail.head? ≠ some '.' := fun point => (boundary _ point).2 rfl
    simp [noPoint]
  | cons first more =>
    have taken := leadingDigits_append areDigits (fun c ahead => (boundary c ahead).1)
    rw [List.cons_append] at taken
    simp [taken]

/-- The digits in front of the point, as the reader looks for them. -/
theorem whole_of_spells {whole tail : List Char} (areDigits : ∀ c ∈ whole, c.isDigit = true)
    (zero : whole.head? = some '0' → whole = ['0'])
    (boundary : ∀ c, tail.head? = some c → c.isDigit = false) :
    let digits := leadingDigits (whole ++ tail)
    (if digits.head? = some '0' then ['0'] else digits) = whole := by
  rw [leadingDigits_append areDigits boundary]
  show (if whole.head? = some '0' then ['0'] else whole) = whole
  split
  next isZero => exact (zero isZero).symm
  next => rfl

/-- A number starts with a minus or a digit. -/
theorem SpellsNumeral.exists_cons {spelled : List Char} {numeral : Numeral}
    (written : SpellsNumeral spelled numeral) :
    ∃ c rest, spelled = c :: rest ∧ (c = '-' ∧ (∃ d, rest.head? = some d ∧ d.isDigit = true) ∨
      c.isDigit = true) := by
  obtain ⟨power, -, rfl⟩ := written.text
  obtain ⟨first, more, whole⟩ := List.exists_cons_of_ne_nil written.nonempty
  have isDigit := written.whole first (whole ▸ List.mem_cons_self)
  rw [Numeral.mantissa, whole]
  cases numeral.negative with
  | false => exact ⟨first, _, rfl, .inr isDigit⟩
  | true => exact ⟨'-', _, rfl, .inl ⟨rfl, first, rfl, isDigit⟩⟩

theorem readWord?_of_numeral {spelled : List Char} {numeral : Numeral}
    (written : SpellsNumeral spelled numeral) (rest : List Char) :
    readWord? (spelled ++ rest) = none := by
  obtain ⟨c, more, rfl, isMinus | isDigit⟩ := written.exists_cons
  · obtain ⟨rfl, d, first, isDigit⟩ := isMinus
    obtain ⟨tail, rfl⟩ := List.head?_eq_some_iff.mp first
    have noWord : 'I' ≠ d := by
      rintro rfl
      cases isDigit
    simp [readWord?, words, noWord]
  · have noWord : 'n' ≠ c ∧ 't' ≠ c ∧ 'f' ≠ c ∧ 'N' ≠ c ∧ 'I' ≠ c ∧ '-' ≠ c := by
      refine ⟨?_, ?_, ?_, ?_, ?_, ?_⟩ <;> (rintro rfl; cases isDigit)
    simp [readWord?, words, noWord]

theorem readNumeral?_of_spells {spelled rest : List Char} {numeral : Numeral}
    (written : SpellsNumeral spelled numeral) (behind : IsBehind rest) :
    readNumeral? (spelled ++ rest) = some numeral := by
  obtain ⟨power, spelledPower, whole_eq⟩ := written.text
  obtain ⟨negative, whole, fraction, power?, length⟩ := numeral
  -- The parts from the last to the first: each ends where the next one or what is behind begins.
  have tailHead : ∀ c, ((if fraction.isEmpty then [] else '.' :: fraction) ++ (power ++ rest)).head? =
      some c → c.isDigit = false := by
    intro c first
    cases fraction with
    | nil => exact (head?_power spelledPower behind first).1
    | cons =>
      cases first
      rfl
  obtain ⟨fractionTaken, powerBehind⟩ := fraction_of_spells written.fraction
    (fun c first => head?_power (c := c) spelledPower behind first)
  obtain ⟨powerTaken, powerLength⟩ := power_of_spells spelledPower behind
  have wholeTaken := whole_of_spells written.whole written.zero tailHead
  have text_eq : spelled ++ rest = (if negative then ['-'] else []) ++
      (whole ++ ((if fraction.isEmpty then [] else '.' :: fraction) ++ (power ++ rest))) := by
    rw [whole_eq, Numeral.mantissa]
    simp only [List.append_assoc]
  have negative_eq : ((spelled ++ rest).head? == some '-') = negative := by
    obtain ⟨first, more, rfl⟩ := List.exists_cons_of_ne_nil written.nonempty
    have isDigit : first.isDigit = true := written.whole first List.mem_cons_self
    have unsigned : first ≠ '-' := by
      rintro rfl
      cases isDigit
    rw [text_eq]
    cases negative <;> simp [unsigned]
  have unsigned_eq : (if negative then (spelled ++ rest).drop 1 else spelled ++ rest) =
      whole ++ ((if fraction.isEmpty then [] else '.' :: fraction) ++ (power ++ rest)) := by
    rw [text_eq]
    cases negative <;> rfl
  have nonempty : whole.isEmpty = false := by simpa using written.nonempty
  have counted : (spelled ++ rest).length - (power ++ rest).length + power.length = length := by
    have spelledLength : length = spelled.length := written.length
    have parts := congrArg List.length whole_eq
    simp only [List.length_append] at parts ⊢
    omega
  simp only [readNumeral?, negative_eq, unsigned_eq, wholeTaken, nonempty, List.drop_left,
    fractionTaken, powerBehind, powerTaken, powerLength, counted, Bool.false_eq_true, if_false]

end Marginalia.Json
