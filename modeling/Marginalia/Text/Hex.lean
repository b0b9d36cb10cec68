/-!
# Hexadecimal digits

Numbers as hexadecimal digits of a fixed width, and the value of a run of such digits.
-/

namespace Marginalia.Text

/-- The value of a hexadecimal digit of either case. -/
def hexValue? (c : Char) : Option Nat :=
  if '0' ≤ c ∧ c ≤ '9' then some (c.toNat - '0'.toNat)
  else if 'a' ≤ c ∧ c ≤ 'f' then some (c.toNat - 'a'.toNat + 10)
  else if 'A' ≤ c ∧ c ≤ 'F' then some (c.toNat - 'A'.toNat + 10)
  else none

/-- The number that a run of hexadecimal digits spells; `none` if another character is among them. -/
def hexNumber? (digits : List Char) : Option Nat :=
  digits.foldlM (fun value c => (hexValue? c).map (16 * value + ·)) 0

/-- The number that the first `width` characters spell, if there are as many and all are digits. -/
def hexPrefix? (width : Nat) (text : List Char) : Option Nat :=
  let digits := text.take width
  if digits.length = width then hexNumber? digits else none

/-- The last `width` hexadecimal digits of a number, letters in lower case. -/
def hexDigits : (width : Nat) → Nat → List Char
  | 0, _ => []
  | width + 1, value => hexDigits width (value / 16) ++ [Nat.digitChar (value % 16)]

/-- The last `width` hexadecimal digits of a number, letters in upper case. -/
def hexDigitsUpper (width value : Nat) : List Char :=
  (hexDigits width value).map Char.toUpper

theorem length_hexDigits (width value : Nat) : (hexDigits width value).length = width := by
  induction width generalizing value with
  | zero => rfl
  | succ width ih => simp [hexDigits, ih]

theorem exists_of_mem_hexDigits {width value : Nat} {c : Char} (member : c ∈ hexDigits width value) :
    ∃ digit < 16, Nat.digitChar digit = c := by
  induction width generalizing value with
  | zero => cases member
  | succ width ih =>
    rw [hexDigits, List.mem_append, List.mem_singleton] at member
    rcases member with front | rfl
    · exact ih front
    · exact ⟨_, Nat.mod_lt _ (by decide), rfl⟩

theorem hexPrefix?_append {digits : List Char} {width : Nat} (wide : digits.length = width)
    (tail : List Char) : hexPrefix? width (digits ++ tail) = hexNumber? digits := by
  rw [hexPrefix?, List.take_left' wide, if_pos wide]

/-- The digits of a number that fits their width spell it, in whichever form they keep their values. -/
theorem hexNumber?_map_hexDigits {form : Char → Char}
    (kept : ∀ digit < 16, hexValue? (form (Nat.digitChar digit)) = some digit) {width value : Nat}
    (fits : value < Nat.pow 16 width) : hexNumber? ((hexDigits width value).map form) = some value := by
  induction width generalizing value with
  | zero =>
    obtain rfl : value = 0 := Nat.lt_one_iff.mp fits
    rfl
  | succ width ih =>
    replace fits : value < Nat.pow 16 width * 16 := fits
    have front : ((hexDigits width (value / 16)).map form).foldlM _ 0 = some (value / 16) :=
      ih (by omega)
    have last := kept (value % 16) (Nat.mod_lt _ (by decide))
    rw [hexNumber?, hexDigits, List.map_append, List.foldlM_append, front]
    simp [last, Nat.div_add_mod]

theorem hexNumber?_hexDigits {width value : Nat} (fits : value < Nat.pow 16 width) :
    hexNumber? (hexDigits width value) = some value := by
  have lower : ∀ digit < 16, hexValue? (id (Nat.digitChar digit)) = some digit := by decide
  simpa using hexNumber?_map_hexDigits lower fits

end Marginalia.Text
