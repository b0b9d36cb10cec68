import Marginalia.Proofs.Text.Scan
import Marginalia.Text.Utf8
import Mathlib.Tactic.SplitIfs

/-!
# What UTF-8 is read as

The bytes of a text are read as that text, and no other bytes are: what a first byte announces, with the
bytes that follow it, are the bytes of one character.
-/

namespace Marginalia.Text.Utf8

/-! ## Characters as bytes -/

/-- A number without its last bits, of which each byte that is owed has six. -/
def above : (owed : Nat) → (number : Nat) → Nat
  | 0, number => number
  | owed + 1, number => above owed number / 64

@[simp] theorem above_zero (number : Nat) : above 0 number = number := rfl

@[simp] theorem above_one (number : Nat) : above 1 number = number / 64 := rfl

@[simp] theorem above_two (number : Nat) : above 2 number = number / 4096 :=
  Nat.div_div_eq_div_mul number 64 64

@[simp] theorem above_three (number : Nat) : above 3 number = number / 262144 := by
  rw [above, above_two, Nat.div_div_eq_div_mul]

/-- The bytes behind the first one of a character, with six bits of its number in each. -/
def tail : (owed : Nat) → (number : Nat) → List UInt8
  | 0, _ => []
  | owed + 1, number => UInt8.ofNat (above owed number % 64 + 0x80) :: tail owed number

theorem length_tail (owed number : Nat) : (tail owed number).length = owed := by
  induction owed with
  | zero => rfl
  | succ owed ih => rw [tail, List.length_cons, ih]

/-- How many bytes follow the first one of a character with a number. -/
def tailLength (number : Nat) : Nat :=
  if number ≤ 0x7F then 0 else if number ≤ 0x7FF then 1 else if number ≤ 0xFFFF then 2 else 3

/-- What the first byte of a character has besides bits of its number: it tells how many bytes follow. -/
def mark : (owed : Nat) → Nat
  | 0 => 0
  | 1 => 0xC0
  | 2 => 0xE0
  | _ => 0xF0

theorem utf8EncodeChar_eq (c : Char) :
    String.utf8EncodeChar c =
      UInt8.ofNat (above (tailLength c.toNat) c.toNat + mark (tailLength c.toNat)) ::
        tail (tailLength c.toNat) c.toNat := by
  have valid : c.toNat < 0xD800 ∨ 0xDFFF < c.toNat ∧ c.toNat < 0x110000 := c.valid
  have same : c.val.toNat = c.toNat := rfl
  unfold String.utf8EncodeChar tailLength
  simp only [same]
  split_ifs with one two three
  · simp [tail, mark]
  · have bits : c.toNat / 64 % 32 = c.toNat / 64 := by omega
    simp [tail, mark, bits]
  · have bits : c.toNat / 4096 % 16 = c.toNat / 4096 := by omega
    simp [tail, mark, bits]
  · have bits : c.toNat / 262144 % 8 = c.toNat / 262144 := by omega
    simp [tail, mark, bits]

/-! ## What a first byte announces -/

/-- A first byte announces the bytes of a character with a number. -/
structure Announces (byte : UInt8) (lead : Lead) (number : Nat) : Prop where
  known : lead? byte = some lead
  bits : above lead.owed number = lead.bits
  /-- The six bits of the next byte lie between the bounds. -/
  bounds : ∀ less, lead.owed = less + 1 →
    lead.low ≤ above less number % 64 + 0x80 ∧ above less number % 64 + 0x80 ≤ lead.high

theorem Announces.shape {byte : UInt8} {lead : Lead} {number : Nat}
    (announces : Announces byte lead number) :
    number.isValidChar ∧ lead.owed = tailLength number ∧
      byte.toNat = above lead.owed number + mark lead.owed := by
  obtain ⟨known, bits, bounds⟩ := announces
  have bound : byte.toNat < 256 := byte.toNat_lt
  unfold lead? at known
  dsimp only at known
  unfold tailLength Nat.isValidChar
  -- One case for each row of the table of first bytes.  In the rows for longer characters, the bounds of
  -- the next byte keep out numbers that need fewer bytes, surrogates, and what lies above all characters.
  repeat' split at known
  all_goals try contradiction
  all_goals
    injection known with known
    subst known
    simp only [above_zero, above_one, above_two, above_three, mark] at bits bounds ⊢
  · split_ifs <;> omega
  all_goals
    have next := bounds _ rfl
    simp only [above_zero, above_one, above_two] at next
    split_ifs <;> omega

section Sizes

variable {number : Nat}

theorem exists_announces_two (more : 0x7F < number) (less : number ≤ 0x7FF) :
    ∃ byte lead, Announces byte lead number := by
  have same : (UInt8.ofNat (number / 64 + 0xC0)).toNat = number / 64 + 0xC0 :=
    UInt8.toNat_ofNat_of_lt' (by show _ < 256; omega)
  refine ⟨UInt8.ofNat (number / 64 + 0xC0), ⟨number / 64, 1, 0x80, 0xBF⟩, ?_, by simp, ?_⟩
  · unfold lead?
    simp only [same, Nat.add_sub_cancel]
    rw [if_neg (by omega), if_neg (by omega), if_pos (by omega)]
  · rintro _ ⟨⟩
    simp only [above_zero]
    omega

theorem exists_announces_three (more : 0x7FF < number) (less : number ≤ 0xFFFF)
    (valid : number < 0xD800 ∨ 0xDFFF < number) : ∃ byte lead, Announces byte lead number := by
  have same : (UInt8.ofNat (number / 4096 + 0xE0)).toNat = number / 4096 + 0xE0 :=
    UInt8.toNat_ofNat_of_lt' (by show _ < 256; omega)
  refine ⟨UInt8.ofNat (number / 4096 + 0xE0), ⟨number / 4096, 2,
    if number / 4096 = 0 then 0xA0 else 0x80,
    if number / 4096 = 0xD then 0x9F else 0xBF⟩, ?_, by simp, ?_⟩
  · unfold lead?
    simp only [same, Nat.add_sub_cancel]
    rw [if_neg (by omega), if_neg (by omega), if_neg (by omega)]
    by_cases first : number / 4096 = 0
    · simp [first]
    · by_cases surrogates : number / 4096 = 0xD
      · simp [surrogates]
      · rw [if_neg (by omega), if_neg (by omega), if_pos (by omega), if_neg first, if_neg surrogates]
  · rintro _ ⟨⟩
    simp only [Nat.zero_add, above_one]
    split_ifs <;> omega

theorem exists_announces_four (more : 0xFFFF < number) (less : number < 0x110000) :
    ∃ byte lead, Announces byte lead number := by
  have same : (UInt8.ofNat (number / 262144 + 0xF0)).toNat = number / 262144 + 0xF0 :=
    UInt8.toNat_ofNat_of_lt' (by show _ < 256; omega)
  refine ⟨UInt8.ofNat (number / 262144 + 0xF0), ⟨number / 262144, 3,
    if number / 262144 = 0 then 0x90 else 0x80,
    if number / 262144 = 4 then 0x8F else 0xBF⟩, ?_, by simp, ?_⟩
  · unfold lead?
    simp only [same, Nat.add_sub_cancel]
    rw [if_neg (by omega), if_neg (by omega), if_neg (by omega), if_neg (by omega), if_neg (by omega),
      if_neg (by omega)]
    by_cases first : number / 262144 = 0
    · simp [first]
    · by_cases last : number / 262144 = 4
      · simp [last]
      · rw [if_neg (by omega), if_pos (by omega), if_neg first, if_neg last]
  · rintro _ ⟨⟩
    simp only [Nat.zero_add, above_two]
    split_ifs <;> omega

end Sizes

/-- Every character has a first byte that announces it. -/
theorem exists_announces (c : Char) : ∃ byte lead, Announces byte lead c.toNat := by
  have valid : c.toNat < 0xD800 ∨ 0xDFFF < c.toNat ∧ c.toNat < 0x110000 := c.valid
  by_cases one : c.toNat ≤ 0x7F
  · have same : (UInt8.ofNat c.toNat).toNat = c.toNat :=
      UInt8.toNat_ofNat_of_lt' (by show _ < 256; omega)
    refine ⟨UInt8.ofNat c.toNat, ⟨c.toNat, 0, 0x80, 0xBF⟩, ?_, by simp, fun _ none => by cases none⟩
    unfold lead?
    simp only [same]
    rw [if_pos one]
  by_cases two : c.toNat ≤ 0x7FF
  · exact exists_announces_two (by omega) two
  by_cases three : c.toNat ≤ 0xFFFF
  · exact exists_announces_three (by omega) three (by omega)
  · exact exists_announces_four (by omega) (by omega)

/-- The bytes of the character that a first byte announces. -/
theorem Announces.encodes {byte : UInt8} {lead : Lead} {number : Nat}
    (announces : Announces byte lead number) :
    (Char.ofNat number).toNat = number ∧
      String.utf8EncodeChar (Char.ofNat number) = byte :: tail lead.owed number := by
  obtain ⟨valid, owed, first⟩ := announces.shape
  have same : (Char.ofNat number).toNat = number := by
    rw [Char.ofNat, dif_pos valid]
    rfl
  refine ⟨same, ?_⟩
  rw [utf8EncodeChar_eq, same, ← owed, ← first, UInt8.ofNat_toNat]

/-! ## Reading one character -/

theorem finish_tail {owed low high number : Nat}
    (bounds : ∀ less, owed = less + 1 →
      low ≤ above less number % 64 + 0x80 ∧ above less number % 64 + 0x80 ≤ high)
    (taken : Nat) (rest : List UInt8) :
    finish (above owed number) owed low high taken (tail owed number ++ rest) =
      (taken + owed, .ok (Char.ofNat number)) := by
  -- What has been read so far is always the number above the bits that are still owed.
  induction owed generalizing low high taken with
  | zero => simp [finish]
  | succ owed ih =>
    have small : above owed number % 64 < 64 := Nat.mod_lt _ (by decide)
    have same : (UInt8.ofNat (above owed number % 64 + 0x80)).toNat = above owed number % 64 + 0x80 :=
      UInt8.toNat_ofNat_of_lt' (by show _ < 256; omega)
    have next : 64 * above (owed + 1) number + above owed number % 64 = above owed number :=
      Nat.div_add_mod _ 64
    rw [tail, List.cons_append, finish, same, if_pos (bounds owed rfl), Nat.add_sub_cancel, next,
      ih fun less _ => by omega]
    rw [Nat.add_right_comm, Nat.add_assoc]

theorem tail_of_finish {bits owed low high taken length : Nat} {bytes : List UInt8} {c : Char}
    (least : 0x80 ≤ low) (most : high ≤ 0xBF)
    (found : finish bits owed low high taken bytes = (length, .ok c)) :
    length = taken + owed ∧ ∃ number, above owed number = bits ∧ c = Char.ofNat number ∧
      bytes = tail owed number ++ bytes.drop owed ∧ ∀ less, owed = less + 1 →
        low ≤ above less number % 64 + 0x80 ∧ above less number % 64 + 0x80 ≤ high := by
  induction owed generalizing bits low high taken bytes with
  | zero =>
    cases found
    exact ⟨rfl, bits, rfl, rfl, by simp [tail], fun _ none => by cases none⟩
  | succ owed ih =>
    cases bytes with
    | nil => cases found
    | cons byte rest =>
      rw [finish] at found
      split at found
      next inside =>
        obtain ⟨rfl, number, top, rfl, whole, -⟩ := ih (Nat.le_refl _) (Nat.le_refl _) found
        have below : above owed number % 64 + 0x80 = byte.toNat := by omega
        have same : UInt8.ofNat (above owed number % 64 + 0x80) = byte := by
          rw [below, UInt8.ofNat_toNat]
        refine ⟨by omega, number, ?_, rfl, ?_, ?_⟩
        · rw [above, top]
          omega
        · rw [tail, same, List.drop_succ_cons, List.cons_append, ← whole]
        · rintro _ ⟨⟩
          omega
      next => cases found

theorem bounds_of_lead? {byte : UInt8} {lead : Lead} (known : lead? byte = some lead) :
    0x80 ≤ lead.low ∧ lead.high ≤ 0xBF := by
  unfold lead? at known
  dsimp only at known
  repeat' split at known
  all_goals try contradiction
  all_goals
    injection known with known
    subst known
    simp

/-- The bytes of a character are read as that character. -/
theorem readUnit_utf8EncodeChar (c : Char) (rest : List UInt8) :
    readUnit (String.utf8EncodeChar c ++ rest) = some ((String.utf8EncodeChar c).length, .ok c) := by
  obtain ⟨byte, lead, announces⟩ := exists_announces c
  obtain ⟨-, encoded⟩ := announces.encodes
  rw [Char.ofNat_toNat] at encoded
  have read := finish_tail announces.bounds 1 rest
  rw [announces.bits, Char.ofNat_toNat] at read
  rw [encoded, List.cons_append, readUnit, announces.known]
  simp only [read, List.length_cons, length_tail]
  rw [Nat.add_comm]
  rfl

theorem exists_readUnit (byte : UInt8) (rest : List UInt8) :
    ∃ length token, readUnit (byte :: rest) = some (length, token) := by
  rw [readUnit]
  split <;> exact ⟨_, _, rfl⟩

/-- What is read as a character are the bytes of that character. -/
theorem utf8EncodeChar_of_readUnit {bytes : List UInt8} {length : Nat} {c : Char}
    (found : readUnit bytes = some (length, .ok c)) :
    length = (String.utf8EncodeChar c).length ∧
      bytes = String.utf8EncodeChar c ++ bytes.drop length := by
  cases bytes with
  | nil => cases found
  | cons byte rest =>
    rw [readUnit] at found
    split at found
    next => cases found
    next lead known =>
      obtain ⟨least, most⟩ := bounds_of_lead? known
      cases result : finish lead.bits lead.owed lead.low lead.high 1 rest with
      | mk taken outcome =>
      rw [result] at found
      cases outcome with
      | error flaw => cases found
      | ok plain =>
        cases found
        obtain ⟨rfl, number, top, rfl, whole, bounds⟩ := tail_of_finish least most result
        obtain ⟨-, encoded⟩ := Announces.encodes ⟨known, top, bounds⟩
        rw [encoded, List.length_cons, length_tail, Nat.add_comm, List.drop_succ_cons, List.cons_append,
          ← whole]
        exact ⟨rfl, rfl⟩

/-! ## Reading a text -/

theorem encode_cons (c : Char) (text : List Char) :
    encode (c :: text) = String.utf8EncodeChar c ++ encode text :=
  List.flatMap_cons

/-- What is found in a sequence of bytes, or what is wrong with it. -/
def characterOf (hit : Hit (Except (UInt8 × Flaw) Char)) : Except Malformed Char :=
  hit.token.mapError fun (byte, flaw) => ⟨hit.start, hit.length, byte, flaw⟩

theorem mapM_hitsFrom_encode (text : List Char) (place : Nat) :
    (hitsFrom readUnit place 0 (encode text)).mapM characterOf = .ok text := by
  induction text generalizing place with
  | nil => rfl
  | cons c rest ih =>
    have positive : 0 < (String.utf8EncodeChar c).length :=
      List.length_pos_iff.mpr String.utf8EncodeChar_ne_nil
    rw [encode_cons, hitsFrom_of_some place (by simp) positive (readUnit_utf8EncodeChar c _),
      List.mapM_cons, List.drop_left, ih]
    rfl

theorem exists_of_mapM_hitsFrom {byte : UInt8} {rest : List UInt8} {place : Nat} {text : List Char}
    (found : (hitsFrom readUnit place 0 (byte :: rest)).mapM characterOf = .ok text) :
    ∃ c more, text = c :: more ∧ byte :: rest = String.utf8EncodeChar c ++
        (byte :: rest).drop (String.utf8EncodeChar c).length ∧
      (hitsFrom readUnit (place + (String.utf8EncodeChar c).length) 0
        ((byte :: rest).drop (String.utf8EncodeChar c).length)).mapM characterOf = .ok more := by
  obtain ⟨length, token, read⟩ := exists_readUnit byte rest
  cases token with
  | error flaw =>
    simp only [hitsFrom, read, List.mapM_cons] at found
    cases found
  | ok c =>
    obtain ⟨rfl, whole⟩ := utf8EncodeChar_of_readUnit read
    have positive : 0 < (String.utf8EncodeChar c).length :=
      List.length_pos_iff.mpr String.utf8EncodeChar_ne_nil
    rw [hitsFrom_of_some place (List.cons_ne_nil _ _) positive read, List.mapM_cons] at found
    cases later : (hitsFrom readUnit (place + (String.utf8EncodeChar c).length) 0
        ((byte :: rest).drop (String.utf8EncodeChar c).length)).mapM characterOf with
    | error malformed =>
      rw [later] at found
      cases found
    | ok more =>
      rw [later] at found
      cases found
      exact ⟨c, more, rfl, whole, later⟩

theorem encode_of_mapM_hitsFrom {bytes : List UInt8} {text : List Char} (place : Nat)
    (found : (hitsFrom readUnit place 0 bytes).mapM characterOf = .ok text) : bytes = encode text := by
  induction text generalizing place bytes with
  | nil =>
    cases bytes with
    | nil => rfl
    | cons byte rest =>
      obtain ⟨_, _, isCons, -⟩ := exists_of_mapM_hitsFrom found
      cases isCons
  | cons c text ih =>
    cases bytes with
    | nil => cases found
    | cons byte rest =>
      obtain ⟨_, _, isCons, whole, found⟩ := exists_of_mapM_hitsFrom found
      cases isCons
      rw [encode_cons, ← ih _ found]
      exact whole

/-- Bytes are read as a text exactly if they are the bytes of that text. -/
theorem decode_eq_ok_iff {bytes : List UInt8} {text : List Char} :
    decode bytes = .ok text ↔ bytes = encode text := by
  constructor
  · exact encode_of_mapM_hitsFrom 0
  · rintro rfl
    exact mapM_hitsFrom_encode text 0

theorem encode_inj {text other : List Char} : encode text = encode other ↔ text = other := by
  constructor
  · intro same
    exact Except.ok.inj ((decode_eq_ok_iff.mpr same).symm.trans (decode_eq_ok_iff.mpr rfl)).symm
  · rintro rfl
    rfl

end Marginalia.Text.Utf8
