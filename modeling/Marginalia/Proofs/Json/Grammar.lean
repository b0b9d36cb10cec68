import Marginalia.Data.Json.Reader
import Marginalia.Proofs.Text.Piece
import Mathlib.Data.List.Basic

/-!
# How JSON values are written

The grammar of JSON, said without the reader: which texts spell a value, with the items of a list and
the members of a table as they stand there.  A table may have several members with one key; the last of
them counts.
-/

namespace Marginalia.Json

/-! ## Strings -/

/-- What may stand behind a backslash, and the character that it stands for, if it is a whole one. -/
inductive SpellsEscape : List Char → Option Char → Prop where
  | simple {c plain : Char} (known : simpleEscape? c = some plain) : SpellsEscape [c] (some plain)
  | unit {digits : List Char} {unit : Nat} (four : digits.length = 4)
      (number : Text.hexNumber? digits = some unit) : SpellsEscape ('u' :: digits) (unitChar? unit)
  | pair {highDigits lowDigits : List Char} {high low : Nat} (highFour : highDigits.length = 4)
      (highNumber : Text.hexNumber? highDigits = some high) (isHigh : isHighSurrogate high = true)
      (lowFour : lowDigits.length = 4) (lowNumber : Text.hexNumber? lowDigits = some low)
      (isLow : isLowSurrogate low = true) :
      SpellsEscape ('u' :: (highDigits ++ '\\' :: 'u' :: lowDigits))
        (some (Char.ofNat (0x10000 + (high - 0xD800) * 0x400 + (low - 0xDC00))))

/-- The text between the quotes of a string, and its characters. -/
inductive SpellsBody : List Char → List (Option Char) → Prop where
  | nil : SpellsBody [] []
  | plain {c : Char} {inside : List Char} {body : List (Option Char)} (noQuote : c ≠ '"')
      (noEscape : c ≠ '\\') (noControl : 0x20 ≤ c.toNat) (rest : SpellsBody inside body) :
      SpellsBody (c :: inside) (some c :: body)
  /-- Of two escapes the longer one counts, so that both halves of a pair are read together. -/
  | escape {escape inside : List Char} {c : Option Char} {body : List (Option Char)}
      (spelled : SpellsEscape escape c)
      (longest : ∀ longer other, SpellsEscape longer other → longer <+: escape ++ inside →
        longer.length ≤ escape.length)
      (rest : SpellsBody inside body) : SpellsBody ('\\' :: (escape ++ inside)) (c :: body)

/-- A string in its quotes, and its characters. -/
inductive SpellsString : List Char → List (Option Char) → Prop where
  | quoted {inside : List Char} {body : List (Option Char)} (spelled : SpellsBody inside body) :
      SpellsString ('"' :: (inside ++ ['"'])) body

theorem SpellsString.exists_cons {literal : List Char} {body : List (Option Char)}
    (spelled : SpellsString literal body) : ∃ rest, literal = '"' :: rest := by
  cases spelled
  exact ⟨_, rfl⟩

/-! ## Numbers -/

/-- The exponent of a number, which may be missing. -/
inductive SpellsPower : List Char → Option (Bool × List Char) → Prop where
  | missing : SpellsPower [] none
  | plain {mark : Char} {digits : List Char} (isMark : mark = 'e' ∨ mark = 'E')
      (nonempty : digits ≠ []) (areDigits : ∀ c ∈ digits, c.isDigit = true) :
      SpellsPower (mark :: digits) (some (false, digits))
  | signed {mark sign : Char} {digits : List Char} (isMark : mark = 'e' ∨ mark = 'E')
      (isSign : sign = '+' ∨ sign = '-') (nonempty : digits ≠ [])
      (areDigits : ∀ c ∈ digits, c.isDigit = true) :
      SpellsPower (mark :: sign :: digits) (some (sign == '-', digits))

/-- A number in front of its exponent. -/
def Numeral.mantissa (numeral : Numeral) : List Char :=
  (if numeral.negative then ['-'] else []) ++
    (numeral.whole ++ if numeral.fraction.isEmpty then [] else '.' :: numeral.fraction)

/-- A number as it is written. -/
structure SpellsNumeral (spelled : List Char) (numeral : Numeral) : Prop where
  text : ∃ power, SpellsPower power numeral.power? ∧ spelled = numeral.mantissa ++ power
  nonempty : numeral.whole ≠ []
  whole : ∀ c ∈ numeral.whole, c.isDigit = true
  /-- A zero in front stands alone. -/
  zero : numeral.whole.head? = some '0' → numeral.whole = ['0']
  fraction : ∀ c ∈ numeral.fraction, c.isDigit = true
  length : numeral.length = spelled.length

/-! ## Values -/

/-- Nothing but white space. -/
def IsGap (text : List Char) : Prop :=
  ∀ c ∈ text, isSpace c = true

/-- A value as it stands in a list, or behind the colon of a member: with the gaps around it. -/
structure Item where
  before : List Char
  written : List Char
  behind : List Char
  value : Value

def Item.text (item : Item) : List Char :=
  item.before ++ (item.written ++ item.behind)

/-- A member of a table as it is written. -/
structure Member where
  before : List Char
  literal : List Char
  gap : List Char
  key : String
  item : Item

def Member.text (member : Member) : List Char :=
  member.before ++ (member.literal ++ (member.gap ++ ':' :: member.item.text))

/-- The gaps around an item are gaps. -/
structure Item.IsSpaced (item : Item) : Prop where
  before : IsGap item.before
  behind : IsGap item.behind

/-- The gaps of a member are gaps, and its key is written as a string. -/
structure Member.IsSpaced (member : Member) : Prop where
  before : IsGap member.before
  literal : ∃ body, SpellsString member.literal body ∧ member.key = contentOf body
  gap : IsGap member.gap
  item : member.item.IsSpaced

/-- The entries of a table with some members: a key that is repeated keeps its last value. -/
def entriesOf (members : List Member) : List (String × Value) :=
  members.foldl (fun entries member => Ordered.put member.key member.item.value entries) []

/-- Some texts with a comma behind each of them. -/
def withCommas (texts : List (List Char)) : List Char :=
  texts.flatMap (· ++ [','])

/-- The text of a list with some items, which are not none. -/
def listText (items : List Item) : List Char :=
  '[' :: ([','].intercalate (items.map Item.text) ++ [']'])

/-- The text of a table with some members, which are not none. -/
def tableText (members : List Member) : List Char :=
  '\x7b' :: ([','].intercalate (members.map Member.text) ++ ['\x7d'])

/-- A text spells a value. -/
inductive Spells : List Char → Value → Prop where
  | word {spelled : List Char} {value : Value} (member : (spelled, value) ∈ words) :
      Spells spelled value
  | number {spelled : List Char} {numeral : Numeral} {value : Value}
      (written : SpellsNumeral spelled numeral) (counts : numeral.value = .ok value) :
      Spells spelled value
  | string {literal : List Char} {body : List (Option Char)} (spelled : SpellsString literal body) :
      Spells literal (valueOf body)
  | emptyList {gap : List Char} (blank : IsGap gap) : Spells ('[' :: (gap ++ [']'])) (.list [])
  | list {items : List Item} (nonempty : items ≠ []) (spaced : ∀ item ∈ items, item.IsSpaced)
      (spelled : ∀ item ∈ items, Spells item.written item.value) :
      Spells (listText items) (.list (items.map Item.value))
  | emptyTable {gap : List Char} (blank : IsGap gap) :
      Spells ('\x7b' :: (gap ++ ['\x7d'])) (.table [])
  | table {members : List Member} (nonempty : members ≠ [])
      (spaced : ∀ member ∈ members, member.IsSpaced)
      (spelled : ∀ member ∈ members, Spells member.item.written member.item.value) :
      Spells (tableText members) (.table (entriesOf members))

theorem IsGap.nil : IsGap [] :=
  fun _ member => absurd member List.not_mem_nil

theorem IsGap.concat {gap : List Char} {c : Char} (blank : IsGap gap) (isBlank : isSpace c = true) :
    IsGap (gap ++ [c]) := by
  intro other member
  rcases List.mem_append.mp member with inside | last
  · exact blank other inside
  · exact List.mem_singleton.mp last ▸ isBlank

theorem Spells.ne_nil {spelled : List Char} {value : Value} (spells : Spells spelled value) :
    spelled ≠ [] := by
  cases spells with
  | word member =>
    rintro rfl
    simp [words] at member
  | number written =>
    obtain ⟨power, -, rfl⟩ := written.text
    simp [Numeral.mantissa, written.nonempty]
  | string spelled =>
    cases spelled
    exact List.cons_ne_nil _ _
  | emptyList | list | emptyTable | table => exact List.cons_ne_nil _ _

/-- An item that stands in a list. -/
structure Item.IsWritten (item : Item) : Prop where
  spaced : item.IsSpaced
  spelled : Spells item.written item.value

/-- A member that stands in a table. -/
structure Member.IsWritten (member : Member) : Prop where
  spaced : member.IsSpaced
  spelled : Spells member.item.written member.item.value

theorem Spells.of_items {items : List Item} (nonempty : items ≠ [])
    (written : ∀ item ∈ items, item.IsWritten) :
    Spells (listText items) (.list (items.map Item.value)) :=
  .list nonempty (fun item member => (written item member).spaced)
    (fun item member => (written item member).spelled)

theorem Spells.of_members {members : List Member} (nonempty : members ≠ [])
    (written : ∀ member ∈ members, member.IsWritten) :
    Spells (tableText members) (.table (entriesOf members)) :=
  .table nonempty (fun member among => (written member among).spaced)
    (fun member among => (written member among).spelled)

/-! ## The members of a table -/

theorem entriesOf_concat (front : List Member) (last : Member) :
    entriesOf (front ++ [last]) = Ordered.put last.key last.item.value (entriesOf front) :=
  List.foldl_concat _ _ _ _

/-- The last member with a key tells what the table has under it. -/
theorem exists_of_lookup_entriesOf {members : List Member} {key : String} {value : Value}
    (found : (entriesOf members).lookup key = some value) :
    ∃ front member back, members = front ++ member :: back ∧ member.key = key ∧
      member.item.value = value ∧ ∀ later ∈ back, later.key ≠ key := by
  induction members using List.reverseRecOn with
  | nil => cases found
  | append_singleton front last ih =>
    rw [entriesOf_concat, Ordered.lookup_put] at found
    by_cases here : key = last.key
    · rw [if_pos here, Option.some_inj] at found
      exact ⟨front, last, [], rfl, here.symm, found, fun _ later => absurd later List.not_mem_nil⟩
    · rw [if_neg here] at found
      obtain ⟨before, member, back, rfl, named, holds, isLast⟩ := ih found
      refine ⟨before, member, back ++ [last], by simp, named, holds, fun later among => ?_⟩
      rcases List.mem_append.mp among with inside | atEnd
      · exact isLast later inside
      · exact List.mem_singleton.mp atEnd ▸ Ne.symm here

theorem exists_of_mem_entriesOf {members : List Member} {key : String}
    (known : key ∈ (entriesOf members).map Prod.fst) : ∃ member ∈ members, member.key = key := by
  induction members using List.reverseRecOn with
  | nil => cases known
  | append_singleton front last ih =>
    rw [entriesOf_concat, Ordered.keys_put] at known
    by_cases here : last.key = key
    · exact ⟨last, List.mem_concat_self, here⟩
    · have inFront : key ∈ (entriesOf front).map Prod.fst := by
        split at known
        next => exact known
        next => simpa [Ne.symm here] using known
      obtain ⟨member, among, named⟩ := ih inFront
      exact ⟨member, List.mem_append_left _ among, named⟩

theorem nodup_keys_entriesOf (members : List Member) : ((entriesOf members).map Prod.fst).Nodup := by
  induction members using List.reverseRecOn with
  | nil => exact List.nodup_nil
  | append_singleton front last ih =>
    rw [entriesOf_concat, Ordered.keys_put]
    split
    next => exact ih
    next new => exact List.nodup_append.mpr ⟨ih, by simp, by
        rintro key member _ isLast rfl
        exact new (List.mem_singleton.mp isLast ▸ member)⟩

/-- What spells a table that is not empty has the members of the table. -/
theorem exists_members_of_spells {spelled : List Char} {entries : List (String × Value)}
    (spells : Spells spelled (.table entries)) (nonempty : entries ≠ []) :
    ∃ members, spelled = tableText members ∧ entries = entriesOf members ∧
      ∀ member ∈ members, member.IsWritten := by
  generalize isTable : Value.table entries = value at spells
  cases spells with
  | word member =>
    subst isTable
    simp [words] at member
  | number written counts =>
    subst isTable
    unfold Numeral.value at counts
    split at counts
    next => split at counts <;> cases counts
    next => cases counts
  | string =>
    unfold valueOf at isTable
    split at isTable <;> cases isTable
  | emptyList | list => cases isTable
  | emptyTable =>
    cases isTable
    exact absurd rfl nonempty
  | @table members _ spaced spelled =>
    cases isTable
    exact ⟨members, rfl, rfl, fun member among => ⟨spaced member among, spelled member among⟩⟩

/-- A table has each of its keys once, however often they are written. -/
theorem Spells.nodup_keys {spelled : List Char} {entries : List (String × Value)}
    (spells : Spells spelled (.table entries)) : (entries.map Prod.fst).Nodup := by
  by_cases nonempty : entries = []
  · rw [nonempty]
    exact List.nodup_nil
  · obtain ⟨members, -, rfl, -⟩ := exists_members_of_spells spells nonempty
    exact nodup_keys_entriesOf members

/-! ## Commas -/

theorem withCommas_concat (front : List (List Char)) (last : List Char) :
    withCommas (front ++ [last]) = withCommas front ++ (last ++ [',']) := by
  rw [withCommas, List.flatMap_append, List.flatMap_singleton, withCommas]

theorem intercalate_append_cons (front : List (List Char)) (text : List Char)
    (back : List (List Char)) :
    [','].intercalate (front ++ text :: back) =
      withCommas front ++ [','].intercalate (text :: back) := by
  induction front with
  | nil => rfl
  | cons first front ih =>
    rw [List.cons_append, List.intercalate_cons_of_ne_nil (by simp), ih, ← List.append_assoc]
    rfl

theorem intercalate_concat (front : List (List Char)) (last : List Char) :
    [','].intercalate (front ++ [last]) = withCommas front ++ last := by
  rw [intercalate_append_cons, List.intercalate_singleton]

/-! ## Places in a table -/

/-- A text is a table that has a member between some others. -/
structure IsMember (spelled : List Char) (front : List Member) (member : Member)
    (back : List Member) : Prop where
  text : spelled = tableText (front ++ member :: back)
  written : ∀ other ∈ front ++ member :: back, other.IsWritten

/-- How far behind the start of a table a member has its key. -/
def keyPlace (front : List Member) (member : Member) : Nat :=
  1 + (withCommas (front.map Member.text)).length + member.before.length

/-- How far behind the start of a table a member has its value. -/
def valuePlace (front : List Member) (member : Member) : Nat :=
  keyPlace front member + member.literal.length + member.gap.length + 1 + member.item.before.length

section Places

variable {spelled : List Char} {front back : List Member} {member : Member}

theorem IsMember.standsAt_key (isMember : IsMember spelled front member back) :
    Text.StandsAt (member.literal ++ (member.gap ++ ':' :: member.item.text)) (keyPlace front member)
      spelled := by
  obtain ⟨rest, whole⟩ : ∃ rest, spelled =
      ('\x7b' :: withCommas (front.map Member.text) ++ member.before) ++
        (member.literal ++ (member.gap ++ ':' :: member.item.text) ++ rest) := by
    rw [isMember.text, tableText, List.map_append, List.map_cons, intercalate_append_cons]
    cases back with
    | nil => exact ⟨['\x7d'], by simp [Member.text]⟩
    | cons next back => exact ⟨_, by simp [Member.text, List.intercalate_cons_cons]; rfl⟩
  have place : keyPlace front member =
      ('\x7b' :: withCommas (front.map Member.text) ++ member.before).length := by
    simp only [keyPlace, List.length_append, List.length_cons]
    omega
  rw [Text.StandsAt, whole, place, List.drop_left]
  exact List.prefix_append _ _

theorem IsMember.standsAt_literal (isMember : IsMember spelled front member back) :
    Text.StandsAt member.literal (keyPlace front member) spelled :=
  isMember.standsAt_key.of_isPrefix (List.prefix_append _ _)

theorem IsMember.standsAt_written (isMember : IsMember spelled front member back) :
    Text.StandsAt member.item.written (valuePlace front member) spelled := by
  have behindColon := isMember.standsAt_key.append_right.append_right.drop 1
  rw [List.drop_succ_cons, List.drop_zero, Item.text] at behindColon
  exact behindColon.append_right.of_isPrefix (List.prefix_append _ _)

end Places

end Marginalia.Json
