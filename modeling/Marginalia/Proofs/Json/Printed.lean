import Marginalia.Proofs.Json.Acceptance
import Marginalia.Proofs.Text.NulFree

/-!
# Written tables are read back

What is written for a string spells it, whatever its characters, and what is written for a table of texts
spells the table.  So a reader has the table back.
-/

namespace Marginalia.Json

/-! ## Characters -/

@[simp] theorem isHighSurrogate_toNat (c : Char) : isHighSurrogate c.toNat = false := by
  have valid : c.toNat < 0xD800 ∨ 0xDFFF < c.toNat ∧ c.toNat < 0x110000 := c.valid
  simp only [isHighSurrogate, Bool.and_eq_false_iff, decide_eq_false_iff_not]
  omega

@[simp] theorem isLowSurrogate_toNat (c : Char) : isLowSurrogate c.toNat = false := by
  have valid : c.toNat < 0xD800 ∨ 0xDFFF < c.toNat ∧ c.toNat < 0x110000 := c.valid
  simp only [isLowSurrogate, Bool.and_eq_false_iff, decide_eq_false_iff_not]
  omega

theorem unitChar?_toNat (c : Char) : unitChar? c.toNat = some c := by
  simp [unitChar?]

section Escapes

variable {escape inside : List Char} {c : Option Char}

theorem SpellsEscape.length_le (spelled : SpellsEscape escape c) : escape.length ≤ 11 := by
  cases spelled with
  | simple => exact Nat.succ_le_succ (Nat.zero_le 10)
  | unit four => simp [four]
  | pair highFour _ _ lowFour => simp [highFour, lowFour]

/-- Behind another letter than `u`, an escape is over. -/
theorem SpellsEscape.length_le_of_simple {letter : Char} (other : letter ≠ 'u')
    (spelled : SpellsEscape escape c) (standsAt : escape <+: letter :: inside) : escape.length ≤ 1 := by
  cases spelled with
  | simple => exact Nat.le_refl 1
  | unit | pair => exact absurd (List.cons_prefix_cons.mp standsAt).1.symm other

/-- Only the first half of a pair can go on behind its four digits. -/
theorem SpellsEscape.length_le_of_unit {digits : List Char} {unit : Nat} (four : digits.length = 4)
    (number : Text.hexNumber? digits = some unit) (single : isHighSurrogate unit = false)
    (spelled : SpellsEscape escape c) (standsAt : escape <+: 'u' :: digits ++ inside) :
    escape.length ≤ 5 := by
  cases spelled with
  | simple => exact Nat.succ_le_succ (Nat.zero_le 4)
  | unit otherFour => simp [otherFour]
  | @pair highDigits _ high _ highFour highNumber isHigh =>
    have ahead : highDigits <+: digits ++ inside :=
      (List.prefix_append _ _).trans (List.cons_prefix_cons.mp standsAt).2
    have same : highDigits = digits :=
      (List.prefix_of_prefix_length_le ahead (List.prefix_append _ _)
        (by omega)).eq_of_length (highFour.trans four.symm)
    rw [same, number, Option.some_inj] at highNumber
    rw [← highNumber, single] at isHigh
    cases isHigh

end Escapes

/-! ## Strings -/

section Strings

variable {inside : List Char} {body : List (Option Char)}

theorem SpellsBody.simple {letter plain : Char} (known : simpleEscape? letter = some plain)
    (rest : SpellsBody inside body) : SpellsBody ('\\' :: letter :: inside) (some plain :: body) := by
  have other : letter ≠ 'u' := by
    rintro rfl
    cases known
  exact .escape (.simple known)
    (fun _ _ longer standsAt => longer.length_le_of_simple other standsAt) rest

theorem SpellsBody.writeUnit {c : Char} (short : c.toNat < 0x10000) (rest : SpellsBody inside body) :
    SpellsBody (writeUnit c.toNat ++ inside) (some c :: body) := by
  have four : (Text.hexDigits 4 c.toNat).length = 4 := Text.length_hexDigits _ _
  have number : Text.hexNumber? (Text.hexDigits 4 c.toNat) = some c.toNat :=
    Text.hexNumber?_hexDigits short
  rw [← unitChar?_toNat c]
  exact .escape (.unit four number) (fun longer _ spelled standsAt =>
    (spelled.length_le_of_unit four number (isHighSurrogate_toNat c) standsAt).trans
      (by simp [four])) rest

theorem SpellsBody.writePair {c : Char} (long : 0x10000 ≤ c.toNat) (rest : SpellsBody inside body) :
    SpellsBody (Json.writeUnit (0xD800 + (c.toNat - 0x10000) / 0x400) ++
      Json.writeUnit (0xDC00 + (c.toNat - 0x10000) % 0x400) ++ inside) (some c :: body) := by
  have valid : c.toNat < 0x110000 := by
    have valid : c.toNat < 0xD800 ∨ 0xDFFF < c.toNat ∧ c.toNat < 0x110000 := c.valid
    omega
  generalize isHigh : 0xD800 + (c.toNat - 0x10000) / 0x400 = high
  generalize isLow : 0xDC00 + (c.toNat - 0x10000) % 0x400 = low
  have highFour := Text.length_hexDigits 4 high
  have lowFour := Text.length_hexDigits 4 low
  have whole : Char.ofNat (0x10000 + (high - 0xD800) * 0x400 + (low - 0xDC00)) = c := by
    have same : 0x10000 + (high - 0xD800) * 0x400 + (low - 0xDC00) = c.toNat := by omega
    rw [same, Char.ofNat_toNat]
  have pair := SpellsEscape.pair highFour (Text.hexNumber?_hexDigits (by show high < 0x10000; omega))
    (by simp only [isHighSurrogate, Bool.and_eq_true, decide_eq_true_eq]; omega) lowFour
    (Text.hexNumber?_hexDigits (by show low < 0x10000; omega))
    (by simp only [isLowSurrogate, Bool.and_eq_true, decide_eq_true_eq]; omega)
  rw [whole] at pair
  have spelled := SpellsBody.escape pair (fun longer _ spelled (_ : longer <+: _ ++ inside) =>
    spelled.length_le.trans (by simp [highFour, lowFour])) rest
  simpa [Json.writeUnit] using spelled

theorem SpellsBody.writeChar (c : Char) (rest : SpellsBody inside body) :
    SpellsBody (writeChar c ++ inside) (some c :: body) := by
  unfold Json.writeChar
  -- Seven characters have a short escape.
  iterate 7
    split
    next same =>
      subst same
      exact .simple rfl rest
  next noQuote noEscape _ _ _ _ _ =>
    split
    next printable => exact .plain noQuote noEscape printable.1 rest
    · split
      next short => exact rest.writeUnit short
      next long => exact rest.writePair (Nat.le_of_not_lt long)

end Strings

theorem spellsString_writeString (content : String) :
    SpellsString (writeString content) (content.toList.map some) := by
  refine .quoted ?_
  induction content.toList with
  | nil => exact .nil
  | cons c rest ih => exact ih.writeChar c

theorem contentOf_map_some (content : String) : contentOf (content.toList.map some) = content := by
  have whole : (content.toList.map some).map (fun c => c.getD '\uFFFD') = content.toList := by
    rw [List.map_map]
    exact List.map_id _
  rw [contentOf, whole, String.ofList_toList]

theorem valueOf_map_some (content : String) :
    valueOf (content.toList.map some) = .text content := by
  rw [valueOf, if_pos (by simp), contentOf_map_some]

theorem spells_writeString (content : String) : Spells (writeString content) (.text content) :=
  valueOf_map_some content ▸ .string (spellsString_writeString content)

/-! ## Tables of texts -/

/-- An entry of a table of texts as it is written, with what stands behind its value. -/
def printedMember (behind : List Char) (entry : String × String) : Member where
  before := breakLine 1
  literal := writeString entry.1
  gap := []
  key := entry.1
  item := ⟨[' '], writeString entry.2, behind, .text entry.2⟩

/-- The entries of a table of texts as they are written; the last one has the closing bracket on a line
    of its own. -/
def printedMembers : List (String × String) → List Member
  | [] => []
  | [last] => [printedMember (breakLine 0) last]
  | entry :: next :: rest => printedMember [] entry :: printedMembers (next :: rest)

theorem isGap_breakLine (depth : Nat) : IsGap (breakLine depth) := by
  refine List.forall_mem_cons.mpr ⟨by decide, fun c member => ?_⟩
  rw [(List.mem_replicate.mp member).2]
  decide

theorem isWritten_printedMember {behind : List Char} (blank : IsGap behind) (entry : String × String) :
    (printedMember behind entry).IsWritten where
  spaced :=
    { before := isGap_breakLine 1
      literal := ⟨_, spellsString_writeString _, (contentOf_map_some _).symm⟩
      gap := .nil
      item := ⟨List.forall_mem_singleton.mpr (by decide), blank⟩ }
  spelled := spells_writeString _

theorem exists_of_mem_printedMembers {entries : List (String × String)} :
    ∀ member ∈ printedMembers entries,
      ∃ behind entry, IsGap behind ∧ member = printedMember behind entry := by
  induction entries using printedMembers.induct with
  | case1 => exact fun member among => absurd among List.not_mem_nil
  | case2 last => exact List.forall_mem_singleton.mpr ⟨_, last, isGap_breakLine 0, rfl⟩
  | case3 entry next rest ih => exact List.forall_mem_cons.mpr ⟨⟨_, entry, .nil, rfl⟩, ih⟩

theorem isWritten_of_mem_printedMembers {entries : List (String × String)} :
    ∀ member ∈ printedMembers entries, member.IsWritten := by
  intro member among
  obtain ⟨behind, entry, blank, rfl⟩ := exists_of_mem_printedMembers member among
  exact isWritten_printedMember blank entry

theorem entries_printedMembers (entries : List (String × String)) :
    (printedMembers entries).map (fun member => (member.key, member.item.value)) =
      entries.map textEntry := by
  induction entries using printedMembers.induct with
  | case1 | case2 => rfl
  | case3 entry next rest ih => rw [printedMembers, List.map_cons, ih]; rfl

theorem intercalate_printedMembers (entry : String × String) (rest : List (String × String)) :
    [','].intercalate ((printedMembers (entry :: rest)).map Member.text) =
      breakLine 1 ++ (writeEntry 1 (textEntry entry) ++
        (writeEntries 1 (rest.map textEntry) ++ breakLine 0)) := by
  induction rest generalizing entry with
  | nil => simp [printedMembers, printedMember, Member.text, Item.text, writeEntry, writeEntries,
      writeAt, textEntry]
  | cons next rest ih =>
    have others : printedMembers (entry :: next :: rest) =
      printedMember [] entry :: printedMembers (next :: rest) := rfl
    obtain ⟨first, later, isCons⟩ :
        ∃ first later, (printedMembers (next :: rest)).map Member.text = first :: later := by
      cases rest <;> exact ⟨_, _, rfl⟩
    rw [others, List.map_cons, isCons, List.intercalate_cons_cons, ← isCons, ih]
    simp [printedMember, Member.text, Item.text, writeEntry, writeEntries, writeAt, textEntry]

/-- Members with different keys are the entries of their table. -/
theorem entriesOf_of_nodup {members : List Member} (distinct : (members.map Member.key).Nodup) :
    entriesOf members = members.map fun member => (member.key, member.item.value) := by
  induction members using List.reverseRecOn with
  | nil => rfl
  | append_singleton front last ih =>
    rw [List.map_append, List.nodup_append] at distinct
    obtain ⟨distinct, -, apart⟩ := distinct
    have unknown : last.key ∉ (entriesOf front).map Prod.fst := by
      intro known
      obtain ⟨member, among, same⟩ := exists_of_mem_entriesOf known
      exact apart _ (List.mem_map_of_mem among) _ List.mem_cons_self same
    rw [entriesOf_concat, Ordered.put_of_notMem _ unknown, ih distinct, List.map_append]
    rfl

theorem toList_write (entry : String × String) (rest : List (String × String)) :
    (write (.table ((entry :: rest).map textEntry))).toList =
      tableText (printedMembers (entry :: rest)) := by
  rw [write, String.toList_ofList, tableText, intercalate_printedMembers]
  simp [writeAt]

/-- What is written for a table of texts with different keys spells it. -/
theorem spells_write {entries : List (String × String)} (distinct : (entries.map Prod.fst).Nodup) :
    Spells (write (.table (entries.map textEntry))).toList (.table (entries.map textEntry)) := by
  cases entries with
  | nil =>
    rw [write, String.toList_ofList]
    exact .emptyTable .nil
  | cons entry rest =>
    have nonempty : printedMembers (entry :: rest) ≠ [] := by cases rest <;> exact List.cons_ne_nil _ _
    have spelled := Spells.of_members nonempty isWritten_of_mem_printedMembers
    have keys : (printedMembers (entry :: rest)).map Member.key = (entry :: rest).map Prod.fst := by
      have both := congrArg (List.map Prod.fst) (entries_printedMembers (entry :: rest))
      rw [List.map_map, List.map_map] at both
      exact both
    rw [entriesOf_of_nodup (keys ▸ distinct), entries_printedMembers] at spelled
    rw [toList_write]
    exact spelled

theorem nesting_write_le (entries : List (String × String)) :
    nesting (write (.table (entries.map textEntry))).toList ≤ 1 := by
  cases entries with
  | nil =>
    rw [write, String.toList_ofList]
    decide
  | cons entry rest =>
    rw [toList_write, nesting_tableText isWritten_of_mem_printedMembers]
    refine Nat.succ_le_succ (Nat.le_of_not_lt fun deeper => ?_)
    obtain ⟨member, among, deep⟩ := lt_deepest_iff.mp deeper
    obtain ⟨behind, entry, -, rfl⟩ := exists_of_mem_printedMembers member among
    have flat := (spellsString_writeString entry.2).isBalanced.nesting_eq
    exact absurd (flat ▸ deep) (Nat.lt_irrefl 0)

end Marginalia.Json
