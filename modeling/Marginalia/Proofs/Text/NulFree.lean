import Marginalia.Data.Json.Printer
import Marginalia.Proofs.Data.Along

/-!
# Texts without the character with code zero

The mark that hides doubled dollar signs begins and ends with the character with code zero.  Texts that
are put together from pieces without it have none, and numbers and JSON are written without it.
-/

namespace Marginalia

/-- A text without the character with code zero. -/
def NulFree (text : String) : Prop :=
  '\x00' ∉ text.toList

instance (text : String) : Decidable (NulFree text) :=
  inferInstanceAs (Decidable ('\x00' ∉ text.toList))

@[simp] theorem nulFree_ofList (text : List Char) : NulFree (String.ofList text) ↔ '\x00' ∉ text := by
  rw [NulFree, String.toList_ofList]

@[simp] theorem nulFree_append (front back : String) :
    NulFree (front ++ back) ↔ NulFree front ∧ NulFree back := by
  rw [NulFree, String.toList_append, List.mem_append, not_or]
  rfl

@[simp] theorem nulFree_toString (text : String) : NulFree (toString text) ↔ NulFree text :=
  Iff.rfl

theorem nulFree_intercalate {sep : String} {parts : List String} (sepFree : NulFree sep)
    (partsFree : ∀ part ∈ parts, NulFree part) : NulFree (sep.intercalate parts) := by
  rw [NulFree, String.toList_intercalate]
  intro member
  rcases mem_intercalate member with inSep | ⟨_, partMember, inPart⟩
  · exact sepFree inSep
  · obtain ⟨part, member, rfl⟩ := List.mem_map.mp partMember
    exact partsFree part member inPart

/-! ## Numbers -/

theorem nulFree_natRepr (number : Nat) : NulFree number.repr := by
  rw [NulFree, Nat.toList_repr]
  intro member
  have digit := Nat.isDigit_of_mem_toDigits (by decide) (by decide) member
  exact absurd digit (by decide)

theorem nulFree_toString_int (number : Int) : NulFree (toString number) := by
  cases number with
  | ofNat number => exact nulFree_natRepr number
  | negSucc number =>
    have written : toString (Int.negSucc number) = "-" ++ (number + 1).repr := rfl
    rw [written, nulFree_append]
    exact ⟨by decide, nulFree_natRepr (number + 1)⟩

/-! ## JSON -/

namespace Json

theorem digitChar_ne_nul : ∀ digit < 16, Nat.digitChar digit ≠ '\x00' := by decide

theorem nul_notMem_hexDigits (width value : Nat) : '\x00' ∉ Text.hexDigits width value := by
  intro member
  obtain ⟨digit, bound, isNul⟩ := Text.exists_of_mem_hexDigits member
  exact digitChar_ne_nul digit bound isNul

theorem nul_notMem_writeUnit (unit : Nat) : '\x00' ∉ writeUnit unit := by
  rw [writeUnit, List.mem_cons, List.mem_cons, not_or, not_or]
  exact ⟨by decide, by decide, nul_notMem_hexDigits 4 unit⟩

theorem nul_notMem_writeChar (c : Char) : '\x00' ∉ writeChar c := by
  unfold writeChar
  -- Seven characters have a short escape.
  iterate 7
    split
    · decide
  split
  next printable =>
    rw [List.mem_singleton]
    rintro rfl
    exact absurd printable.1 (by decide)
  · split
    · exact nul_notMem_writeUnit _
    · rw [List.mem_append, not_or]
      exact ⟨nul_notMem_writeUnit _, nul_notMem_writeUnit _⟩

theorem nul_notMem_writeString (content : String) : '\x00' ∉ writeString content := by
  rw [writeString, List.cons_append, List.mem_cons, List.mem_append, List.mem_flatMap, not_or,
    not_or]
  refine ⟨by decide, ?_, by decide⟩
  rintro ⟨c, _, member⟩
  exact nul_notMem_writeChar c member

theorem nul_notMem_breakLine (depth : Nat) : '\x00' ∉ breakLine depth := by
  rw [breakLine, List.mem_cons, List.mem_replicate, not_or]
  exact ⟨by decide, fun blank => absurd blank.2 (by decide)⟩

/-- An entry of a table whose values are texts. -/
def textEntry (entry : String × String) : String × Value :=
  (entry.1, .text entry.2)

theorem nul_notMem_writeEntry (depth : Nat) (entry : String × String) :
    '\x00' ∉ writeEntry depth (textEntry entry) := by
  have key := nul_notMem_writeString entry.1
  have value := nul_notMem_writeString entry.2
  simp [textEntry, writeEntry, writeAt, key, value]

theorem nul_notMem_writeEntries (depth : Nat) (entries : List (String × String)) :
    '\x00' ∉ writeEntries depth (entries.map textEntry) := by
  induction entries with
  | nil => simp [writeEntries]
  | cons entry entries ih =>
    have line := nul_notMem_breakLine depth
    have own := nul_notMem_writeEntry depth entry
    simp [writeEntries, ih, line, own]

theorem nulFree_write_table (entries : List (String × String)) :
    NulFree (write (.table (entries.map textEntry))) := by
  rw [write, nulFree_ofList]
  cases entries with
  | nil => simp [writeAt]
  | cons entry entries =>
    have inner := nul_notMem_breakLine 1
    have outer := nul_notMem_breakLine 0
    have first := nul_notMem_writeEntry 1 entry
    have others := nul_notMem_writeEntries 1 entries
    simp [writeAt, inner, outer, first, others]

end Json

end Marginalia
