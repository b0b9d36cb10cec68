import Marginalia.Proofs.Document.Refresh
import Marginalia.Proofs.Json.Reading
import Marginalia.Proofs.Text.Search

/-!
# The line of a declaration

Where the keys of the declarations of a sheet stand, by the grammar of its text; and what the line says
that a sheet gives for a name.  The sheet looks for the name between double quotes and knows nothing of
the grammar: the line it gives is that of a key exactly if the quoted name stands on the line of that
key and on no line above it, be it as a value, in a description or as the key of something else.
-/

namespace Marginalia.Sheet

/-! ## Where keys stand -/

/-- The key of a declaration stands at an offset of a text: the text is a table, of which the last
    member called `variables` has a table for its value, and the key is one of that table. -/
inductive IsKeyPlace (text : List Char) (name : String) : Nat → Prop where
  | intro {before outer gap : List Char} {front back inFront behind : List Json.Member}
      {holder declared : Json.Member} (whole : text = before ++ (outer ++ gap))
      (ahead : Json.IsGap before) (blank : Json.IsGap gap)
      (top : Json.IsMember outer front holder back) (isHolder : holder.key = "variables")
      (isLast : ∀ later ∈ back, later.key ≠ "variables")
      (inside : Json.IsMember holder.item.written inFront declared behind)
      (named : declared.key = name) :
      IsKeyPlace text name
        (before.length + (Json.valuePlace front holder + Json.keyPlace inFront declared))

/-- A string that is the name stands at the place of its key. -/
theorem IsKeyPlace.standsAt {text : List Char} {name : String} {place : Nat}
    (isPlace : IsKeyPlace text name place) :
    ∃ literal body, Json.SpellsString literal body ∧ Json.contentOf body = name ∧
      Text.StandsAt literal place text := by
  cases isPlace with
  | @intro before outer gap _ _ _ _ holder declared whole _ _ top _ _ inside named =>
  obtain ⟨body, spelled, key⟩ := (inside.written declared (by simp)).spaced.literal
  have outerStands : Text.StandsAt outer before.length text := by
    rw [Text.StandsAt, whole, List.drop_left]
    exact List.prefix_append _ _
  exact ⟨declared.literal, body, spelled, key.symm.trans named,
    (inside.standsAt_literal.trans top.standsAt_written).trans outerStands⟩

variable {uri text name : String} {sheet : Sheet} {entry : Entry}

/-- The key of every entry stands somewhere in the text. -/
theorem exists_isKeyPlace (accepted : (read uri text).outcome = .ok (some sheet))
    (member : (name, entry) ∈ sheet.entries) : ∃ place, IsKeyPlace text.toList name place := by
  obtain ⟨content, declared, found, declares, -, entries⟩ := exists_of_outcome_read accepted
  obtain ⟨known, -⟩ := declared_of_mem (entries ▸ member)
  obtain ⟨before, outer, gap, whole, ahead, blank, spells⟩ := Json.spells_of_read found
  have isFiled : content.get? "variables" = some (.table declared) := by
    unfold declarations? at declares
    split at declares
    next filed =>
      cases declares
      exact filed
    next => cases declares
  cases content with
  | table contents =>
    replace isFiled : contents.lookup "variables" = some (.table declared) := isFiled
    obtain ⟨members, rfl, rfl, written⟩ :=
      Json.exists_members_of_spells spells (by rintro rfl; cases isFiled)
    -- Of several members called `variables` the last one holds the declarations.
    obtain ⟨front, holder, back, rfl, isHolder, holds, isLast⟩ :=
      Json.exists_of_lookup_entriesOf isFiled
    have spellsHolder := (written holder (by simp)).spelled
    rw [holds] at spellsHolder
    obtain ⟨inner, innerText, rfl, innerWritten⟩ :=
      Json.exists_members_of_spells spellsHolder (by rintro rfl; cases known)
    obtain ⟨key, among, named⟩ := Json.exists_of_mem_entriesOf known
    obtain ⟨inFront, behind, rfl⟩ := List.append_of_mem among
    exact ⟨_, .intro whole ahead blank ⟨rfl, written⟩ isHolder isLast ⟨innerText, innerWritten⟩ named⟩
  | _ => cases isFiled

/-! ## The line that is given -/

/-- The number of the line of an offset, counted from one. -/
def lineAt (text : List Char) (place : Nat) : Nat :=
  (Json.lineAndColumn text place).1

theorem lineAt_mono (text : List Char) {place later : Nat} (ordered : place ≤ later) :
    lineAt text place ≤ lineAt text later :=
  Nat.succ_le_succ ((List.take_prefix_take_left ordered).sublist.count_le _)

/-- The name between double quotes. -/
def quoted (name : String) : List Char :=
  '"' :: name.toList ++ ['"']

/-- The first line that has the name between double quotes. -/
structure IsFirstQuoted (text : List Char) (name : String) (line : Nat) : Prop where
  here : ∃ place, Text.StandsAt (quoted name) place text ∧ lineAt text place = line
  first : ∀ place, Text.StandsAt (quoted name) place text → line ≤ lineAt text place

theorem newline_notMem_quoted (valid : isValidName name = true) : '\n' ∉ quoted name := by
  intro member
  have inName : '\n' ∈ name.toList := by simpa [quoted] using member
  exact absurd (isUpper_or_of_mem valid inName) (by decide)

/-- A sheet gives the line of the first occurrence of the quoted name. -/
theorem lineOf_eq (valid : isValidName name = true) (sheet : Sheet) :
    sheet.lineOf name =
      ((Text.find? (quoted name) sheet.text.toList).map (lineAt sheet.text.toList)).getD 0 := by
  have nonempty : quoted name ≠ [] := List.cons_ne_nil _ _
  have lines := Text.findIdx?_lines nonempty (newline_notMem_quoted valid) sheet.text.toList
  rw [lineOf, ← quoted, lines]
  cases Text.find? (quoted name) sheet.text.toList <;> rfl

/-- A sheet gives a line for a name exactly if it is the first that has the quoted name. -/
theorem lineOf_eq_iff (valid : isValidName name = true) {line : Nat} (positive : 0 < line) :
    sheet.lineOf name = line ↔ IsFirstQuoted sheet.text.toList name line := by
  rw [lineOf_eq valid]
  cases found : Text.find? (quoted name) sheet.text.toList with
  | none =>
    refine iff_of_false (fun same => absurd same positive.ne) fun isFirst => ?_
    obtain ⟨place, stands, -⟩ := isFirst.here
    obtain ⟨first, isFound⟩ := Text.exists_find?_of_prefix stands
    rw [found] at isFound
    cases isFound
  | some first =>
    have stands : Text.StandsAt (quoted name) first sheet.text.toList := Text.prefix_of_find? found
    have isFirst : IsFirstQuoted sheet.text.toList name (lineAt sheet.text.toList first) :=
      ⟨⟨first, stands, rfl⟩, fun place later => lineAt_mono _ <| Nat.le_of_not_lt fun earlier =>
        Text.not_prefix_of_find? found earlier later⟩
    constructor
    · rintro rfl
      exact isFirst
    · intro other
      obtain ⟨place, standsThere, rfl⟩ := other.here
      exact Nat.le_antisymm (isFirst.first place standsThere) (other.first first stands)

/-- The key of every entry stands somewhere in the text of the sheet, and the line that the sheet gives
    for the name is the line of the key exactly if that is the first line with the quoted name.  For a
    key without escapes it gives a line at least, which is not below that of the key. -/
theorem lineOf_eq_lineAt_iff (accepted : (read uri text).outcome = .ok (some sheet))
    (member : (name, entry) ∈ sheet.entries) :
    (∃ place, IsKeyPlace text.toList name place) ∧
      ∀ place, IsKeyPlace text.toList name place →
        (sheet.lineOf name = lineAt text.toList place ↔
          IsFirstQuoted text.toList name (lineAt text.toList place)) ∧
        (Text.StandsAt (quoted name) place text.toList →
          0 < sheet.lineOf name ∧ sheet.lineOf name ≤ lineAt text.toList place) := by
  obtain ⟨content, declared, -, -, rfl, entries⟩ := exists_of_outcome_read accepted
  obtain ⟨-, valid⟩ := declared_of_mem (entries ▸ member)
  refine ⟨exists_isKeyPlace accepted member, fun place _ => ?_⟩
  have positive (other : Nat) : 0 < lineAt sheet.text.toList other := Nat.succ_pos _
  refine ⟨lineOf_eq_iff valid (positive place), fun stands => ?_⟩
  obtain ⟨first, found⟩ := Text.exists_find?_of_prefix stands
  have isFirst := (lineOf_eq_iff valid (positive first)).mp (by rw [lineOf_eq valid, found]; rfl)
  rw [lineOf_eq valid, found]
  exact ⟨positive first, isFirst.first place stands⟩

theorem lineOf_eq_lineAt_iff_second :
    ∃ sheet, (read "file:///r/.acp.vars.json"
        "\x7b\"other\": \"SYM_B\",\n\"variables\": \x7b\"SYM_A\": 1\x7d\x7d").outcome = .ok (some sheet) ∧
      sheet.lineOf "SYM_A" = 2 ∧ ∃ place, IsKeyPlace sheet.text.toList "SYM_A" place ∧
        (2 = lineAt sheet.text.toList place ↔
          IsFirstQuoted sheet.text.toList "SYM_A" (lineAt sheet.text.toList place)) := by
  let sheet : Sheet :=
    { uri := "file:///r/.acp.vars.json", name := ".acp.vars.json"
      text := "\x7b\"other\": \"SYM_B\",\n\"variables\": \x7b\"SYM_A\": 1\x7d\x7d"
      entries := [("SYM_A", { value := "1" })] }
  have accepted : (read sheet.uri sheet.text).outcome = .ok (some sheet) := by decide +kernel
  obtain ⟨⟨place, isPlace⟩, gives⟩ := lineOf_eq_lineAt_iff accepted List.mem_cons_self
  have second : sheet.lineOf "SYM_A" = 2 := by decide +kernel
  exact ⟨sheet, accepted, second, place, isPlace, second ▸ (gives place isPlace).1⟩

-- The name is also the key of something else, one line above the declaration.
example : (Sheet.mk "" "" "\x7b\"other\": \x7b\"SYM_A\": 1\x7d,\n\"variables\": \x7b\"SYM_A\": 1\x7d\x7d"
    []).lineOf "SYM_A" = 1 := by decide +kernel

-- A key that is written with an escape is not found at all.
example : (Sheet.mk "" "" "\x7b\"variables\": \x7b\"SYM\\u005fA\": 1\x7d\x7d" []).lineOf "SYM_A" = 0 := by
  decide +kernel

end Marginalia.Sheet
