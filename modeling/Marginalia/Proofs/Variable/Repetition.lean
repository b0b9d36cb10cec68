import Marginalia.Proofs.Variable.Declaration
import Marginalia.Proofs.Variable.Listing

/-!
# Repeated declarations

A name that several sheets declare is looked for from either end of the sheets, and reported with those
that declare it.  The three agree: a name is reported exactly if the precedence decides which sheet it is
taken from.
-/

namespace Marginalia

/-- The first and the last entry of a list differ in a mark that no two entries share exactly if there
    are several entries. -/
theorem one_lt_length_iff {α β : Type} {mark : α → β} {list : List α}
    (distinct : (list.map mark).Nodup) : 1 < list.length ↔
      ∃ first last, list.head? = some first ∧ list.getLast? = some last ∧ mark first ≠ mark last := by
  rcases list with _ | ⟨first, _ | ⟨next, rest⟩⟩
  · simp
  · simp
  · obtain ⟨last, isLast⟩ : ∃ last, (next :: rest).getLast? = some last :=
      Option.isSome_iff_exists.mp (by simp)
    have apart : mark first ≠ mark last := by
      rw [List.map_cons, List.nodup_cons] at distinct
      exact fun same => distinct.1 (same ▸ List.mem_map_of_mem (List.mem_of_getLast? isLast))
    refine iff_of_true (by simp) ⟨first, last, rfl, ?_, apart⟩
    rw [List.getLast?_cons_cons, isLast]

namespace Catalogue

/-- The catalogue with its sheets under another precedence. -/
def under (catalogue : Catalogue) (precedence : Precedence) : Catalogue :=
  { catalogue with precedence }

/-- The sheets that declare a name, each with its entry for the name. -/
def holders (catalogue : Catalogue) (name : String) : List (Entry × Sheet) :=
  catalogue.sheets.filterMap fun sheet => (sheet.entries.lookup name).map (·, sheet)

variable {catalogue : Catalogue} {name : String}

/-! ## Looking a name up -/

theorem lookup_under_first : (catalogue.under .first).lookup name = (catalogue.holders name).head? := by
  rw [holders, List.head?_filterMap]
  rfl

theorem lookup_under_last : (catalogue.under .last).lookup name = (catalogue.holders name).getLast? := by
  rw [holders, List.getLast?_filterMap]
  rfl

theorem map_snd_holders : (catalogue.holders name).map Prod.snd =
    catalogue.sheets.filter fun sheet => name ∈ sheet.entries.map Prod.fst := by
  rw [holders, List.map_filterMap, ← List.filterMap_eq_filter]
  apply List.filterMap_congr
  intro sheet _
  have declares : (sheet.entries.lookup name).isSome = true ↔ name ∈ sheet.entries.map Prod.fst :=
    Ordered.isSome_lookup_iff
  cases found : sheet.entries.lookup name with
  | none =>
    have absent : name ∉ sheet.entries.map Prod.fst := fun member => by
      simpa [found] using declares.mpr member
    simp [Option.guard, absent]
  | some entry =>
    have member := declares.mp (found ▸ rfl)
    simp [Option.guard, member]

theorem holders_eq_nil_iff : catalogue.holders name = [] ↔ catalogue.declares name = false := by
  simp only [holders, declares, List.filterMap_eq_nil_iff, List.any_eq_false, Option.map_eq_none_iff,
    Bool.not_eq_true, Option.isSome_eq_false_iff, Option.isNone_iff_eq_none]

/-! ## Reporting it -/

theorem sheetsDeclaring_eq (keys : ∀ sheet ∈ catalogue.sheets, (sheet.entries.map Prod.fst).Nodup) :
    catalogue.sheetsDeclaring name = (catalogue.holders name).map fun holder => holder.2.name := by
  rw [sheetsDeclaring, declarations, holders, List.filter_flatMap, List.map_flatMap,
    List.map_filterMap, List.filterMap_eq_flatMap_toList]
  apply List.flatMap_congr
  intro sheet member
  have own := Ordered.filter_key (keys sheet member) name
  rw [List.filter_map, List.map_map]
  change (sheet.entries.filter fun entry => entry.1 = name).map _ = _
  rw [own]
  cases sheet.entries.lookup name <;> rfl

theorem mem_repeated_iff {names : List String} : (name, names) ∈ catalogue.repeated ↔
    names = catalogue.sheetsDeclaring name ∧ 1 < names.length := by
  rw [repeated, List.mem_filter, List.mem_map, decide_eq_true_eq]
  constructor
  · rintro ⟨⟨_, -, same⟩, several⟩
    cases same
    exact ⟨rfl, several⟩
  · rintro ⟨rfl, several⟩
    refine ⟨⟨name, ?_, rfl⟩, several⟩
    obtain ⟨declared, member⟩ := List.exists_mem_of_length_pos (Nat.lt_of_succ_lt several)
    obtain ⟨declaration, isOfName, -⟩ := List.mem_map.mp member
    obtain ⟨among, isName⟩ := List.mem_filter.mp isOfName
    rw [names, List.mem_eraseDups]
    exact List.mem_map.mpr ⟨declaration, among, of_decide_eq_true isName⟩

theorem mem_map_fst_repeated : name ∈ catalogue.repeated.map Prod.fst ↔
    1 < (catalogue.sheetsDeclaring name).length := by
  rw [List.mem_map]
  constructor
  · rintro ⟨⟨_, sheets⟩, member, rfl⟩
    obtain ⟨rfl, several⟩ := mem_repeated_iff.mp member
    exact several
  · exact fun several => ⟨_, mem_repeated_iff.mpr ⟨rfl, several⟩, rfl⟩

theorem nodup_map_fst_repeated (catalogue : Catalogue) : (catalogue.repeated.map Prod.fst).Nodup := by
  have kept := (List.filter_sublist (l := catalogue.names.map fun name =>
    (name, catalogue.sheetsDeclaring name)) (p := fun entry => 1 < entry.2.length)).map Prod.fst
  rw [List.map_map, show Prod.fst ∘ (fun name => (name, catalogue.sheetsDeclaring name)) = id from rfl,
    List.map_id] at kept
  exact (nodup_eraseDups _).sublist kept

/-- What a catalogue says of a name, from either end of its sheets and in its report of repeated names.
    A name is reported exactly if the precedence decides which sheet it is taken from, and then once, with
    all the sheets that declare it in their order.  The latter precedence is the former one on the sheets
    from behind, and under neither is anything found exactly if no sheet declares the name. -/
structure TellsRepetition (catalogue : Catalogue) (name : String) : Prop where
  reported : name ∈ catalogue.repeated.map Prod.fst ↔ ∃ former latter,
    (catalogue.under .first).lookup name = some former ∧
      (catalogue.under .last).lookup name = some latter ∧ former.2.uri ≠ latter.2.uri
  once : (catalogue.repeated.map Prod.fst).Nodup
  sheets : ∀ names, (name, names) ∈ catalogue.repeated → names = (catalogue.sheets.filter fun sheet =>
    name ∈ sheet.entries.map Prod.fst).map Sheet.name
  mirrored : (catalogue.under .last).lookup name =
    ({ catalogue with sheets := catalogue.sheets.reverse }.under .first).lookup name
  undefined : ∀ precedence,
    (catalogue.under precedence).lookup name = none ↔ catalogue.declares name = false

/-- Sheets of different documents, each with one entry for each of its names, are reported exactly
    where the precedence matters. -/
theorem tellsRepetition_of_distinct (uris : (catalogue.sheets.map Sheet.uri).Nodup)
    (keys : ∀ sheet ∈ catalogue.sheets, (sheet.entries.map Prod.fst).Nodup) (name : String) :
    catalogue.TellsRepetition name := by
  have shown : catalogue.sheetsDeclaring name = ((catalogue.holders name).map Prod.snd).map Sheet.name := by
    rw [sheetsDeclaring_eq keys, List.map_map]
    rfl
  constructor
  case reported =>
    have distinct : ((catalogue.holders name).map fun holder => holder.2.uri).Nodup := by
      have kept := (List.filter_sublist (l := catalogue.sheets)
        (p := fun sheet => name ∈ sheet.entries.map Prod.fst)).map Sheet.uri
      rw [← map_snd_holders, List.map_map] at kept
      exact uris.sublist kept
    rw [mem_map_fst_repeated, shown, List.length_map, List.length_map, lookup_under_first,
      lookup_under_last]
    exact one_lt_length_iff distinct
  case once => exact nodup_map_fst_repeated catalogue
  case sheets =>
    intro names member
    rw [(mem_repeated_iff.mp member).1, shown, map_snd_holders]
  case mirrored => rfl
  case undefined =>
    intro precedence
    rw [← holders_eq_nil_iff]
    cases precedence with
    | first => rw [lookup_under_first, List.head?_eq_none_iff]
    | last => rw [lookup_under_last, List.getLast?_eq_none_iff]

-- Of three sheets the outer ones declare the same name; all have the same name themselves.
theorem tellsRepetition_of_distinct_three :
    let sheet := fun (uri : String) (entries : List (String × Entry)) =>
      (⟨uri, "acp.vars.json", "", entries⟩ : Sheet)
    let catalogue : Catalogue := { sheets := [
      sheet "file:///a/acp.vars.json" [("HOST", { value := "h" }), ("USER", { value := "ann" })],
      sheet "file:///b/acp.vars.json" [("PORT", { value := "1" })],
      sheet "file:///c/acp.vars.json" [("USER", { value := "bob" })]] }
    ((catalogue.sheets.map Sheet.uri).Nodup ∧
      ∀ sheet ∈ catalogue.sheets, (sheet.entries.map Prod.fst).Nodup) ∧
    catalogue.repeated = [("USER", ["acp.vars.json", "acp.vars.json"])] ∧
      ∀ name, catalogue.TellsRepetition name := by
  intro sheet catalogue
  have uris : (catalogue.sheets.map Sheet.uri).Nodup := by decide +kernel
  have keys : ∀ sheet ∈ catalogue.sheets, (sheet.entries.map Prod.fst).Nodup := by decide +kernel
  exact ⟨⟨uris, keys⟩, by decide +kernel, tellsRepetition_of_distinct uris keys⟩

end Catalogue

end Marginalia
