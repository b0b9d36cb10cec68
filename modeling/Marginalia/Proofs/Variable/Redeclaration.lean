import Marginalia.Proofs.Json.Printed
import Marginalia.Proofs.Variable.Declaration
import Marginalia.Proofs.Variable.DefinitionLine
import Marginalia.Proofs.Variable.Enclosing

/-!
# Declaring a variable again

The full rendering of a declared variable is itself a declaration: written into a sheet under the same
name it declares a variable with the expanded value, of the same kind and with the same description.
-/

namespace Marginalia

/-! ## A sheet with one variable -/

namespace Json

/-- Whether a character stands for itself in a string. -/
def isPlain (c : Char) : Bool :=
  c ≠ '"' && c ≠ '\\' && 0x20 ≤ c.toNat

theorem spellsBody_of_plain {text : List Char} (plain : text.all isPlain = true) :
    SpellsBody text (text.map some) := by
  induction text with
  | nil => exact .nil
  | cons c rest ih =>
    rw [List.all_cons, Bool.and_eq_true] at plain
    obtain ⟨isPlain, plain⟩ := plain
    simp only [Json.isPlain, Bool.and_eq_true, decide_eq_true_eq] at isPlain
    obtain ⟨⟨noQuote, noEscape⟩, noControl⟩ := isPlain
    exact .plain noQuote noEscape noControl (ih plain)

/-- A table with one member, on one line; its key is written without escapes. -/
def singleText (key : String) (written : List Char) : List Char :=
  '\x7b' :: (Sheet.quoted key ++ (':' :: ' ' :: written ++ ['\x7d']))

/-- The member of a table with one member. -/
def singleMember (key : String) (written : List Char) (value : Value) : Member where
  before := []
  literal := Sheet.quoted key
  gap := []
  key
  item := ⟨[' '], written, [], value⟩

section Single

variable {key : String} {written : List Char} {value : Value}

theorem singleText_eq : singleText key written = tableText [singleMember key written value] := by
  simp [singleText, tableText, singleMember, Member.text, Item.text]

theorem isWritten_singleMember (plain : key.toList.all isPlain = true) (spells : Spells written value) :
    (singleMember key written value).IsWritten where
  spaced :=
    { before := .nil
      literal := ⟨_, .quoted (spellsBody_of_plain plain), (contentOf_map_some key).symm⟩
      gap := .nil
      item := ⟨List.forall_mem_singleton.mpr (by decide), .nil⟩ }
  spelled := spells

theorem spells_singleText (plain : key.toList.all isPlain = true) (spells : Spells written value) :
    Spells (singleText key written) (.table [(key, value)]) :=
  singleText_eq ▸ .of_members (List.cons_ne_nil _ _)
    (List.forall_mem_singleton.mpr (isWritten_singleMember plain spells))

theorem nesting_singleText (plain : key.toList.all isPlain = true) (spells : Spells written value) :
    nesting (singleText key written) = nesting written + 1 := by
  have isWritten := List.forall_mem_singleton.mpr (isWritten_singleMember plain spells)
  rw [@singleText_eq key written value, nesting_tableText isWritten]
  simp [deepest, singleMember]

end Single

end Json

theorem isPlain_of_isValidName {name : String} (valid : isValidName name = true) :
    name.toList.all Json.isPlain = true := by
  refine List.all_eq_true.mpr fun c member => ?_
  have known := isUpper_or_of_mem valid member
  have apart : c ≠ '"' ∧ c ≠ '\\' := by
    constructor <;> (rintro rfl; exact absurd known (by decide))
  have least : 0x20 ≤ c.toNat := by
    simp only [Bool.or_eq_true, decide_eq_true_eq] at known
    rcases known with (isUpper | isDigit) | rfl
    · have bounds : 65 ≤ c.val ∧ c.val ≤ 90 := of_decide_eq_true isUpper
      exact (by decide : 0x20 ≤ 65).trans (UInt32.le_iff_toNat_le.mp bounds.1)
    · simp only [Char.isDigit, Bool.and_eq_true, decide_eq_true_eq] at isDigit
      exact (by decide : 0x20 ≤ 48).trans (UInt32.le_iff_toNat_le.mp isDigit.1)
    · decide
  simp [Json.isPlain, apart, least]

namespace Sheet

/-- The text of a sheet that declares nothing but one name, as some JSON text says. -/
def declaring (name written : String) : String :=
  String.ofList (Json.singleText "variables" (Json.singleText name written.toList))

theorem holds_declaring {name written : String} {value : Value} (valid : isValidName name = true)
    (spells : Json.Spells written.toList value) : Holds (declaring name written) [(name, value)] := by
  have inner := Json.spells_singleText (isPlain_of_isValidName valid) spells
  have plain : "variables".toList.all Json.isPlain = true := by decide
  have outer := Json.spells_singleText plain inner
  refine ⟨_, ⟨[], _, [], ?_, .nil, .nil, outer⟩, rfl⟩
  rw [declaring, String.toList_ofList, List.nil_append, List.append_nil]

theorem nesting_declaring {name written : String} {value : Value} (valid : isValidName name = true)
    (spells : Json.Spells written.toList value) :
    Json.nesting (declaring name written).toList = Json.nesting written.toList + 2 := by
  have plain := isPlain_of_isValidName valid
  rw [declaring, String.toList_ofList,
    Json.nesting_singleText (by decide) (Json.spells_singleText plain spells),
    Json.nesting_singleText plain spells]

/-- A JSON text declares a name: a sheet with nothing else in it has the one entry, and any sheet in
    which it stands for the name has the entry, too. -/
structure Declares (written name : String) (entry : Entry) : Prop where
  isText : ∃ value, Json.IsText written.toList value
  alone : ∀ uri, (readEntries uri (declaring name written)).outcome = .ok (some [(name, entry)])
  among : ∀ value, Json.IsText written.toList value → ∀ uri text declared entries?,
    Holds text declared → (name, value) ∈ declared → (readEntries uri text).outcome = .ok entries? →
      ∃ entries, entries? = some entries ∧ (name, entry) ∈ entries

theorem declares_of_spells {written name : String} {entry : Entry} {value : Value}
    (spells : Json.Spells written.toList value)
    (fits : Json.nesting written.toList + 2 ≤ Json.depthLimit) (stands : Stands (name, value) entry) :
    Declares written name entry := by
  have isText : Json.IsText written.toList value := ⟨[], _, [], by simp, .nil, .nil, spells⟩
  refine ⟨⟨value, isText⟩, fun uri => ?_, ?_⟩
  · have found := readEntries_of_holds (holds_declaring stands.name spells)
      (nesting_declaring stands.name spells ▸ fits) uri
    rw [List.filterMap_cons_some (entryOf?_eq_some_iff.mpr ⟨rfl, stands⟩)] at found
    exact found
  · intro other otherText uri text declared entries? holds among found
    have fits : Json.nesting written.toList ≤ Json.depthLimit := by omega
    have same : (.ok other : Except Json.Problem Value) = .ok value :=
      (Json.read_eq_ok_iff.mpr ⟨otherText, fits⟩).symm.trans (Json.read_eq_ok_iff.mpr ⟨isText, fits⟩)
    cases same
    rw [readEntries_of_holds holds (nesting_le_of_readEntries holds found) uri] at found
    cases found
    exact ⟨_, rfl, List.mem_filterMap.mpr ⟨_, among, entryOf?_eq_some_iff.mpr ⟨rfl, stands⟩⟩⟩

end Sheet

/-! ## The full rendering -/

namespace Variable

theorem nodup_members (found : Variable) : (found.members.map Prod.fst).Nodup := by
  unfold members
  cases found.origin with
  | builtin => exact (by decide : ["type", "name", "value", "description"].Nodup)
  | sheet =>
    cases nonempty? found.description with
    | none => exact (by decide : ["name", "type", "value"].Nodup)
    | some => exact (by decide : ["name", "type", "value", "description"].Nodup)

theorem spells_full (found : Variable) : Json.Spells (Json.write found.full).toList found.full :=
  Json.spells_write found.nodup_members

end Variable

namespace Scope

/-- The full rendering of a declared variable declares it with its expanded value. -/
theorem isDeclaredBy_full (name value : String) (entry : Entry) (sheet : Sheet) :
    ({ kind := some (entry.kindFor name), value, description := nonempty? entry.description } :
      Entry).IsDeclaredBy (declared name value entry sheet).full := by
  have members : (declared name value entry sheet).full = .table
      (("name", .text name) :: ("type", .text (entry.kindFor name).word) :: ("value", .text value) ::
        (nonempty? entry.description).toList.map fun description =>
          ("description", .text description)) := by
    rw [Variable.full, Variable.members, declared]
    cases nonempty? entry.description <;> rfl
  rw [members]
  refine .table (.word _) rfl (.text value) ?_
  cases nonempty? entry.description with
  | none => exact .missing
  | some description => exact .text description

end Scope

namespace Engine

/-- The full rendering of a declared variable is JSON, and as a declaration of the same name it stands
    for a variable with the expanded value, of the same kind and with the same description. -/
theorem declares_of_resolve_full {engine after : Engine} {disk : Disk} {request : Request}
    {name : String} {resolved : Resolved} (declared : Builtin.ofName? name = none)
    (ends : (engine.resolve disk request name (some "full")).outcome = .ok (after, .ok resolved)) :
    ∃ entry sheet again, after.catalogue.lookup name = some (entry, sheet) ∧
      Sheet.Declares resolved.rendered name again ∧
      (request.resolve after.catalogue name none).map Resolved.rendered = .ok again.value ∧
      again.kindFor name = entry.kindFor name ∧ again.description = nonempty? entry.description := by
  obtain ⟨-, succeeds⟩ := outcome_resolve ends
  -- Since no built-in variable has the name, the last step found an entry and expanded its value.
  obtain ⟨read, less, roomy, passes, origin⟩ := Scope.resolveFrom_eq_ok_iff.mp succeeds
  obtain ⟨⟨valid, -⟩, closed⟩ := (vet_ok_iff _ _ _).mp ⟨read, passes⟩
  rcases origin with ⟨builtin, isBuiltin, _⟩ | ⟨_, entry, sheet, expanded, found, expansion, rfl⟩
  · rw [declared] at isBuiltin
    cases isBuiltin
  have isFull : readModifier (some "full") = .ok (some .full) := by decide
  obtain rfl : some .full = read := Except.ok.inj (isFull.symm.trans (readModifier_of_vet passes))
  have spells := (Scope.declared name expanded entry sheet).spells_full
  have fits : Json.nesting (Json.write (Scope.declared name expanded entry sheet).full).toList ≤ 1 :=
    Json.nesting_write_le _
  -- Without the modifier the same checks pass, and the value is expanded in the same way.
  obtain ⟨plain, passesPlain⟩ := (vet_ok_iff request.trail name none).mpr ⟨⟨valid, .inl rfl⟩, closed⟩
  obtain rfl := read_of_vet_none passesPlain
  have value : request.resolve after.catalogue name none =
      .ok ((Scope.declared name expanded entry sheet).resolved none) :=
    Scope.resolveFrom_eq_ok_iff.mpr ⟨none, less, roomy, passesPlain,
      .inr ⟨declared, entry, sheet, expanded, found, expansion, rfl⟩⟩
  refine ⟨entry, sheet, _, found, Sheet.declares_of_spells spells ?_
    ⟨valid, Scope.isDeclaredBy_full name expanded entry sheet⟩, ?_, rfl, rfl⟩
  · exact (Nat.add_le_add_right fits 2).trans (by decide)
  · rw [value]
    rfl

-- The value has quotes, a line break and a letter beyond ASCII, some of them from another variable.
theorem declares_of_resolve_full_quoted :
    let entries := [("NAME", { value := "é\n" }),
      ("DOM_A", { value := "\"$NAME\"", description := some "d" })]
    let sheet : Sheet := ⟨"file:///s", "s", "", entries⟩
    let engine : Engine := ⟨{}, .opened {}, { sheets := [sheet], isStale := false }⟩
    let resolved : Resolved := ⟨⟨"DOM_A", .domain, "\"é\n\"", some "d", .sheet "s" 0⟩,
      "\x7b\n  \"name\": \"DOM_A\",\n  \"type\": \"domain\",\n  \"value\": \"\\\"\\u00e9\\n\\\"\"," ++
        "\n  \"description\": \"d\"\n\x7d"⟩
    (Builtin.ofName? "DOM_A" = none ∧ (engine.resolve {} (engine.request none) "DOM_A"
        (some "full")).outcome = .ok (engine, .ok resolved)) ∧
      ∃ again, Sheet.Declares resolved.rendered "DOM_A" again ∧ again.value = "\"é\n\"" ∧
        again.kindFor "DOM_A" = .domain ∧ again.description = some "d" := by
  intro entries sheet engine resolved
  have ends : (engine.resolve {} (engine.request none) "DOM_A" (some "full")).outcome =
      .ok (engine, .ok resolved) := by decide +kernel
  have value : ((engine.request none).resolve engine.catalogue "DOM_A" none).map Resolved.rendered =
      .ok "\"é\n\"" := by decide +kernel
  obtain ⟨entry, _, again, found, declares, sameValue, kind, description⟩ :=
    declares_of_resolve_full (by decide) ends
  have isEntry : (engine.catalogue.lookup "DOM_A").map Prod.fst =
      some { value := "\"$NAME\"", description := some "d" } := by decide +kernel
  rw [found] at isEntry
  cases isEntry
  exact ⟨⟨by decide, ends⟩, again, declares, Except.ok.inj (sameValue.symm.trans value), kind,
    description⟩

end Engine

end Marginalia
