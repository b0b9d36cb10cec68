import Marginalia.Proofs.Document.Refresh
import Marginalia.Proofs.Json.Acceptance

/-!
# The declarations of a sheet

Which members of a sheet's table stand for variables, and for which, said without the reader: a member
needs a name that a variable may have, and a value that is a declaration.  A sheet gives exactly those, in
the order of the table, so what is wrong with one member is nothing to the others.  Only a text whose
values are nested too deep gives nothing at all.
-/

namespace Marginalia

namespace Entry

/-! ## What a declaration says -/

/-- The text form of a text, a number or a truth value. -/
inductive HasText : Value → String → Prop where
  | text (content : String) : HasText (.text content) content
  | torn (content : String) : HasText (.torn content) content
  | yes : HasText (.bool true) "true"
  | no : HasText (.bool false) "false"
  | int (number : Int) : HasText (.int number) (toString number)
  | float (number : Number.Binary64) : HasText (.float number) number.text

/-- What a table says of the kind: nothing, or the word for one. -/
inductive GivesKind : Option Value → Option VariableKind → Prop where
  | missing : GivesKind none none
  | null : GivesKind (some .null) none
  | word (kind : VariableKind) : GivesKind (some (.text kind.word)) (some kind)

/-- What a table says of the description: nothing, or some text. -/
inductive GivesDescription : Option Value → Option String → Prop where
  | missing : GivesDescription none none
  | null : GivesDescription (some .null) none
  | text (content : String) : GivesDescription (some (.text content)) (some content)
  | torn (content : String) : GivesDescription (some (.torn content)) (some content)

/-- A value declares a variable: as its value alone, or as a table with a value, which may tell its kind
    and its description too. -/
inductive IsDeclaredBy : Entry → Value → Prop where
  | alone {declared : Value} {value : String} (isText : HasText declared value) :
      IsDeclaredBy { value } declared
  | table {members : List (String × Value)} {given : Value} {kind : Option VariableKind}
      {value : String} {description : Option String} (givesKind : GivesKind (members.lookup "type") kind)
      (holds : members.lookup "value" = some given) (isText : HasText given value)
      (describes : GivesDescription (members.lookup "description") description) :
      IsDeclaredBy { kind, value, description } (.table members)

theorem scalarText?_eq_some_iff {value : Value} {text : String} :
    scalarText? value = some text ↔ HasText value text := by
  constructor
  · intro found
    cases value with
    | text content => exact Option.some.inj found ▸ .text content
    | torn content => exact Option.some.inj found ▸ .torn content
    | bool truth =>
      cases truth with
      | true => exact Option.some.inj found ▸ .yes
      | false => exact Option.some.inj found ▸ .no
    | int number => exact Option.some.inj found ▸ .int number
    | float number => exact Option.some.inj found ▸ .float number
    | null | list | table | moment => cases found
  · intro isText
    cases isText <;> rfl

theorem readKind_eq_ok_iff {given : Option Value} {kind : Option VariableKind} :
    readKind given = .ok kind ↔ GivesKind given kind := by
  constructor
  · intro found
    unfold readKind at found
    split at found
    next =>
      cases found
      exact .missing
    next =>
      cases found
      exact .null
    next word =>
      split at found
      next known =>
        cases found
        rw [← VariableKind.word_of_ofWord? known]
        exact .word _
      next => cases found
    next => cases found
    next => cases found
  · intro gives
    cases gives with
    | missing | null => rfl
    | word kind => rw [readKind, VariableKind.ofWord?_word]

theorem readValue_eq_ok_iff {given : Option Value} {text : String} :
    readValue given = .ok text ↔ ∃ value, given = some value ∧ HasText value text := by
  constructor
  · intro found
    unfold readValue at found
    split at found
    next => cases found
    next value =>
      split at found
      next isText =>
        cases found
        exact ⟨value, rfl, scalarText?_eq_some_iff.mp isText⟩
      next => cases found
  · rintro ⟨value, rfl, isText⟩
    rw [readValue, scalarText?_eq_some_iff.mpr isText]

theorem readDescription_eq_ok_iff {given : Option Value} {description : Option String} :
    readDescription given = .ok description ↔ GivesDescription given description := by
  constructor
  · intro found
    unfold readDescription at found
    split at found
    next =>
      cases found
      exact .missing
    next =>
      cases found
      exact .null
    next =>
      cases found
      exact .text _
    next =>
      cases found
      exact .torn _
    next => cases found
  · intro gives
    cases gives <;> rfl

theorem ofTable_eq_ok_iff {members : List (String × Value)} {entry : Entry} :
    ofTable members = .ok entry ↔ GivesKind (members.lookup "type") entry.kind ∧
      (∃ given, members.lookup "value" = some given ∧ HasText given entry.value) ∧
      GivesDescription (members.lookup "description") entry.description := by
  rw [← readKind_eq_ok_iff, ← readValue_eq_ok_iff, ← readDescription_eq_ok_iff]
  constructor
  · intro found
    obtain ⟨kind, readsKind, found⟩ := exists_of_bind_eq_ok found
    obtain ⟨value, readsValue, found⟩ := exists_of_bind_eq_ok found
    obtain ⟨description, readsDescription, found⟩ := exists_of_bind_eq_ok found
    cases found
    exact ⟨behindKey_eq_ok_iff.mp readsKind, behindKey_eq_ok_iff.mp readsValue,
      behindKey_eq_ok_iff.mp readsDescription⟩
  · rintro ⟨readsKind, readsValue, readsDescription⟩
    rw [ofTable, readsKind, readsValue, readsDescription]
    rfl

/-- What is read as a declaration is one, and the other way round. -/
theorem ofValue_eq_ok_iff {declared : Value} {entry : Entry} :
    ofValue declared = .ok entry ↔ entry.IsDeclaredBy declared := by
  constructor
  · intro found
    unfold ofValue at found
    split at found
    next isText =>
      cases found
      exact .alone (scalarText?_eq_some_iff.mp isText)
    next =>
      split at found
      next members =>
        obtain ⟨givesKind, ⟨given, holds, isText⟩, describes⟩ := ofTable_eq_ok_iff.mp found
        exact .table givesKind holds isText describes
      next => cases found
  · intro isDeclared
    cases isDeclared with
    | alone isText =>
      unfold ofValue
      rw [scalarText?_eq_some_iff.mpr isText]
    | table givesKind holds isText describes =>
      exact ofTable_eq_ok_iff.mpr ⟨givesKind, ⟨_, holds, isText⟩, describes⟩

end Entry

namespace Sheet

/-! ## Which members stand for variables -/

/-- A member of a sheet's table stands for a variable with an entry. -/
structure Stands (declared : String × Value) (entry : Entry) : Prop where
  name : isValidName declared.1 = true
  value : entry.IsDeclaredBy declared.2

/-- The entries of those members that stand for variables, in their order. -/
inductive Selects : List (String × Value) → List (String × Entry) → Prop where
  | nil : Selects [] []
  | keep {name : String} {value : Value} {entry : Entry} {declared : List (String × Value)}
      {entries : List (String × Entry)} (stands : Stands (name, value) entry)
      (rest : Selects declared entries) : Selects ((name, value) :: declared) ((name, entry) :: entries)
  | drop {member : String × Value} {declared : List (String × Value)}
      {entries : List (String × Entry)} (useless : ¬ ∃ entry, Stands member entry)
      (rest : Selects declared entries) : Selects (member :: declared) entries

/-- A text is a JSON object with a table of declarations. -/
def Holds (text : String) (declared : List (String × Value)) : Prop :=
  ∃ members, Json.IsText text.toList (.table members) ∧
    members.lookup "variables" = some (.table declared)

/-- The entry that a member of the table gives, if it can be used. -/
def entryOf? (uri : String) (declared : String × Value) : Option (String × Entry) :=
  (readEntry uri declared).toOption

theorem entryOf?_eq_some_iff {uri : String} {member : String × Value} {name : String} {entry : Entry} :
    entryOf? uri member = some (name, entry) ↔ name = member.1 ∧ Stands member entry := by
  unfold entryOf? readEntry
  constructor
  · intro found
    split at found
    next valid =>
      split at found
      next isEntry =>
        cases found
        exact ⟨rfl, valid, Entry.ofValue_eq_ok_iff.mp isEntry⟩
      next => cases found
    next => cases found
  · rintro ⟨rfl, stands⟩
    rw [if_pos stands.name, Entry.ofValue_eq_ok_iff.mpr stands.value]
    rfl

theorem entryOf?_eq_none_iff {uri : String} {member : String × Value} :
    entryOf? uri member = none ↔ ¬ ∃ entry, Stands member entry := by
  constructor
  · rintro nothing ⟨entry, stands⟩
    have found : entryOf? uri member = some (member.1, entry) :=
      entryOf?_eq_some_iff.mpr ⟨rfl, stands⟩
    rw [nothing] at found
    cases found
  · intro useless
    cases found : entryOf? uri member with
    | none => rfl
    | some entry => exact absurd ⟨entry.2, (entryOf?_eq_some_iff.mp found).2⟩ useless

theorem selects_filterMap (uri : String) (declared : List (String × Value)) :
    Selects declared (declared.filterMap (entryOf? uri)) := by
  induction declared with
  | nil => exact .nil
  | cons member rest ih =>
    cases found : entryOf? uri member with
    | none =>
      rw [List.filterMap_cons_none found]
      exact .drop (entryOf?_eq_none_iff.mp found) ih
    | some entry =>
      obtain ⟨same, stands⟩ := entryOf?_eq_some_iff.mp found
      rw [List.filterMap_cons_some found]
      obtain ⟨name, value⟩ := member
      obtain ⟨_, entry⟩ := entry
      cases same
      exact .keep stands ih

theorem declarations?_eq_some_iff {content : Value} {declared : List (String × Value)} :
    declarations? content = some declared ↔
      ∃ members, content = .table members ∧ members.lookup "variables" = some (.table declared) := by
  constructor
  · intro found
    unfold declarations? at found
    split at found
    next holds =>
      cases found
      cases content with
      | table members => exact ⟨members, rfl, holds⟩
      | _ => cases holds
    next => cases found
  · rintro ⟨members, rfl, holds⟩
    rw [declarations?, Value.get?, holds]

theorem readEntries_of_holds {text : String} {declared : List (String × Value)}
    (holds : Holds text declared) (fits : Json.nesting text.toList ≤ Json.depthLimit) (uri : String) :
    (readEntries uri text).outcome = .ok (some (declared.filterMap (entryOf? uri))) := by
  obtain ⟨members, isText, holds⟩ := holds
  rw [readEntries_of_ok (Json.read_eq_ok_iff.mpr ⟨isText, fits⟩),
    declarations?_eq_some_iff.mpr ⟨members, rfl, holds⟩]
  rfl

/-- What gives entries is a JSON object with a table of declarations. -/
theorem exists_holds_of_readEntries {uri text : String} {entries : List (String × Entry)}
    (found : (readEntries uri text).outcome = .ok (some entries)) : ∃ declared, Holds text declared := by
  cases read : Json.read text.toList with
  | error problem =>
    cases problem with
    | malformed complaint offset =>
      rw [readEntries_of_malformed read] at found
      cases found
    | longInteger | tooDeep =>
      rw [readEntries, read] at found
      cases found
  | ok content =>
    rw [readEntries_of_ok read, Except.ok.injEq, Option.map_eq_some_iff] at found
    obtain ⟨declared, declares, -⟩ := found
    obtain ⟨members, rfl, holds⟩ := declarations?_eq_some_iff.mp declares
    exact ⟨declared, members, (Json.read_eq_ok_iff.mp read).1, holds⟩

theorem readEntries_of_deep {text : String} {declared : List (String × Value)}
    (holds : Holds text declared) (deep : Json.depthLimit < Json.nesting text.toList) (uri : String) :
    ∃ container, (readEntries uri text).outcome = .error (.tooDeep (some container)) := by
  obtain ⟨members, isText, -⟩ := holds
  obtain ⟨container, found⟩ := isText.exists_tooDeep deep
  refine ⟨container, ?_⟩
  rw [readEntries, found]
  rfl

theorem nesting_le_of_readEntries {uri text : String} {declared : List (String × Value)}
    {entries? : Option (List (String × Entry))} (holds : Holds text declared)
    (found : (readEntries uri text).outcome = .ok entries?) :
    Json.nesting text.toList ≤ Json.depthLimit := by
  refine Nat.le_of_not_lt fun deep => ?_
  obtain ⟨container, fails⟩ := readEntries_of_deep holds deep uri
  rw [fails] at found
  cases found

/-- A sheet can be read exactly if its values are not nested too deep.  It then gives the members that
    stand for variables, in their order, and without a member that does not it gives the same. -/
theorem selects_of_readEntries {text : String} {declared : List (String × Value)}
    (holds : Holds text declared) (uri : String) :
    ((∃ entries, (readEntries uri text).outcome = .ok entries) ↔
      Json.nesting text.toList ≤ Json.depthLimit) ∧
    ∀ entries?, (readEntries uri text).outcome = .ok entries? → ∃ entries, entries? = some entries ∧
      Selects declared entries ∧
      ∀ front member back, declared = front ++ member :: back → (¬ ∃ entry, Stands member entry) →
        ∀ otherUri other, Holds other (front ++ back) → Json.nesting other.toList ≤ Json.depthLimit →
          (readEntries otherUri other).outcome = .ok (some entries) := by
  have readable : (∃ entries, (readEntries uri text).outcome = .ok entries) ↔
      Json.nesting text.toList ≤ Json.depthLimit :=
    ⟨fun ⟨_, found⟩ => nesting_le_of_readEntries holds found,
      fun fits => ⟨_, readEntries_of_holds holds fits uri⟩⟩
  refine ⟨readable, fun entries? found => ?_⟩
  rw [readEntries_of_holds holds (readable.mp ⟨_, found⟩) uri] at found
  cases found
  refine ⟨_, rfl, selects_filterMap uri declared, ?_⟩
  rintro front member back rfl useless otherUri other otherHolds fits
  have same : entryOf? otherUri = entryOf? uri := by
    funext other
    exact Option.ext fun entry => by
      rw [entryOf?_eq_some_iff, entryOf?_eq_some_iff]
  rw [readEntries_of_holds otherHolds fits, same, List.filterMap_append, List.filterMap_append,
    List.filterMap_cons_none (entryOf?_eq_none_iff.mpr useless)]

/-- A sheet with two variables, and between them a member that cannot be used. -/
theorem selects_of_readEntries_mixed :
    ∃ declared,
      Holds "\x7b\"variables\": \x7b\"A\": true, \"B\": [1], \"C\": \x7b\"value\": 2\x7d\x7d\x7d"
        declared ∧
      Selects declared [("A", { value := "true" }), ("C", { value := "2" })] := by
  let text := "\x7b\"variables\": \x7b\"A\": true, \"B\": [1], \"C\": \x7b\"value\": 2\x7d\x7d\x7d"
  have found : (readEntries "" text).outcome =
      .ok (some [("A", { value := "true" }), ("C", { value := "2" })]) := by decide +kernel
  obtain ⟨declared, holds⟩ := exists_holds_of_readEntries found
  obtain ⟨entries, isEntries, selects, -⟩ := (selects_of_readEntries holds "").2 _ found
  cases isEntries
  exact ⟨declared, holds, selects⟩

/-! ## Names of entries -/

theorem nodup_keys_of_holds {text : String} {declared : List (String × Value)}
    (holds : Holds text declared) : (declared.map Prod.fst).Nodup := by
  obtain ⟨members, ⟨_, _, _, -, -, -, spells⟩, filed⟩ := holds
  obtain ⟨written, -, rfl, areWritten⟩ :=
    Json.exists_members_of_spells spells (by rintro rfl; cases filed)
  obtain ⟨front, holder, back, rfl, -, holds, -⟩ := Json.exists_of_lookup_entriesOf filed
  have spellsHolder := (areWritten holder (by simp)).spelled
  rw [holds] at spellsHolder
  exact spellsHolder.nodup_keys

theorem map_fst_filterMap_entryOf? (uri : String) (declared : List (String × Value)) :
    ((declared.filterMap (entryOf? uri)).map Prod.fst).Sublist (declared.map Prod.fst) := by
  induction declared with
  | nil => exact List.Sublist.slnil
  | cons member rest ih =>
    rw [List.map_cons]
    cases found : entryOf? uri member with
    | none =>
      rw [List.filterMap_cons_none found]
      exact ih.cons _
    | some entry =>
      rw [List.filterMap_cons_some found, List.map_cons, (entryOf?_eq_some_iff.mp found).1]
      exact ih.cons_cons _

/-- A sheet has one entry for each of its names. -/
theorem nodup_keys_of_sheet? {patterns : List String} {document : Document} {sheet : Sheet}
    (isSheet : document.sheet? patterns = some sheet) : (sheet.entries.map Prod.fst).Nodup := by
  obtain ⟨declared, ⟨-, content, read, declares⟩, -, -, -, entries⟩ :=
    Document.sheet?_eq_some_iff.mp isSheet
  obtain ⟨members, rfl, filed⟩ := declarations?_eq_some_iff.mp declares
  have holds : Holds document.text declared := ⟨members, (Json.read_eq_ok_iff.mp read).1, filed⟩
  rw [entries]
  exact (nodup_keys_of_holds holds).sublist (map_fst_filterMap_entryOf? document.uri declared)

end Sheet

/-- After a refresh, every sheet has one entry for each of its names. -/
theorem Engine.nodup_keys_of_refresh {engine fresh : Engine} {disk : Disk}
    (ends : (engine.refresh disk).outcome = .ok fresh) :
    ∀ sheet ∈ fresh.catalogue.sheets, (sheet.entries.map Prod.fst).Nodup := by
  obtain ⟨⟨documents, rfl⟩, -⟩ := exists_fill_of_refresh ends
  intro sheet member
  obtain ⟨document, -, isSheet⟩ := List.mem_filterMap.mp member
  exact Sheet.nodup_keys_of_sheet? isSheet

end Marginalia
