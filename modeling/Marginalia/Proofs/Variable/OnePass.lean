import Marginalia.Proofs.Text.NulFree
import Marginalia.Proofs.Variable.Nesting

/-!
# Expansion of texts without the mark

The mark for doubled dollar signs needs a character that nobody writes.  Where neither a text nor the
declarations nor the place of the request have it, no rendering has it either, on any level of
nesting; and then the expansion of the text is one pass over it.
-/

namespace Marginalia

theorem IsWrittenName.nulFree {name : String} (written : IsWrittenName name.toList) : NulFree name :=
  written.notMem rfl

structure Surroundings.NulFree (place : Surroundings) : Prop where
  file : ∀ text, place.file = some text → Marginalia.NulFree text
  function : ∀ text, place.function = some text → Marginalia.NulFree text
  className : ∀ text, place.className = some text → Marginalia.NulFree text
  module : ∀ text, place.module = some text → Marginalia.NulFree text

/-- The value and the description of a declaration are free of the character with code zero. -/
structure Entry.NulFree (entry : Entry) : Prop where
  value : Marginalia.NulFree entry.value
  description : ∀ text, entry.description = some text → Marginalia.NulFree text

/-- All declarations of a catalogue, also those that do not count, are free of the character with code
    zero. -/
def Catalogue.NulFree (catalogue : Catalogue) : Prop :=
  ∀ sheet ∈ catalogue.sheets, ∀ declared ∈ sheet.entries, declared.2.NulFree

/-! ## Renderings of a variable -/

theorem nulFree_of_nonempty? {text : Option String} {kept : String}
    (free : ∀ whole, text = some whole → NulFree whole) (found : nonempty? text = some kept) :
    NulFree kept :=
  free kept (Option.filter_eq_some_iff.mp found).1

namespace Variable

variable {found : Variable}

theorem nulFree_summary (valueFree : NulFree found.value)
    (descriptionFree : ∀ text, found.description = some text → NulFree text) :
    NulFree found.summary := by
  rw [summary]
  cases kept : nonempty? found.description with
  | none => exact valueFree
  | some text => exact nulFree_of_nonempty? descriptionFree kept

theorem nulFree_reference (nameFree : NulFree found.name) (valueFree : NulFree found.value) :
    NulFree found.reference := by
  unfold reference referenceTo
  split
  · split
    · exact (nulFree_append _ _).mpr ⟨by decide, nameFree⟩
    · exact (nulFree_append _ _).mpr ⟨by decide, nameFree⟩
  · exact valueFree
  · exact (nulFree_append _ _).mpr ⟨by decide, valueFree⟩
  · exact (nulFree_append _ _).mpr ⟨by decide, nameFree⟩

theorem nulFree_full (found : Variable) : NulFree (Json.write found.full) :=
  Json.nulFree_write_table found.members

theorem nulFree_render (found : Variable) (nameFree : NulFree found.name)
    (valueFree : NulFree found.value)
    (descriptionFree : ∀ text, found.description = some text → NulFree text)
    (modifier : Option Modifier) : NulFree (found.render modifier) := by
  cases modifier with
  | none => exact valueFree
  | some modifier =>
    cases modifier with
    | full => exact nulFree_full found
    | ref => exact nulFree_reference nameFree valueFree
    | signature =>
      rw [render]
      cases kept : nonempty? found.signature with
      | none => exact nulFree_summary valueFree descriptionFree
      | some text =>
        refine nulFree_of_nonempty? (fun whole signed => ?_) kept
        rw [signature] at signed
        split at signed
        · exact Option.some.inj signed ▸ valueFree
        · cases signed

theorem nulFree_ofBuiltin (builtin : Builtin) (place : Option Surroundings)
    (placeFree : ∀ known, place = some known → known.NulFree) :
    NulFree (ofBuiltin builtin place).value := by
  have sampleFree : NulFree builtin.sample := by cases builtin <;> decide
  rw [ofBuiltin]
  cases place with
  | none => exact sampleFree
  | some known =>
    have free := placeFree known rfl
    cases value : known.valueOf builtin with
    | none => simpa [value] using sampleFree
    | some text =>
      simp only [Option.bind_some, value, Option.getD_some]
      cases builtin with
      | file => exact free.file text value
      | line =>
        obtain ⟨line, _, rfl⟩ := Option.map_eq_some_iff.mp value
        exact nulFree_toString_int line
      | function => exact free.function text value
      | className => exact free.className text value
      | module => exact free.module text value

theorem nulFree_render_ofBuiltin (builtin : Builtin) (place : Option Surroundings)
    (placeFree : ∀ known, place = some known → known.NulFree) (modifier : Option Modifier) :
    NulFree ((ofBuiltin builtin place).render modifier) := by
  have nameFree : NulFree builtin.name := by cases builtin <;> decide
  have descriptionFree : NulFree builtin.description := by cases builtin <;> decide +kernel
  refine nulFree_render _ nameFree (nulFree_ofBuiltin builtin place placeFree) ?_ modifier
  intro text same
  rwa [← Option.some.inj same]

end Variable

/-! ## Outcomes as they are shown -/

namespace Failure

/-- The texts that the wording of a failure shows. -/
def mentioned : Failure → List String
  | .invalidName text | .invalidModifier text | .undefined text _ => [text]
  | .circular chain => chain
  | .tooDeep .. => []

theorem nulFree_message {failure : Failure} (free : ∀ text ∈ failure.mentioned, NulFree text) :
    NulFree failure.message := by
  cases failure with
  | invalidName name =>
    have nameFree := free name List.mem_cons_self
    unfold message
    simp only [nulFree_append, nulFree_toString]
    exact ⟨⟨⟨by decide, nameFree⟩, by decide⟩, by decide⟩
  | invalidModifier word =>
    have wordFree := free word List.mem_cons_self
    unfold message
    simp only [nulFree_append, nulFree_toString]
    exact ⟨⟨⟨by decide, wordFree⟩, by decide⟩, nulFree_intercalate (by decide) (by decide)⟩
  | circular chain =>
    unfold message
    simp only [nulFree_append]
    exact ⟨by decide, nulFree_intercalate (by decide) free⟩
  | tooDeep limit chain =>
    unfold message
    simp only [nulFree_append, nulFree_toString]
    exact ⟨⟨by decide, nulFree_toString_int limit⟩, by decide⟩
  | undefined name chain =>
    have nameFree := free name List.mem_cons_self
    unfold message
    simp only [nulFree_append, nulFree_toString]
    exact ⟨⟨by decide, nameFree⟩, by decide⟩

theorem nulFree_marker {failure : Failure} (free : ∀ text ∈ failure.mentioned, NulFree text) :
    NulFree failure.marker := by
  unfold marker
  simp only [nulFree_append, nulFree_toString]
  exact ⟨⟨by decide, nulFree_message free⟩, by decide⟩

end Failure

theorem nulFree_of_mem_mentionsIn {text : List Char} {mention : String × Option String}
    (member : mention ∈ mentionsIn text) :
    NulFree mention.1 ∧ ∀ word, mention.2 = some word → NulFree word := by
  obtain ⟨nameWritten, modifierWritten⟩ := written_of_mem_mentionsIn member
  exact ⟨nameWritten.nulFree, fun word same => (modifierWritten word same).nulFree⟩

/-- An expanded value is free of the character with code zero where the value is and everything that
    is put in. -/
theorem nulFree_of_expandValue (outcome : String → Option String → Except Failure Resolved)
    {value expanded : String} (valueFree : NulFree value)
    (answersFree : ∀ mention ∈ mentionsIn value.toList, NulFree (shown (outcome mention.1 mention.2)))
    (expansion : expandValue (fun reference =>
      Resolved.rendered <$> outcome reference.name reference.modifier) value = .ok expanded) :
    NulFree expanded := by
  have answers : ∀ mention ∈ mentionsIn value.toList,
      Resolved.rendered <$> outcome mention.1 mention.2 =
        .ok (shown (outcome mention.1 mention.2)) := by
    intro mention member
    obtain ⟨resolved, succeeds⟩ := resolved_of_expandValue outcome expansion mention member
    rw [succeeds]
    rfl
  have onePass := expandValue_eq_substitute (fun name modifier =>
    Resolved.rendered <$> outcome name modifier) value (fun name modifier =>
    shown (outcome name modifier)) valueFree answers answersFree
  obtain rfl := Except.ok.inj (expansion.symm.trans onePass)
  rw [nulFree_ofList]
  intro member
  rcases mem_substitute member with inDollar | inValue | ⟨mention, mentioned, inAnswer⟩
  · exact absurd inDollar (by decide)
  · exact valueFree inValue
  · exact answersFree mention mentioned inAnswer

namespace Scope

variable {scope : Scope} {trail : List String} {name : String} {modifier : Option String}

/-- What a name is resolved to is free of the character with code zero: so is what is put into its
    value for each reference, and hence so is the expanded value. -/
theorem nulFree_of_resolveFrom_ok (scope : Scope) (catalogueFree : scope.catalogue.NulFree)
    (placeFree : ∀ known, scope.place = some known → known.NulFree) {room : Nat}
    (nameFree : NulFree name) {resolved : Resolved}
    (succeeds : (scope.resolveFrom room trail name modifier).outcome = .ok resolved) :
    NulFree resolved.rendered := by
  induction room using Nat.strongRecOn generalizing trail name modifier resolved with
  | ind room ih =>
    obtain ⟨read, less, rfl, _, found⟩ := resolveFrom_eq_ok_iff.mp succeeds
    rcases found with ⟨builtin, builtinFound, rfl⟩ |
      ⟨_, entry, sheet, expanded, declaration, expansion, rfl⟩
    · exact Variable.nulFree_render_ofBuiltin builtin scope.place placeFree read
    · obtain ⟨sheetMember, entryMember⟩ := Catalogue.mem_of_lookup declaration
      have entryFree := catalogueFree sheet sheetMember _ entryMember
      -- The references in the value are resolved with less room, so what is put in has none.
      let outcome := fun mentioned word =>
        (scope.resolveFrom less (trail ++ [name]) mentioned word).outcome
      have answersFree : ∀ mention ∈ mentionsIn entry.value.toList,
          NulFree (shown (outcome mention.1 mention.2)) := by
        intro mention member
        obtain ⟨inner, innerSucceeds⟩ := resolved_of_expandValue outcome expansion mention member
        have innerFree : NulFree inner.rendered :=
          ih less (Nat.lt_succ_self less) (nulFree_of_mem_mentionsIn member).1 innerSucceeds
        rw [innerSucceeds]
        exact innerFree
      have expandedFree : NulFree expanded :=
        nulFree_of_expandValue outcome entryFree.value answersFree expansion
      exact Variable.nulFree_render (declared name expanded entry sheet) nameFree
        expandedFree entryFree.description read

/-- A failure to resolve a name shows names and modifiers as they are written in values and on the
    trail. -/
theorem nulFree_of_resolveFrom_error {room : Nat} (trailFree : ∀ other ∈ trail, NulFree other)
    (nameFree : NulFree name) (modifierFree : ∀ word, modifier = some word → NulFree word)
    {failure : Failure}
    (fails : (scope.resolveFrom room trail name modifier).outcome = .error failure) :
    ∀ text ∈ failure.mentioned, NulFree text := by
  induction room using Nat.strongRecOn generalizing trail name modifier with
  | ind room ih =>
    have openFree : ∀ other ∈ trail ++ [name], NulFree other := by
      intro other member
      rcases List.mem_append.mp member with before | last
      · exact trailFree other before
      · exact List.mem_singleton.mp last ▸ nameFree
    rcases resolveFrom_error fails with
      own | ⟨less, entry, sheet, front, reference, back, rfl, _, _, _, split, _, nested⟩
    · cases own with
      | checked refused =>
        rcases vet_error refused with rfl | ⟨word, same, rfl⟩ | ⟨_, rfl⟩
        · exact List.forall_mem_singleton.mpr nameFree
        · exact List.forall_mem_singleton.mpr (modifierFree word same)
        · exact openFree
      | tooDeep => exact fun _ member => absurd member List.not_mem_nil
      | undefined => exact List.forall_mem_singleton.mpr nameFree
    · -- The failure is that of a reference, whose name and modifier are written in the value.
      have member : reference ∈ referencesIn entry.value.toList :=
        split ▸ List.mem_append_right _ List.mem_cons_self
      obtain ⟨innerFree, wordFree⟩ := nulFree_of_mem_mentionsIn (List.mem_map_of_mem member)
      exact ih less (Nat.lt_succ_self less) openFree innerFree wordFree nested

end Scope

/-! ## Expansion of a text -/

namespace Request

variable {request : Request} {catalogue : Catalogue}

/-- The text that stands for a well written reference on an empty trail is free of the character with
    code zero, also where it is the marker of a failure. -/
theorem nulFree_render (catalogueFree : catalogue.NulFree)
    (placeFree : ∀ known, request.place = some known → known.NulFree) {name : String}
    {modifier : Option String} (nameFree : NulFree name)
    (modifierFree : ∀ word, modifier = some word → NulFree word) :
    NulFree (request.reset.render catalogue name modifier) := by
  rw [render]
  cases resolved : request.reset.resolve catalogue name modifier with
  | ok found =>
    exact (request.reset.scope catalogue).nulFree_of_resolveFrom_ok catalogueFree placeFree nameFree
      resolved
  | error failure =>
    have trailFree : ∀ other ∈ request.reset.trail, NulFree other :=
      fun _ member => absurd member List.not_mem_nil
    exact Failure.nulFree_marker
      (Scope.nulFree_of_resolveFrom_error trailFree nameFree modifierFree resolved)

/-- Expanding a text is one pass over it from left to right: two dollar signs become one, each
    reference becomes what it is resolved to on its own or the marker of its failure, and nothing that
    is put in is read again. -/
theorem expand_eq_substitute {text : String} (textFree : NulFree text)
    (catalogueFree : catalogue.NulFree)
    (placeFree : ∀ known, request.place = some known → known.NulFree) :
    request.expand catalogue text =
      String.ofList (substitute ['$'] (request.reset.render catalogue) text.toList) := by
  have answersFree : ∀ mention ∈ mentionsIn text.toList,
      '\x00' ∉ (request.reset.render catalogue mention.1 mention.2).toList := by
    intro mention member
    obtain ⟨nameFree, modifierFree⟩ := nulFree_of_mem_mentionsIn member
    exact nulFree_render catalogueFree placeFree nameFree modifierFree
  have onePass := @expandReferences_eq_substitute Id _ _
    (fun name modifier => pure (request.reset.render catalogue name modifier)) _ _ textFree
    (fun _ _ => rfl) answersFree
  rw [expand, onePass]
  rfl

theorem expand_eq_substitute_offer :
    let entries := [("PRICE", { value := "5$$" }), ("OFFER", { value := "$PRICE off" })]
    let catalogue : Catalogue := { sheets := [⟨"file:///s", "s", "", entries⟩] }
    let request : Request := ⟨10, none, []⟩
    let text := "$$PRICE: $OFFER $$$PRICE"
    (NulFree text ∧ catalogue.NulFree ∧
        ∀ known, request.place = some known → known.NulFree) ∧
      request.expand catalogue text =
        String.ofList (substitute ['$'] (request.reset.render catalogue) text.toList) ∧
      request.expand catalogue text = "$PRICE: 5$ off $5$" := by
  intro entries catalogue request text
  have textFree : NulFree text := by decide
  have catalogueFree : catalogue.NulFree := by
    intro sheet sheetMember declared member
    obtain rfl := List.mem_singleton.mp sheetMember
    obtain rfl | rfl : declared = _ ∨ declared = _ := by simpa [entries] using member
    · exact ⟨by decide, fun _ none => nomatch none⟩
    · exact ⟨by decide, fun _ none => nomatch none⟩
  have placeFree : ∀ known, request.place = some known → known.NulFree :=
    fun _ none => nomatch none
  refine ⟨⟨textFree, catalogueFree, placeFree⟩, ?_, by decide +kernel⟩
  exact expand_eq_substitute textFree catalogueFree placeFree

end Request

end Marginalia
