import Marginalia.Proofs.Data.Along
import Marginalia.Proofs.Variable.Chain

/-!
# Listed, defined, resolved

Three ways to ask a catalogue for a name: whether any sheet declares it, what the listing says, and what
it comes to.  They look at the sheets in different orders, and agree: a name is listed exactly if it is
defined, once and at its first declaration, and then it is never itself what is undefined.
-/

namespace Marginalia

namespace Catalogue

variable {catalogue : Catalogue} {name : String}

/-! ## Declared names -/

theorem isSome_lookup_iff : (catalogue.lookup name).isSome = true ↔
    ∃ sheet ∈ catalogue.sheets, ∃ entry, (name, entry) ∈ sheet.entries := by
  simp [lookup, mem_ranked]

theorem declares_iff : catalogue.declares name = true ↔ (catalogue.lookup name).isSome = true := by
  rw [isSome_lookup_iff]
  simp [declares]

theorem mem_names : name ∈ catalogue.names ↔ (catalogue.lookup name).isSome = true := by
  rw [isSome_lookup_iff, names, List.mem_eraseDups]
  simp [declarations]

theorem isKnown_iff : catalogue.IsKnown name ↔
    ((Builtin.ofName? name).isSome || catalogue.declares name) = true := by
  rw [Bool.or_eq_true, declares_iff]
  rfl

/-! ## The listing -/

theorem map_name_filterMap_listed? {names : List String}
    (known : ∀ name ∈ names, (catalogue.lookup name).isSome = true) :
    (names.filterMap catalogue.listed?).map ListedVariable.name = names := by
  induction names with
  | nil => rfl
  | cons name rest ih =>
    obtain ⟨own, others⟩ := List.forall_mem_cons.mp known
    obtain ⟨declaration, found⟩ := Option.isSome_iff_exists.mp own
    rw [List.filterMap_cons, listed?, found]
    exact congrArg (name :: ·) (ih others)

/-- The declared names that a listing shows. -/
def listedNames (catalogue : Catalogue) : List String :=
  catalogue.names.filter fun name => (Builtin.ofName? name).isNone

theorem mem_listedNames : name ∈ catalogue.listedNames ↔
    Builtin.ofName? name = none ∧ (catalogue.lookup name).isSome = true := by
  rw [listedNames, List.mem_filter, mem_names, Option.isNone_iff_eq_none, and_comm]

theorem map_name_listing (catalogue : Catalogue) : catalogue.listing.map ListedVariable.name =
    Builtin.all.map Builtin.name ++ catalogue.listedNames := by
  have known : ∀ name ∈ catalogue.listedNames, (catalogue.lookup name).isSome = true :=
    fun name member => (mem_listedNames.mp member).2
  rw [listing, List.map_append, List.map_map]
  exact congrArg _ (map_name_filterMap_listed? known)

theorem mem_map_name_listing :
    name ∈ catalogue.listing.map ListedVariable.name ↔ catalogue.IsKnown name := by
  rw [map_name_listing, List.mem_append, mem_listedNames, IsKnown]
  have builtins : name ∈ Builtin.all.map Builtin.name ↔ (Builtin.ofName? name).isSome = true := by
    simp [Builtin.ofName?]
  rw [builtins]
  cases Builtin.ofName? name <;> simp

/-- How a listing is arranged, and what it shows of the declarations: of each declared name what the
    declaration says that counts. -/
structure IsListing (catalogue : Catalogue) (listing : List ListedVariable) : Prop where
  once : (listing.map ListedVariable.name).Nodup
  order : ∃ declared, listing = Builtin.all.map Builtin.listed ++ declared ∧
    (declared.map ListedVariable.name).Pairwise fun front back =>
      let names := catalogue.declarations.map Prod.fst
      names.idxOf front < names.idxOf back
  counts : ∀ listed ∈ listing, Builtin.ofName? listed.name = none → ∃ entry sheet,
    catalogue.lookup listed.name = some (entry, sheet) ∧
      listed = ⟨listed.name, entry.kindFor listed.name, entry.description, sheet.name⟩

theorem pairwise_listedNames (catalogue : Catalogue) :
    catalogue.listedNames.Pairwise fun front back =>
      (catalogue.declarations.map Prod.fst).idxOf front <
        (catalogue.declarations.map Prod.fst).idxOf back :=
  (pairwise_eraseDups _).filter _

theorem isListing_listing (catalogue : Catalogue) : catalogue.IsListing catalogue.listing where
  once := by
    rw [map_name_listing]
    apply List.nodup_append.mpr
    refine ⟨by decide, (pairwise_listedNames catalogue).imp ?_, ?_⟩
    · rintro front back before rfl
      exact Nat.lt_irrefl _ before
    · rintro name isBuiltin other isDeclared rfl
      obtain ⟨builtin, _, rfl⟩ := List.mem_map.mp isBuiltin
      have declared := (mem_listedNames.mp isDeclared).1
      rw [Builtin.ofName?_name] at declared
      cases declared
  order := by
    refine ⟨_, rfl, ?_⟩
    change (List.map ListedVariable.name (catalogue.listedNames.filterMap _)).Pairwise _
    rw [map_name_filterMap_listed? fun name member => (mem_listedNames.mp member).2]
    exact pairwise_listedNames catalogue
  counts := by
    intro listed member declared
    rcases List.mem_append.mp member with isBuiltin | isDeclared
    · obtain ⟨builtin, _, rfl⟩ := List.mem_map.mp isBuiltin
      cases builtin <;> cases declared
    · obtain ⟨name, _, shown⟩ := List.mem_filterMap.mp isDeclared
      obtain ⟨⟨entry, sheet⟩, found, rfl⟩ := Option.map_eq_some_iff.mp shown
      exact ⟨entry, sheet, found, rfl⟩

end Catalogue

/-! ## What a name comes to -/

/-- A variable as a listing shows it. -/
def Variable.listed (found : Variable) : ListedVariable :=
  ⟨found.name, found.kind, found.description, found.origin.word⟩

namespace Request

variable {catalogue : Catalogue} {name : String}

theorem listed_mem_listing {request : Request} {modifier : Option String} {resolved : Resolved}
    (succeeds : request.resolve catalogue name modifier = .ok resolved) :
    resolved.found.name = name ∧ resolved.found.listed ∈ catalogue.listing := by
  obtain ⟨read, less, _, _, origin⟩ := Scope.resolveFrom_eq_ok_iff.mp succeeds
  rcases origin with ⟨builtin, isBuiltin, rfl⟩ |
    ⟨declared, entry, sheet, expanded, found, _, rfl⟩
  · have spelled : builtin.name = name := by simpa using List.find?_some isBuiltin
    have member : builtin ∈ Builtin.all := List.mem_of_find?_eq_some isBuiltin
    exact ⟨spelled, List.mem_append_left _ (List.mem_map_of_mem member)⟩
  · refine ⟨rfl, List.mem_append_right _ (List.mem_filterMap.mpr ⟨name, ?_, ?_⟩)⟩
    · exact Catalogue.mem_listedNames.mpr ⟨declared, Option.isSome_iff_exists.mpr ⟨_, found⟩⟩
    · change catalogue.lookup name = some (entry, sheet) at found
      rw [Catalogue.listed?, found]
      rfl

/-- A name that may be one is itself reported as undefined exactly if it is unknown: where a name in
    its value is, the chain is longer. -/
theorem undefined_iff {limit : Int} (positive : 1 ≤ limit) (place : Option Surroundings)
    (valid : isValidName name = true) :
    (∃ failure, ({ limit, place } : Request).resolve catalogue name none = .error failure ∧
      failure.word = "undefined" ∧ failure.chain = [name]) ↔ ¬ catalogue.IsKnown name := by
  constructor
  · rintro ⟨failure, fails, undefined, chain⟩
    have leads : LeadsTo catalogue { limit, place } name name := leadsTo_self (by omega) place name
    obtain ⟨_, _, last, isLast, unknown⟩ :=
      ((comesUp_of_resolve fails).isGenuine leads).undefined undefined
    rw [chain] at isLast
    cases isLast
    exact unknown
  -- An unknown name passes the checks, and nothing is open in front of it.
  · intro unknown
    obtain ⟨less, roomy⟩ : ∃ less, ({ limit, place } : Request).room = less + 1 := by
      refine ⟨(limit - 1).toNat, ?_⟩
      simp only [room, List.length_nil]
      omega
    have passes : vet [] name none = .ok none := by
      simp [vet, valid, readModifier, Except.bind]
    simp only [Catalogue.IsKnown, not_or, Bool.not_eq_true, Option.isSome_eq_false_iff,
      Option.isNone_iff_eq_none] at unknown
    refine ⟨.undefined name [name], ?_, rfl, rfl⟩
    rw [resolve, resolution, roomy, Scope.outcome_resolveFrom_succ, passes]
    simp [Except.bind, scope, unknown]

end Request

/-! ## Three answers -/

/-- What is said of a name when it is looked for in a listing, asked for and resolved. -/
structure TellAlike (listing : List ListedVariable) (name : String) (defined : Bool)
    (outcome : Except Failure Resolved) : Prop where
  listed : name ∈ listing.map ListedVariable.name ↔ defined = true
  resolved : isValidName name = true → (defined = true ↔ ¬ ∃ failure,
    outcome = .error failure ∧ failure.word = "undefined" ∧ failure.chain = [name])
  invalid : isValidName name = false → defined = false
  found : ∀ resolved, outcome = .ok resolved →
    resolved.found.name = name ∧ resolved.found.listed ∈ listing

namespace Engine

theorem isValidName_of_isKnown {engine fresh : Engine} {disk : Disk} {name : String}
    (rebuilt : (engine.refresh disk).outcome = .ok fresh)
    (known : fresh.catalogue.IsKnown name) : isValidName name = true := by
  rcases known with isBuiltin | isDeclared
  · obtain ⟨builtin, found⟩ := Option.isSome_iff_exists.mp isBuiltin
    obtain rfl : builtin.name = name := by simpa using List.find?_some found
    cases builtin <;> decide
  · obtain ⟨⟨documents, rfl⟩, _⟩ := exists_fill_of_refresh rebuilt
    obtain ⟨sheet, member, entry, declared⟩ := Catalogue.isSome_lookup_iff.mp isDeclared
    obtain ⟨document, _, isSheet⟩ := List.mem_filterMap.mp member
    exact Document.isValidName_of_mem_entries isSheet declared

/-- After a refresh, an engine lists each variable once, by the declaration that counts, and what it
    says of any name is the same whether the name is listed, asked for or resolved. -/
theorem tellAlike_of_refresh {engine fresh : Engine} {disk : Disk}
    (rebuilt : (engine.refresh disk).outcome = .ok fresh)
    (positive : 1 ≤ engine.settings.depthLimit) :
    ∃ listing, (fresh.listVariables disk).outcome = .ok (fresh, listing) ∧
      fresh.catalogue.IsListing listing ∧ ∀ place name, ∃ defined outcome,
        (fresh.isDefined disk name).outcome = .ok (fresh, defined) ∧
        (fresh.resolve disk (fresh.request place) name none).outcome = .ok (fresh, outcome) ∧
        TellAlike listing name defined outcome := by
  obtain ⟨notStale, sameSettings⟩ := isFresh_of_refresh rebuilt
  refine ⟨_, outcome_listVariables_of_fresh notStale disk,
    Catalogue.isListing_listing fresh.catalogue, ?_⟩
  intro place name
  refine ⟨_, _, outcome_isDefined_of_fresh notStale disk name,
    outcome_resolve_of_fresh notStale disk _ name none, ?_⟩
  constructor
  case listed => rw [Catalogue.mem_map_name_listing, Catalogue.isKnown_iff]
  case resolved =>
    intro valid
    rw [← Catalogue.isKnown_iff, iff_not_comm]
    rw [← sameSettings] at positive
    exact Request.undefined_iff positive place valid
  case invalid =>
    intro isInvalid
    rw [← Bool.not_eq_true, ← Catalogue.isKnown_iff]
    intro known
    rw [isValidName_of_isKnown rebuilt known] at isInvalid
    cases isInvalid
  case found => exact fun resolved succeeds => Request.listed_mem_listing succeeds

-- Two sheets declare the same name and the latter one counts; one of the others is that of a built-in
-- variable, and one cannot be a name.
theorem tellAlike_of_refresh_twice :
    let former : Document := { uri := "file:///a/acp.vars.json", text := "\x7b\"variables\": "
      ++ "\x7b\"USER\": \x7b\"value\": \"ann\"\x7d, \"FILE\": \x7b\"value\": \"f\"\x7d\x7d\x7d" }
    let latter : Document := { uri := "file:///b/acp.vars.json", text := "\x7b\"variables\": "
      ++ "\x7b\"user\": \x7b\"value\": \"\"\x7d, \"USER\": \x7b\"value\": \"bob\"\x7d\x7d\x7d" }
    let library : Library :=
      .opened { documents := [(former.uri, former), (latter.uri, latter)] }
    let engine : Engine := ⟨{}, library, { precedence := .last }⟩
    let sheets : List Sheet := [⟨former.uri, "acp.vars.json", former.text,
        [("USER", { value := "ann" }), ("FILE", { value := "f" })]⟩,
      ⟨latter.uri, "acp.vars.json", latter.text, [("USER", { value := "bob" })]⟩]
    let fresh : Engine := ⟨{}, library, { precedence := .last, sheets, isStale := false }⟩
    ((engine.refresh {}).outcome = .ok fresh ∧ 1 ≤ engine.settings.depthLimit) ∧
      ∃ listing, (fresh.listVariables {}).outcome = .ok (fresh, listing) ∧
        fresh.catalogue.IsListing listing ∧ ∀ place name, ∃ defined outcome,
          (fresh.isDefined {} name).outcome = .ok (fresh, defined) ∧
          (fresh.resolve {} (fresh.request place) name none).outcome = .ok (fresh, outcome) ∧
          TellAlike listing name defined outcome := by
  intro former latter library engine sheets fresh
  have rebuilt : (engine.refresh {}).outcome = .ok fresh := by decide +kernel
  have positive : 1 ≤ engine.settings.depthLimit := by decide
  exact ⟨⟨rebuilt, positive⟩, tellAlike_of_refresh rebuilt positive⟩

end Engine

end Marginalia
