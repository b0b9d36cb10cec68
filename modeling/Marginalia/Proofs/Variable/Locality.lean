import Marginalia.Proofs.Document.Refresh
import Marginalia.Proofs.Variable.Reachability

/-!
# What a resolution depends on

To resolve a name is to read the declarations that count for the names that it reaches, and of each of
them only its kind, its value and its description.  Catalogues that tell the same of these names lead
to the same text or to the same failure, whatever else their sheets declare, in whichever order the
sheets stand and whichever of them counts.
-/

namespace Marginalia

/-! ## Answers that agree -/

section

variable {ε : Type}

theorem replaceReferences_congr (render other : Reference → Except ε String)
    {references : List Reference}
    (same : ∀ reference ∈ references, render reference = other reference) (text : List Char) :
    replaceReferences render text references = replaceReferences other text references := by
  induction references generalizing text with
  | nil => rfl
  | cons reference rest ih =>
    obtain ⟨here, behind⟩ := List.forall_mem_cons.mp same
    rw [replaceReferences, replaceReferences, here]
    exact bind_congr fun answer => ih behind _

/-- The expansion of a value depends on the answers for its references alone. -/
theorem expandValue_congr (render other : String → Option String → Except ε String) {value : String}
    (same : ∀ reference ∈ referencesIn value.toList,
      render reference.name reference.modifier = other reference.name reference.modifier) :
    expandValue (fun reference => render reference.name reference.modifier) value =
      expandValue (fun reference => other reference.name reference.modifier) value := by
  have replaced := replaceReferences_congr
    (fun reference => render reference.name reference.modifier)
    (fun reference => other reference.name reference.modifier)
    ((forall_referencesToExpand fun name modifier => render name modifier = other name modifier).mpr
      same) (hideEscapes value.toList)
  simp only [expandValue, expandReferences, replaced]

end

/-! ## What a catalogue tells of a name -/

namespace Catalogue

/-- What the declaration of a name that counts tells of the variable: its kind, its value as it is
    written, and its description. -/
def told? (catalogue : Catalogue) (name : String) :
    Option (VariableKind × String × Option String) :=
  (catalogue.lookup name).map fun (entry, _) =>
    (entry.kindFor name, entry.value, entry.description)

/-- The declarations of a name, one from each sheet that has any, in the order of the sheets. -/
def declarationsOf (catalogue : Catalogue) (name : String) : List Entry :=
  catalogue.sheets.filterMap (·.entries.lookup name)

/-- Another catalogue tells the same of every name that can be reached from the given one.  Nothing is
    asked of a built-in variable, whose declarations never count. -/
def AgreesFrom (catalogue other : Catalogue) (name : String) : Prop :=
  ∀ reached, catalogue.Reaches name reached → Builtin.ofName? reached = none →
    catalogue.told? reached = other.told? reached

/-- Another catalogue has the same precedence and the same declarations of every name that can be
    reached from the given one, those that do not count included. -/
structure DeclaresAlikeFrom (catalogue other : Catalogue) (name : String) : Prop where
  precedence : catalogue.precedence = other.precedence
  declarations : ∀ reached, catalogue.Reaches name reached → Builtin.ofName? reached = none →
    catalogue.declarationsOf reached = other.declarationsOf reached

variable {catalogue other : Catalogue} {name : String}

theorem map_fst_lookup (catalogue : Catalogue) (name : String) :
    (catalogue.lookup name).map Prod.fst =
      match catalogue.precedence with
      | .first => (catalogue.declarationsOf name).head?
      | .last => (catalogue.declarationsOf name).getLast? := by
  have entries : (catalogue.lookup name).map Prod.fst =
      catalogue.ranked.findSome? (·.entries.lookup name) := by
    rw [lookup, List.map_findSome?]
    congr 1
    funext sheet
    simp [Function.comp_def]
  rw [entries, ranked]
  cases catalogue.precedence with
  | first => exact (List.head?_filterMap).symm
  | last => exact (List.getLast?_filterMap).symm

theorem told?_eq_map (catalogue : Catalogue) (name : String) :
    catalogue.told? name = ((catalogue.lookup name).map Prod.fst).map fun entry =>
      (entry.kindFor name, entry.value, entry.description) := by
  rw [Option.map_map]
  rfl

theorem DeclaresAlikeFrom.agreesFrom (alike : catalogue.DeclaresAlikeFrom other name) :
    catalogue.AgreesFrom other name := by
  -- The one that counts is the first or the last of the same declarations.
  intro reached reaches plain
  rw [told?_eq_map, told?_eq_map, map_fst_lookup, map_fst_lookup, alike.precedence,
    alike.declarations reached reaches plain]

theorem AgreesFrom.behind (agrees : catalogue.AgreesFrom other name) {reference : Reference}
    (member : reference ∈ catalogue.referencesOf name) :
    catalogue.AgreesFrom other reference.name :=
  fun reached reaches => agrees reached (reaches.behind member)

/-- What is reached from a name stays among names that lead only to one another. -/
theorem mem_of_reaches {names : List String} (start : name ∈ names)
    (closed : ∀ inner ∈ names, ∀ reference ∈ catalogue.referencesOf inner, reference.name ∈ names)
    {reached : String} (reaches : catalogue.Reaches name reached) : reached ∈ names := by
  induction reaches with
  | refl => exact start
  | tail _ refers ih =>
    obtain ⟨reference, member, rfl⟩ := refers
    exact closed _ ih reference member

/-- The text that stands for a declared variable does not tell which sheet it is declared in. -/
theorem render_declared_congr {entry otherEntry : Entry}
    (kind : entry.kindFor name = otherEntry.kindFor name)
    (description : entry.description = otherEntry.description) (sheet otherSheet : Sheet)
    (value : String) (modifier : Option Modifier) :
    (Scope.declared name value entry sheet).render modifier =
      (Scope.declared name value otherEntry otherSheet).render modifier := by
  rw [Scope.declared, Scope.declared, kind, description]
  cases modifier with
  | none => rfl
  | some word => cases word <;> rfl

theorem cases_of_told?_eq (same : catalogue.told? name = other.told? name) :
    (catalogue.lookup name = none ∧ other.lookup name = none) ∨
      ∃ entry sheet otherEntry otherSheet, catalogue.lookup name = some (entry, sheet) ∧
        other.lookup name = some (otherEntry, otherSheet) ∧ entry.value = otherEntry.value ∧
        ∀ value modifier, (Scope.declared name value entry sheet).render modifier =
          (Scope.declared name value otherEntry otherSheet).render modifier := by
  rw [told?, told?] at same
  cases found : catalogue.lookup name with
  | none =>
    rw [found, Option.map_none, eq_comm, Option.map_eq_none_iff] at same
    exact .inl ⟨rfl, same⟩
  | some declaration =>
    obtain ⟨entry, sheet⟩ := declaration
    rw [found, Option.map_some, eq_comm, Option.map_eq_some_iff] at same
    obtain ⟨⟨otherEntry, otherSheet⟩, otherFound, equal⟩ := same
    obtain ⟨kind, rest⟩ := Prod.mk.inj equal
    obtain ⟨value, description⟩ := Prod.mk.inj rest
    exact .inr ⟨entry, sheet, otherEntry, otherSheet, rfl, otherFound, value.symm,
      render_declared_congr kind.symm description.symm sheet otherSheet⟩

end Catalogue

/-! ## Resolution -/

/-- With catalogues that agree on what a name reaches, the name comes to the same text or fails in the
    same way. -/
theorem Scope.rendered_resolveFrom_congr {scope : Scope} {other : Catalogue} {room : Nat}
    {trail : List String} {name : String} {modifier : Option String}
    (agrees : scope.catalogue.AgreesFrom other name) :
    Resolved.rendered <$> (scope.resolveFrom room trail name modifier).outcome =
      Resolved.rendered <$>
        (resolveFrom { scope with catalogue := other } room trail name modifier).outcome := by
  induction room generalizing trail name modifier with
  | zero => rw [outcome_resolveFrom_zero, outcome_resolveFrom_zero]
  | succ room ih =>
    rw [outcome_resolveFrom_succ, outcome_resolveFrom_succ]
    cases vet trail name modifier with
    | error failure => rfl
    | ok read =>
      simp only [Except.bind]
      cases declared : Builtin.ofName? name with
      | some builtin => rfl
      | none =>
        have same := agrees name (Catalogue.reaches_self name) declared
        rcases Catalogue.cases_of_told?_eq same with ⟨nothing, otherNothing⟩ |
          ⟨entry, sheet, otherEntry, otherSheet, found, otherFound, value, looks⟩
        · simp only [nothing, otherNothing]
        · -- What a reference in the value reaches, the name reaches too.
          have expanded := expandValue_congr
            (fun mentioned word => Resolved.rendered <$>
              (scope.resolveFrom room (trail ++ [name]) mentioned word).outcome)
            (fun mentioned word => Resolved.rendered <$>
              (resolveFrom { scope with catalogue := other } room (trail ++ [name]) mentioned
                word).outcome)
            fun reference member =>
              ih (agrees.behind (Catalogue.referencesOf_of_lookup declared found ▸ member))
          simp only [found, otherFound]
          rw [expanded, value]
          cases expandValue (m := Except Failure) _ otherEntry.value with
          | error failure => rfl
          | ok text => exact congrArg Except.ok (looks text read)

namespace Request

theorem rendered_resolve_congr {catalogue other : Catalogue} {name : String}
    (agrees : catalogue.AgreesFrom other name) (request : Request) (modifier : Option String) :
    Resolved.rendered <$> request.resolve catalogue name modifier =
      Resolved.rendered <$> request.resolve other name modifier :=
  @Scope.rendered_resolveFrom_congr (request.scope catalogue) other _ _ _ _ agrees

/-- Where the catalogue is not needed, no step is taken, and any catalogue leads to the same. -/
theorem resolution_of_not_needed {request : Request} {name : String} {modifier : Option String}
    (unneeded : request.needsCatalogue name modifier = false) :
    ∃ outcome, ∀ catalogue, request.resolution catalogue name modifier = Account.ofExcept outcome := by
  cases checked : vet request.trail name modifier with
  | error failure =>
    exact ⟨.error failure, fun _ => Scope.resolveFrom_of_vet_error request.room checked⟩
  | ok read =>
    cases roomy : request.room with
    | zero =>
      refine ⟨.error (.tooDeep request.limit (request.trail ++ [name])), fun catalogue => ?_⟩
      rw [resolution, roomy]
      exact Scope.resolveFrom_zero checked
    | succ less =>
      cases isBuiltin : Builtin.ofName? name with
      | some builtin =>
        refine ⟨.ok ((Variable.ofBuiltin builtin request.place).resolved read), fun catalogue => ?_⟩
        rw [resolution, roomy]
        exact Scope.resolveFrom_builtin less checked isBuiltin
      | none => simp [needsCatalogue, checked, roomy, isBuiltin, Except.toOption] at unneeded

theorem resolve_of_not_needed {request : Request} {name : String} {modifier : Option String}
    (unneeded : request.needsCatalogue name modifier = false) (catalogue other : Catalogue) :
    request.resolve catalogue name modifier = request.resolve other name modifier := by
  obtain ⟨outcome, same⟩ := resolution_of_not_needed unneeded
  rw [resolve, resolve, same, same]

end Request

/-! ## Engines -/

namespace Engine

/-- A name is resolved with the catalogue as it is when it is fresh, read or not. -/
theorem outcome_resolve_of_freshen {engine fresh : Engine} {disk : Disk}
    (ready : (engine.freshen disk).outcome = .ok fresh) (request : Request) (name : String)
    (modifier : Option String) :
    ∃ after, (engine.resolve disk request name modifier).outcome =
      .ok (after, request.resolve fresh.catalogue name modifier) := by
  cases needed : request.needsCatalogue name modifier with
  | true => exact ⟨fresh, outcome_resolve_of_needed needed ready⟩
  | false =>
    rw [resolve_eq, needed, Request.resolve_of_not_needed needed fresh.catalogue engine.catalogue]
    exact ⟨engine, rfl⟩

/-- Two engines answer a request alike: with the same text, or with the same failure, its message and
    its chain included. -/
def AnswerAlike (engine other : Engine) (disk otherDisk : Disk) (request : Request) (name : String)
    (modifier : Option String) : Prop :=
  ∃ after outcome otherAfter otherOutcome,
    (engine.resolve disk request name modifier).outcome = .ok (after, outcome) ∧
    (other.resolve otherDisk request name modifier).outcome = .ok (otherAfter, otherOutcome) ∧
    Resolved.rendered <$> outcome = Resolved.rendered <$> otherOutcome

/-- What a name comes to is decided by what its catalogue tells of the names that it reaches.  So no
    change of the declarations of other names matters, nor of the sheets without them. -/
theorem answerAlike_of_agreesFrom {engine other fresh otherFresh : Engine} {disk otherDisk : Disk}
    {name : String} (ready : (engine.freshen disk).outcome = .ok fresh)
    (otherReady : (other.freshen otherDisk).outcome = .ok otherFresh) :
    (fresh.catalogue.AgreesFrom otherFresh.catalogue name →
      ∀ request modifier, AnswerAlike engine other disk otherDisk request name modifier) ∧
    (fresh.catalogue.DeclaresAlikeFrom otherFresh.catalogue name →
      ∀ request modifier, AnswerAlike engine other disk otherDisk request name modifier) := by
  have alike (agrees : fresh.catalogue.AgreesFrom otherFresh.catalogue name) (request : Request)
      (modifier : Option String) :
      AnswerAlike engine other disk otherDisk request name modifier := by
    obtain ⟨after, answer⟩ := outcome_resolve_of_freshen ready request name modifier
    obtain ⟨otherAfter, otherAnswer⟩ := outcome_resolve_of_freshen otherReady request name modifier
    exact ⟨after, _, otherAfter, _, answer, otherAnswer,
      Request.rendered_resolve_congr agrees request modifier⟩
  exact ⟨alike, fun declares => alike declares.agreesFrom⟩

-- The other engines have further sheets and declarations; one ranks its sheets the other way round.
theorem answerAlike_of_agreesFrom_loop :
    let loop : Sheet := ⟨"file:///l", "l", "", [("TOP", { value := "$LOOP" }),
      ("LOOP", { value := "$FILE $TOP.ref" })]⟩
    let late : Sheet := ⟨"file:///m", "m", "", [("LOOP", { value := "$REST" }),
      ("REST", { value := "1" })]⟩
    let same : Sheet := ⟨"file:///n", "n", "", [("REST", { value := "2" }), ("FILE", { value := "3" }),
      ("LOOP", { value := "$REST" })]⟩
    let engine : Engine := ⟨{}, .opened {}, { sheets := [loop, late], isStale := false }⟩
    let reversed : Engine :=
      ⟨{}, .opened {}, { precedence := .last, sheets := [same, late, loop], isStale := false }⟩
    let changed : Engine := ⟨{}, .opened {}, { sheets := [loop, same], isStale := false }⟩
    ((engine.freshen {}).outcome = .ok engine ∧ (reversed.freshen {}).outcome = .ok reversed ∧
        (changed.freshen {}).outcome = .ok changed ∧
        engine.catalogue.AgreesFrom reversed.catalogue "TOP" ∧
        engine.catalogue.DeclaresAlikeFrom changed.catalogue "TOP") ∧
      AnswerAlike engine reversed {} {} ⟨9, none, []⟩ "TOP" (some "full") ∧
      AnswerAlike engine changed {} {} ⟨1, none, []⟩ "TOP" none := by
  intro loop late same engine reversed changed
  have ready : (engine.freshen {}).outcome = .ok engine := by decide +kernel
  have reversedReady : (reversed.freshen {}).outcome = .ok reversed := by decide +kernel
  have changedReady : (changed.freshen {}).outcome = .ok changed := by decide +kernel
  have inside {reached : String} (reaches : engine.catalogue.Reaches "TOP" reached) :
      reached ∈ ["TOP", "LOOP", "FILE"] :=
    Catalogue.mem_of_reaches (by decide) (by decide +kernel) reaches
  have agrees : engine.catalogue.AgreesFrom reversed.catalogue "TOP" := by
    have told : ∀ inner ∈ ["TOP", "LOOP", "FILE"], Builtin.ofName? inner = none →
        engine.catalogue.told? inner = reversed.catalogue.told? inner := by
      decide +kernel
    exact fun reached reaches => told reached (inside reaches)
  have declares : engine.catalogue.DeclaresAlikeFrom changed.catalogue "TOP" := by
    have declared : ∀ inner ∈ ["TOP", "LOOP", "FILE"], Builtin.ofName? inner = none →
        engine.catalogue.declarationsOf inner = changed.catalogue.declarationsOf inner := by
      decide +kernel
    exact ⟨rfl, fun reached reaches => declared reached (inside reaches)⟩
  exact ⟨⟨ready, reversedReady, changedReady, agrees, declares⟩,
    (answerAlike_of_agreesFrom ready reversedReady).1 agrees _ _,
    (answerAlike_of_agreesFrom ready changedReady).2 declares _ _⟩

end Engine

end Marginalia
