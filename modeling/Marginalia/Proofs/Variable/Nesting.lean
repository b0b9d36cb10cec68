import Marginalia.Proofs.Variable.Substitution
import Marginalia.Variable.Resolution

/-!
# One level of nesting

What a name comes to, told by what the references in its value come to.  A value can be expanded
exactly when each of its references can be resolved, and a failure is that of one of them.
-/

namespace Marginalia

/-! ## Outcomes with something applied -/

section

variable {ε α β : Type} {change : α → β} {outcome : Except ε α}

theorem map_eq_ok_iff {result : β} : change <$> outcome = .ok result ↔
    ∃ value, outcome = .ok value ∧ result = change value := by
  cases outcome with
  | error failure => simp
  | ok value => simp [eq_comm]

theorem exists_map_eq_ok : (∃ result, change <$> outcome = .ok result) ↔
    ∃ result, outcome = .ok result := by
  constructor
  · rintro ⟨result, changed⟩
    obtain ⟨value, succeeds, _⟩ := map_eq_ok_iff.mp changed
    exact ⟨value, succeeds⟩
  · rintro ⟨value, rfl⟩
    exact ⟨change value, rfl⟩

theorem map_eq_error {failure : ε} : change <$> outcome = .error failure ↔
    outcome = .error failure := by
  cases outcome <;> simp

end

/-! ## Expanding a value -/

theorem replaceReferences_ok_iff {ε : Type} (render : Reference → Except ε String)
    (text : List Char) (references : List Reference) :
    (∃ replaced, replaceReferences render text references = .ok replaced) ↔
      ∀ reference ∈ references, ∃ answer, render reference = .ok answer := by
  induction references generalizing text with
  | nil => exact ⟨fun _ _ member => absurd member List.not_mem_nil, fun _ => ⟨text, rfl⟩⟩
  | cons reference rest ih =>
    rw [List.forall_mem_cons, replaceReferences]
    cases answered : render reference with
    | error failure =>
      constructor
      · rintro ⟨replaced, equal⟩
        cases equal
      · rintro ⟨⟨answer, equal⟩, _⟩
        cases equal
    | ok answer =>
      rw [← ih (splice text reference.range answer.toList)]
      exact ⟨fun succeeds => ⟨⟨answer, rfl⟩, succeeds⟩, And.right⟩

/-- Where replacing references fails, those in front of the one that fails have answers. -/
theorem replaceReferences_error {ε : Type} {render : Reference → Except ε String} {failure : ε}
    {text : List Char} {references : List Reference}
    (fails : replaceReferences render text references = .error failure) :
    ∃ before reference after, references = before ++ reference :: after ∧
      (∀ earlier ∈ before, ∃ answer, render earlier = .ok answer) ∧
      render reference = .error failure := by
  induction references generalizing text with
  | nil => cases fails
  | cons first rest ih =>
    rw [replaceReferences] at fails
    cases answered : render first with
    | error own =>
      rw [answered] at fails
      cases fails
      exact ⟨[], first, rest, rfl, fun _ member => absurd member List.not_mem_nil, answered⟩
    | ok answer =>
      rw [answered] at fails
      obtain ⟨before, reference, after, rfl, succeed, laterFails⟩ := ih fails
      exact ⟨first :: before, reference, after, rfl,
        List.forall_mem_cons.mpr ⟨⟨answer, answered⟩, succeed⟩, laterFails⟩

/-- An expansion replaces references to what the text mentions, from the last one to the first. -/
theorem map_mention_referencesToExpand (text : List Char) :
    (referencesToExpand text).map Reference.mention = (mentionsIn text).reverse := by
  rw [referencesToExpand, List.map_reverse]
  exact congrArg List.reverse (mentionsIn_hideEscapes text)

theorem forall_referencesToExpand {text : List Char} (property : String → Option String → Prop) :
    (∀ reference ∈ referencesToExpand text, property reference.name reference.modifier) ↔
      ∀ reference ∈ referencesIn text, property reference.name reference.modifier := by
  have mentions : ∀ references : List Reference,
      (∀ reference ∈ references, property reference.name reference.modifier) ↔
        ∀ mention ∈ references.map Reference.mention, property mention.1 mention.2 := by
    intro references
    rw [List.forall_mem_map]
    rfl
  rw [mentions, mentions, map_mention_referencesToExpand]
  simp only [List.mem_reverse]
  rfl

theorem referencesIn_of_notMem {text : List Char} (clean : '$' ∉ text) : referencesIn text = [] := by
  have nothing := mentionsIn_append [] clean
  rw [List.append_nil, mentionsIn_nil] at nothing
  exact List.map_eq_nil_iff.mp nothing

variable {ε : Type} (render : String → Option String → Except ε String) (value : String)

/-- A value can be expanded exactly when each of its references has an answer. -/
theorem expandValue_ok_iff :
    (∃ expanded, expandValue (fun reference => render reference.name reference.modifier) value =
        .ok expanded) ↔
      ∀ reference ∈ referencesIn value.toList,
        ∃ answer, render reference.name reference.modifier = .ok answer := by
  rw [expandValue]
  split
  · rw [← forall_referencesToExpand fun name modifier => ∃ answer, render name modifier = .ok answer,
      ← replaceReferences_ok_iff (fun reference => render reference.name reference.modifier)
        (hideEscapes value.toList), expandReferences]
    cases replaceReferences (fun reference => render reference.name reference.modifier)
        (hideEscapes value.toList) (referencesToExpand value.toList) with
    | error failure =>
      constructor
      · rintro ⟨expanded, equal⟩
        cases equal
      · rintro ⟨replaced, equal⟩
        cases equal
    | ok replaced => exact ⟨fun _ => ⟨replaced, rfl⟩, fun _ => ⟨_, rfl⟩⟩
  next plain =>
    rw [referencesIn_of_notMem (by simpa using plain)]
    exact ⟨fun _ _ member => absurd member List.not_mem_nil, fun _ => ⟨value, rfl⟩⟩

/-- Expanding a value puts in the answers with the mark hiding doubled dollar signs, which are shown
    then; a value without a dollar sign has none to show, unless the mark is in it. -/
theorem expandValue_eq_showEscapes (answer : String → Option String → String)
    (valueClean : '\x00' ∉ value.toList)
    (answers : ∀ mention ∈ mentionsIn value.toList,
      render mention.1 mention.2 = .ok (answer mention.1 mention.2)) :
    expandValue (fun reference => render reference.name reference.modifier) value =
      .ok (String.ofList (showEscapes (substitute escapeMark answer value.toList))) := by
  rw [expandValue]
  split
  · rw [expandReferences_eq value.toList answers]
    rfl
  next plain =>
    have untouched := @substitute_append escapeMark answer value.toList [] (by simpa using plain)
    have shown : showEscapes (value.toList ++ []) = value.toList ++ [] :=
      showEscapes_append [] valueClean
    simp only [substitute_nil, List.append_nil] at untouched shown
    rw [untouched, shown, String.ofList_toList]
    rfl

/-- Expanding a value is one pass over it, unless the mark is in the value or in what is put in. -/
theorem expandValue_eq_substitute (answer : String → Option String → String)
    (valueClean : '\x00' ∉ value.toList)
    (answers : ∀ mention ∈ mentionsIn value.toList,
      render mention.1 mention.2 = .ok (answer mention.1 mention.2))
    (answersClean : ∀ mention ∈ mentionsIn value.toList,
      '\x00' ∉ (answer mention.1 mention.2).toList) :
    expandValue (fun reference => render reference.name reference.modifier) value =
      .ok (String.ofList (substitute ['$'] answer value.toList)) := by
  rw [expandValue_eq_showEscapes render value answer valueClean answers,
    showEscapes_substitute valueClean answersClean]

variable {render value}

/-- Where expanding a value fails, those references have answers that stand behind the one that fails. -/
theorem expandValue_error {failure : ε}
    (fails : expandValue (fun reference => render reference.name reference.modifier) value =
      .error failure) :
    ∃ front reference back, referencesIn value.toList = front ++ reference :: back ∧
      (∀ later ∈ back, ∃ answer, render later.name later.modifier = .ok answer) ∧
      render reference.name reference.modifier = .error failure := by
  rw [expandValue] at fails
  split at fails
  · rw [expandReferences] at fails
    cases replaced : replaceReferences (fun reference => render reference.name reference.modifier)
        (hideEscapes value.toList) (referencesToExpand value.toList) with
    | ok text =>
      rw [replaced] at fails
      cases fails
    | error own =>
      rw [replaced] at fails
      cases fails
      obtain ⟨before, hidden, after, split, succeed, same⟩ := replaceReferences_error replaced
      -- The offsets differ in the hidden text; what is mentioned is the same, from the other end.
      have mentioned := map_mention_referencesToExpand value.toList
      rw [split, List.map_append, List.map_cons, eq_comm, List.reverse_eq_iff,
        List.reverse_append, List.reverse_cons, List.append_assoc, List.singleton_append] at mentioned
      obtain ⟨front, behind, whole, _, rest⟩ := List.map_eq_append_iff.mp mentioned
      obtain ⟨reference, back, rfl, mention, others⟩ := List.map_eq_cons_iff.mp rest
      obtain ⟨sameName, sameModifier⟩ := Prod.mk.inj mention
      refine ⟨front, reference, back, whole, ?_, sameName ▸ sameModifier ▸ same⟩
      intro later member
      have laterMentioned := List.mem_map_of_mem (f := Reference.mention) member
      rw [others, List.mem_reverse] at laterMentioned
      obtain ⟨earlier, earlierMember, equal⟩ := List.mem_map.mp laterMentioned
      obtain ⟨laterName, laterModifier⟩ := Prod.mk.inj equal
      exact laterName ▸ laterModifier ▸ succeed earlier earlierMember
  · cases fails

/-- The text that stands for a reference with the given outcome. -/
def shown : Except Failure Resolved → String
  | .ok resolved => resolved.rendered
  | .error failure => failure.marker

/-- Where a value is expanded, everything that it mentions is resolved. -/
theorem resolved_of_expandValue (outcome : String → Option String → Except Failure Resolved)
    {value expanded : String}
    (expansion : expandValue (fun reference =>
      Resolved.rendered <$> outcome reference.name reference.modifier) value = .ok expanded) :
    ∀ mention ∈ mentionsIn value.toList, ∃ resolved, outcome mention.1 mention.2 = .ok resolved := by
  intro mention member
  obtain ⟨reference, referenceMember, rfl⟩ := List.mem_map.mp member
  have answered := (expandValue_ok_iff (fun name modifier =>
    Resolved.rendered <$> outcome name modifier) value).mp ⟨expanded, expansion⟩
  exact exists_map_eq_ok.mp (answered reference referenceMember)

/-! ## Checks before the look-up -/

/-- A name that a variable may have, with no modifier or one of those that there are. -/
structure IsWellFormed (name : String) (modifier : Option String) : Prop where
  name : isValidName name = true
  modifier : modifier = none ∨ modifier = some "full" ∨ modifier = some "ref" ∨
    modifier = some "signature"

theorem readModifier_ok_iff (modifier : Option String) :
    (∃ read, readModifier modifier = .ok read) ↔
      modifier = none ∨ modifier = some "full" ∨ modifier = some "ref" ∨
        modifier = some "signature" := by
  cases modifier with
  | none => exact ⟨fun _ => .inl rfl, fun _ => ⟨none, rfl⟩⟩
  | some word =>
    rw [readModifier]
    cases found : Modifier.ofWord? word with
    | none =>
      simp only [Modifier.ofWord?, Modifier.all, List.find?_eq_none, List.forall_mem_cons,
        Modifier.word] at found
      simp_all [eq_comm]
    | some known =>
      have spelled := List.find?_some found
      cases known <;> simp_all [Modifier.word, eq_comm]

theorem vet_ok_iff (trail : List String) (name : String) (modifier : Option String) :
    (∃ read, vet trail name modifier = .ok read) ↔ IsWellFormed name modifier ∧ name ∉ trail := by
  rw [vet]
  by_cases valid : isValidName name = true
  · rw [if_pos valid]
    -- The modifier is read before the trail is looked at.
    have wellFormed : IsWellFormed name modifier ↔ ∃ read, readModifier modifier = .ok read :=
      ⟨fun both => (readModifier_ok_iff modifier).mpr both.modifier,
        fun read => ⟨valid, (readModifier_ok_iff modifier).mp read⟩⟩
    rw [wellFormed]
    cases readModifier modifier with
    | error failure => simp [Except.bind]
    | ok read => by_cases isOpen : name ∈ trail <;> simp [Except.bind, isOpen]
  · rw [if_neg valid]
    constructor
    · rintro ⟨read, equal⟩
      cases equal
    · exact fun both => absurd both.1.name valid

/-- Where the checks fail, the name or the modifier is none, or the name is open already. -/
theorem vet_error {trail : List String} {name : String} {modifier : Option String}
    {failure : Failure} (fails : vet trail name modifier = .error failure) :
    failure = .invalidName name ∨
      (∃ word, modifier = some word ∧ failure = .invalidModifier word) ∨
      name ∈ trail ∧ failure = .circular (trail ++ [name]) := by
  rw [vet] at fails
  split at fails
  · cases readFound : readModifier modifier with
    | error own =>
      rw [readFound] at fails
      cases fails
      cases modifier with
      | none => cases readFound
      | some word =>
        rw [readModifier] at readFound
        split at readFound
        · cases readFound
        · cases readFound
          exact .inr (.inl ⟨word, rfl, rfl⟩)
    | ok read =>
      rw [readFound] at fails
      simp only [Except.bind] at fails
      split at fails
      next isOpen =>
        cases fails
        exact .inr (.inr ⟨by simpa using isOpen, rfl⟩)
      · cases fails
  · cases fails
    exact .inl rfl

/-! ## Resolving a name -/

namespace Catalogue

/-- The references that resolving a name meets in its value.  A built-in variable has none, even if
    its name is declared. -/
def referencesOf (catalogue : Catalogue) (name : String) : List Reference :=
  match Builtin.ofName? name, catalogue.lookup name with
  | none, some (entry, _) => referencesIn entry.value.toList
  | _, _ => []

def IsKnown (catalogue : Catalogue) (name : String) : Prop :=
  (Builtin.ofName? name).isSome = true ∨ (catalogue.lookup name).isSome = true

theorem mem_ranked {catalogue : Catalogue} {sheet : Sheet} :
    sheet ∈ catalogue.ranked ↔ sheet ∈ catalogue.sheets := by
  unfold ranked
  split <;> simp

theorem mem_of_lookup {catalogue : Catalogue} {name : String} {entry : Entry} {sheet : Sheet}
    (found : catalogue.lookup name = some (entry, sheet)) :
    sheet ∈ catalogue.sheets ∧ (name, entry) ∈ sheet.entries := by
  obtain ⟨ranked, member, own⟩ := List.exists_of_findSome?_eq_some found
  obtain ⟨declared, entryFound, same⟩ := Option.map_eq_some_iff.mp own
  obtain ⟨rfl, rfl⟩ := Prod.mk.inj same
  obtain ⟨front, back, split, _⟩ := List.lookup_eq_some_iff.mp entryFound
  exact ⟨mem_ranked.mp member, by simp [split]⟩

theorem referencesOf_of_lookup {catalogue : Catalogue} {name : String} {entry : Entry} {sheet : Sheet}
    (declared : Builtin.ofName? name = none) (found : catalogue.lookup name = some (entry, sheet)) :
    catalogue.referencesOf name = referencesIn entry.value.toList := by
  simp only [referencesOf, declared, found]

end Catalogue

namespace Scope

variable {scope : Scope} {room : Nat} {trail : List String} {name : String}
  {modifier : Option String}

theorem resolveFrom_of_vet_error {failure : Failure} (room : Nat)
    (fails : vet trail name modifier = .error failure) :
    scope.resolveFrom room trail name modifier = Account.fail failure := by
  cases room <;> rw [resolveFrom, fails] <;> rfl

theorem resolveFrom_zero {read : Option Modifier} (passes : vet trail name modifier = .ok read) :
    scope.resolveFrom 0 trail name modifier =
      Account.fail (.tooDeep scope.limit (trail ++ [name])) := by
  rw [resolveFrom, passes]
  rfl

theorem resolveFrom_builtin {read : Option Modifier} {builtin : Builtin} (room : Nat)
    (passes : vet trail name modifier = .ok read) (isBuiltin : Builtin.ofName? name = some builtin) :
    scope.resolveFrom (room + 1) trail name modifier =
      pure ((Variable.ofBuiltin builtin scope.place).resolved read) := by
  rw [resolveFrom, passes, isBuiltin]
  rfl

theorem resolveFrom_zero_ne_ok (resolved : Resolved) :
    (scope.resolveFrom 0 trail name modifier).outcome ≠ .ok resolved := by
  rw [outcome_resolveFrom_zero]
  cases vet trail name modifier <;> simp [Except.bind]

/-- A name is resolved where the checks pass, it is known, and every reference in its value is
    resolved with one name more open. -/
theorem resolveFrom_succ_ok_iff :
    (∃ resolved, (scope.resolveFrom (room + 1) trail name modifier).outcome = .ok resolved) ↔
      IsWellFormed name modifier ∧ name ∉ trail ∧ scope.catalogue.IsKnown name ∧
        ∀ reference ∈ scope.catalogue.referencesOf name, ∃ resolved,
          (scope.resolveFrom room (trail ++ [name]) reference.name reference.modifier).outcome =
            .ok resolved := by
  rw [outcome_resolveFrom_succ, ← and_assoc, ← vet_ok_iff]
  cases vet trail name modifier with
  | error failure => simp [Except.bind]
  | ok read =>
    simp only [Except.bind, Catalogue.IsKnown, Catalogue.referencesOf]
    cases Builtin.ofName? name with
    | some builtin => simp
    | none =>
      cases scope.catalogue.lookup name with
      | none => simp
      | some declaration =>
        obtain ⟨entry, sheet⟩ := declaration
        have values := expandValue_ok_iff (fun mentioned word => Resolved.rendered <$>
          (scope.resolveFrom room (trail ++ [name]) mentioned word).outcome) entry.value
        simp only [exists_map_eq_ok] at values
        simp only [Except.ok.injEq, exists_eq', Option.isSome_some, or_true, true_and]
        exact exists_map_eq_ok.trans values

/-- A name comes to a built-in variable, or to a declared one whose value is expanded with one name
    more open. -/
theorem resolveFrom_eq_ok_iff {resolved : Resolved} :
    (scope.resolveFrom room trail name modifier).outcome = .ok resolved ↔
      ∃ read less, room = less + 1 ∧ vet trail name modifier = .ok read ∧
        ((∃ builtin, Builtin.ofName? name = some builtin ∧
            resolved = (Variable.ofBuiltin builtin scope.place).resolved read) ∨
          Builtin.ofName? name = none ∧ ∃ entry sheet expanded,
            scope.catalogue.lookup name = some (entry, sheet) ∧
            expandValue (fun reference => Resolved.rendered <$>
                (scope.resolveFrom less (trail ++ [name]) reference.name
                  reference.modifier).outcome) entry.value = .ok expanded ∧
            resolved = (declared name expanded entry sheet).resolved read) := by
  cases room with
  | zero => simp [resolveFrom_zero_ne_ok]
  | succ less =>
    rw [outcome_resolveFrom_succ]
    cases vet trail name modifier with
    | error failure => simp [Except.bind]
    | ok read =>
      cases Builtin.ofName? name with
      | some builtin => simp [Except.bind, eq_comm]
      | none =>
        cases scope.catalogue.lookup name with
        | none => simp [Except.bind]
        | some found =>
          obtain ⟨entry, sheet⟩ := found
          refine map_eq_ok_iff.trans ?_
          constructor
          · rintro ⟨value, expanded, same⟩
            exact ⟨read, less, rfl, rfl, .inr ⟨rfl, entry, sheet, value, rfl, expanded, same⟩⟩
          · rintro ⟨_, _, fits, passes, ⟨_, isBuiltin, _⟩ |
              ⟨_, _, _, value, declaration, expanded, same⟩⟩
            · cases isBuiltin
            · cases fits
              cases passes
              cases declaration
              exact ⟨value, expanded, same⟩

/-- A name fails by itself: none of the references in its value is looked at. -/
inductive Refuses (scope : Scope) (room : Nat) (trail : List String) (name : String)
    (modifier : Option String) : Failure → Prop
  | checked {failure : Failure} (refused : vet trail name modifier = .error failure) :
      Refuses scope room trail name modifier failure
  | tooDeep (closed : name ∉ trail) (full : room = 0) :
      Refuses scope room trail name modifier (.tooDeep scope.limit (trail ++ [name]))
  | undefined (closed : name ∉ trail) (roomy : 0 < room) (unknown : ¬ scope.catalogue.IsKnown name) :
      Refuses scope room trail name modifier (.undefined name (trail ++ [name]))

/-- A name fails by itself, or its failure is that of a reference in its value, unchanged, and those
    behind this reference are resolved. -/
theorem resolveFrom_error {failure : Failure}
    (fails : (scope.resolveFrom room trail name modifier).outcome = .error failure) :
    scope.Refuses room trail name modifier failure ∨
      ∃ less entry sheet front reference back, room = less + 1 ∧ name ∉ trail ∧
        Builtin.ofName? name = none ∧ scope.catalogue.lookup name = some (entry, sheet) ∧
        referencesIn entry.value.toList = front ++ reference :: back ∧
        (∀ later ∈ back, ∃ resolved,
          (scope.resolveFrom less (trail ++ [name]) later.name later.modifier).outcome =
            .ok resolved) ∧
        (scope.resolveFrom less (trail ++ [name]) reference.name reference.modifier).outcome =
          .error failure := by
  cases checked : vet trail name modifier with
  | error own =>
    rw [resolveFrom_of_vet_error room checked] at fails
    obtain rfl := Except.error.inj fails
    exact .inl (.checked checked)
  | ok read =>
    have closed : name ∉ trail := ((vet_ok_iff trail name modifier).mp ⟨read, checked⟩).2
    cases room with
    | zero =>
      rw [resolveFrom_zero checked] at fails
      obtain rfl := Except.error.inj fails
      exact .inl (.tooDeep closed rfl)
    | succ less =>
      cases builtin : Builtin.ofName? name with
      | some known =>
        rw [resolveFrom_builtin less checked builtin] at fails
        cases fails
      | none =>
        rw [outcome_resolveFrom_succ, checked] at fails
        simp only [Except.bind, builtin] at fails
        cases declaration : scope.catalogue.lookup name with
        | none =>
          rw [declaration] at fails
          obtain rfl := Except.error.inj fails
          have unknown : ¬ scope.catalogue.IsKnown name := by
            simp [Catalogue.IsKnown, builtin, declaration]
          exact .inl (.undefined closed (Nat.succ_pos less) unknown)
        | some found =>
          -- The references are resolved from the last one on, so the failure is that of the first met.
          obtain ⟨entry, sheet⟩ := found
          rw [declaration] at fails
          obtain ⟨front, reference, back, split, succeed, nested⟩ := @expandValue_error _
            (fun mentioned word => Resolved.rendered <$>
              (scope.resolveFrom less (trail ++ [name]) mentioned word).outcome) entry.value failure
            (map_eq_error.mp fails)
          exact .inr ⟨less, entry, sheet, front, reference, back, rfl, closed, rfl, rfl, split,
            fun later member => exists_map_eq_ok.mp (succeed later member), map_eq_error.mp nested⟩

end Scope

/-- The declarations are needed where the checks pass, there is room for one name more, and the name is
    not that of a built-in variable. -/
theorem Request.needsCatalogue_iff (request : Request) (name : String) (modifier : Option String) :
    request.needsCatalogue name modifier = true ↔
      IsWellFormed name modifier ∧ name ∉ request.trail ∧ 0 < request.room ∧
        Builtin.ofName? name = none := by
  have accepted : (vet request.trail name modifier).toOption.isSome = true ↔
      IsWellFormed name modifier ∧ name ∉ request.trail := by
    rw [← vet_ok_iff]
    cases vet request.trail name modifier with
    | error failure => simp [Except.toOption]
    | ok read => simp [Except.toOption]
  rw [needsCatalogue, Bool.and_eq_true, Bool.and_eq_true, accepted, decide_eq_true_eq,
    Option.isNone_iff_eq_none, and_assoc, and_assoc]

end Marginalia
