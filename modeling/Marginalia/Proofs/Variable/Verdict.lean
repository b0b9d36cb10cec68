import Marginalia.Proofs.Variable.Enclosing
import Marginalia.Proofs.Variable.Locality

/-!
# Whether a reference fails

The place of a request gives values to the built-in variables and decides on nothing else: a reference
is resolved by the same steps at one place and at another, and fails at both or at none, also where the
failure is that of a reference inside a value, on any level of nesting.
-/

namespace Marginalia

/-- The failure that an outcome is, if it is one. -/
def failure? {ε α : Type} : Except ε α → Option ε
  | .ok _ => none
  | .error failure => some failure

section

variable {ε α : Type}

theorem failure?_eq_some_iff {outcome : Except ε α} {failure : ε} :
    failure? outcome = some failure ↔ outcome = .error failure := by
  cases outcome <;> simp [failure?]

theorem failure?_eq_none_iff {outcome : Except ε α} :
    failure? outcome = none ↔ ∃ result, outcome = .ok result := by
  cases outcome <;> simp [failure?]

end

/-! ## Places -/

namespace Resolution

/-- Two resolutions take the same steps, and fail alike if they fail. -/
structure Alike {α : Type} (first second : Resolution α) : Prop where
  notes : first.notes = second.notes
  failure : failure? first.outcome = failure? second.outcome

variable {α β : Type} {first second : Resolution α} {next other : α → Resolution β}

theorem alike_self (resolution : Resolution α) : resolution.Alike resolution := ⟨rfl, rfl⟩

theorem Alike.bind (alike : first.Alike second)
    (each : ∀ result another, (next result).Alike (other another)) :
    Alike (first >>= next) (second >>= other) := by
  obtain ⟨notes, failure⟩ := alike
  cases ends : first.outcome with
  | error problem =>
    rw [ends] at failure
    have same := failure?_eq_some_iff.mp failure.symm
    constructor
    · rw [Account.notes_bind_error ends, Account.notes_bind_error same, notes]
    · rw [Account.outcome_bind, Account.outcome_bind, ends, same]
      rfl
  | ok result =>
    rw [ends] at failure
    obtain ⟨another, same⟩ := failure?_eq_none_iff.mp failure.symm
    constructor
    · rw [Account.notes_bind_ok ends, Account.notes_bind_ok same, notes, (each result another).notes]
    · rw [Account.outcome_bind, Account.outcome_bind, ends, same]
      exact (each result another).failure

theorem alike_pure (result another : α) : Alike (pure result) (pure another) := ⟨rfl, rfl⟩

theorem Alike.map (change : α → β) (alike : first.Alike second) :
    Alike (change <$> first) (change <$> second) := by
  rw [← bind_pure_comp, ← bind_pure_comp]
  exact alike.bind fun _ _ => alike_pure _ _

theorem Alike.within (alike : first.Alike second) (name : String) :
    (first.within name).Alike (second.within name) :=
  ⟨congrArg (fun notes => .opened name :: notes ++ [.closed name]) alike.notes, alike.failure⟩

variable {render another : Reference → Resolution String}

theorem alike_replaceReferences (each : ∀ reference, (render reference).Alike (another reference))
    (text changed : List Char) (references : List Reference) :
    Alike (replaceReferences render text references) (replaceReferences another changed references) := by
  induction references generalizing text changed with
  | nil => exact alike_pure text changed
  | cons reference rest ih => exact (each reference).bind fun _ _ => ih _ _

theorem alike_expandValue (each : ∀ reference, (render reference).Alike (another reference))
    (value : String) : Alike (expandValue render value) (expandValue another value) := by
  unfold expandValue
  split
  · exact ((alike_replaceReferences each _ _ _).map showEscapes).map String.ofList
  · exact alike_self _

end Resolution

/-- A name is resolved at one place by the steps that resolve it at any other, and fails as it fails
    there. -/
theorem Scope.alike_resolveFrom (scope : Scope) (place : Option Surroundings) (room : Nat)
    (trail : List String) (name : String) (modifier : Option String) :
    Resolution.Alike (resolveFrom { scope with place } room trail name modifier)
      (scope.resolveFrom room trail name modifier) := by
  induction room generalizing trail name modifier with
  | zero => exact Resolution.alike_self _
  | succ room ih =>
    cases checked : vet trail name modifier with
    | error failure =>
      rw [resolveFrom_of_vet_error _ checked, resolveFrom_of_vet_error _ checked]
      exact Resolution.alike_self _
    | ok read =>
      cases isBuiltin : Builtin.ofName? name with
      | some builtin =>
        rw [resolveFrom_builtin _ checked isBuiltin, resolveFrom_builtin _ checked isBuiltin]
        exact Resolution.alike_pure _ _
      | none =>
        rw [resolveFrom, resolveFrom, checked, isBuiltin]
        refine Resolution.Alike.within ?_ name
        cases found : scope.catalogue.lookup name with
        | none => exact Resolution.alike_self _
        | some declaration =>
          obtain ⟨entry, sheet⟩ := declaration
          -- Only the texts that stand for the references differ, so the values that are put together.
          have expanded := Resolution.alike_expandValue (fun reference : Reference =>
            (ih (trail ++ [name]) reference.name reference.modifier).map Resolved.rendered) entry.value
          exact expanded.bind fun _ _ => ⟨rfl, rfl⟩

namespace Request

/-- The failure of a name for a request, if it fails: it does not depend on the place. -/
theorem failure?_resolve (request : Request) (place : Option Surroundings) (catalogue : Catalogue)
    (name : String) (modifier : Option String) :
    failure? (resolve { request with place } catalogue name modifier) =
      failure? (request.resolve catalogue name modifier) :=
  ((request.scope catalogue).alike_resolveFrom place request.room request.trail name modifier).failure

/-- Whether the stack has room for what is opened does not depend on the place. -/
theorem fits_resolution (request : Request) (place : Option Surroundings) (catalogue : Catalogue)
    (name : String) (modifier : Option String) (stack : Nat) :
    (resolution { request with place } catalogue name modifier).Fits stack ↔
      (request.resolution catalogue name modifier).Fits stack := by
  have alike := (request.scope catalogue).alike_resolveFrom place request.room request.trail name modifier
  exact iff_of_eq (congrArg (Resolution.breakOff? stack [] · = none) alike.notes)

/-- Where no reference of a text needs the catalogue, any other one leads to the same expansion. -/
theorem expand_of_not_needed {request : Request} {text : String}
    (unneeded : ∀ mention ∈ mentionsIn text.toList,
      request.reset.needsCatalogue mention.1 mention.2 = false) (catalogue other : Catalogue) :
    request.expand catalogue text = request.expand other text := by
  have same : ∀ mention ∈ mentionsIn text.toList, request.reset.render catalogue mention.1 mention.2 =
      request.reset.render other mention.1 mention.2 := by
    intro mention member
    rw [render, render, resolve_of_not_needed (unneeded mention member) catalogue other]
  rw [expand_eq_showEscapes, expand_eq_showEscapes, substitute_congr same]

end Request

end Marginalia
