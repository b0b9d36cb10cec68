import Marginalia.Proofs.Document.Refresh
import Marginalia.Proofs.Variable.Stack

/-!
# Requests on a stack

On a stack the engine either answers a request as it does where there is room for every name, or breaks
it off; the catalogue that it leaves behind is the same.  As long as the limit of the request is not
larger than the room on the stack, nothing is broken off.
-/

namespace Marginalia

namespace Engine

section

variable {stack : Nat} {engine after : Engine} {disk : Disk}

theorem outcome_resolveOn_of_prepare {request : Request} {name : String} {modifier : Option String}
    (prepared : (engine.prepare disk (request.needsCatalogue name modifier)).outcome = .ok after) :
    (engine.resolveOn stack disk request name modifier).outcome =
      .ok (after, request.resolveOn stack after.catalogue name modifier) := by
  rw [resolveOn, Account.outcome_bind, prepared]
  rfl

/-- One resolution after the other is broken off where the first of them is for which the stack has no
    room. -/
theorem outcome_mapM_onStack {α β : Type} (resolution : α → Resolution β) (items : List α) (text : String) :
    (items.mapM fun item => (resolution item).onStack stack).outcome.map (fun _ => text) =
      if ∀ item ∈ items, (resolution item).Fits stack then .ok text else .error .stackFull := by
  induction items with
  | nil => rfl
  | cons item items ih =>
    simp only [List.mapM_cons, Account.outcome_bind, Resolution.outcome_onStack, List.forall_mem_cons]
    by_cases fits : (resolution item).Fits stack
    · simp only [fits, if_true, true_and, ← ih]
      cases (items.mapM fun item => (resolution item).onStack stack).outcome <;> rfl
    · simp only [fits, if_false, false_and]
      rfl

theorem outcome_expandOn_of_prepare {text : String} {place : Option Surroundings}
    (prepared : (engine.prepare disk ((referencesToExpand text.toList).any fun reference =>
      (engine.request place).needsCatalogue reference.name reference.modifier)).outcome = .ok after) :
    (engine.expandOn stack disk text place).outcome =
      .ok (after, if ∀ reference ∈ referencesToExpand text.toList, ((engine.request place).resolution
          after.catalogue reference.name reference.modifier).Fits stack then
          .ok ((engine.request place).expand after.catalogue text)
        else .error .stackFull) := by
  rw [expandOn, Account.outcome_bind, prepared]
  exact congrArg (fun answer => Except.ok (after, answer)) (outcome_mapM_onStack _ _ _)

end

/-! ## Against requests with room for every name -/

variable (stack : Nat) (engine : Engine) (disk : Disk)

theorem outcome_resolveOn (request : Request) (name : String) (modifier : Option String) :
    (engine.resolveOn stack disk request name modifier).outcome =
      (engine.resolve disk request name modifier).outcome.map fun (after, outcome) =>
        (after, if (request.resolution after.catalogue name modifier).Fits stack then .ok outcome
          else .error .stackFull) := by
  rw [resolve_eq, Account.outcome_bind]
  cases prepared : (engine.prepare disk (request.needsCatalogue name modifier)).outcome with
  | error fault =>
    rw [resolveOn, Account.outcome_bind, prepared]
    rfl
  | ok after =>
    rw [outcome_resolveOn_of_prepare prepared, Request.resolveOn, Resolution.outcome_onStack]
    rfl

theorem outcome_expandOn (text : String) (place : Option Surroundings) :
    (engine.expandOn stack disk text place).outcome =
      (engine.expand disk text place).outcome.map fun (after, expanded) =>
        (after, if ∀ reference ∈ referencesToExpand text.toList, ((engine.request place).resolution
            after.catalogue reference.name reference.modifier).Fits stack then .ok expanded
          else .error .stackFull) := by
  rw [expand, Account.outcome_bind]
  cases prepared : (engine.prepare disk ((referencesToExpand text.toList).any fun reference =>
    (engine.request place).needsCatalogue reference.name reference.modifier)).outcome with
  | error fault =>
    rw [expandOn, Account.outcome_bind, prepared]
    rfl
  | ok after =>
    rw [outcome_expandOn_of_prepare prepared]
    rfl

variable {stack}

/-- Where no more names may be open than the stack has room for, a name is resolved as if there were room
    for any number. -/
theorem outcome_resolveOn_of_room {request : Request} (roomy : request.room ≤ stack) (name : String)
    (modifier : Option String) :
    (engine.resolveOn stack disk request name modifier).outcome =
      (engine.resolve disk request name modifier).outcome.map fun (after, outcome) =>
        (after, .ok outcome) := by
  simp only [outcome_resolveOn, request.fits_of_room _ name modifier roomy, if_true]

end Engine

end Marginalia
