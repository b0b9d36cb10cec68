import Marginalia.Engine

/-!
# Resolving on a desk

Resolving a name as work on a desk, where the engine, the request with its trail and the notices lie:
each step takes what lies there and changes it.  A name is put on the trail and taken off again, the
catalogue is read again on the way where it is stale, and a fault of that ends the work wherever it is.
An answer has parts that are there or not.
-/

namespace Marginalia

/-! ## Work on a desk -/

/-- What lies on a desk, and the trails that there were after each change of the trail. -/
structure Desk where
  engine : Engine
  request : Request
  notices : List Notice
  trails : List (List String)

/-- What ends work without a result. -/
inductive Halt where
  /-- Work is nested deeper than is looked at. -/
  | unfinished
  /-- The name to take off the trail is not the last one. -/
  | pop (fault : Fault)
  /-- The catalogue cannot be read again. -/
  | rebuild (fault : Fault)
  /-- An answer has neither a failure nor a rendering. -/
  | untagged

/-- Work: from what lies on the desk to a result, or what ends the work, and what lies there then. -/
def Work (α : Type) : Type := Desk → Except Halt α × Desk

namespace Work

variable {α β : Type}

instance : Monad Work where
  pure result := fun desk => (.ok result, desk)
  bind work next := fun desk =>
    match work desk with
    | (.ok result, later) => next result later
    | (.error halt, later) => (.error halt, later)

theorem bind_of_ok {work : Work α} {desk later : Desk} {result : α} (next : α → Work β)
    (ends : work desk = (.ok result, later)) : (work >>= next) desk = next result later := by
  simp only [Bind.bind, ends]

theorem bind_of_error {work : Work α} {desk later : Desk} {reason : Halt} (next : α → Work β)
    (ends : work desk = (.error reason, later)) :
    (work >>= next) desk = (.error reason, later) := by
  simp only [Bind.bind, ends]

def halt (reason : Halt) : Work α := fun desk => (.error reason, desk)

/-- The request on the desk. -/
def request : Work Request := fun desk => (.ok desk.request, desk)

/-- The catalogue on the desk. -/
def catalogue : Work Catalogue := fun desk => (.ok desk.engine.catalogue, desk)

def notify (notice : Notice) : Work Unit := fun desk =>
  (.ok (), { desk with notices := desk.notices ++ [notice] })

def setRequest (request : Request) : Work Unit := fun desk =>
  (.ok (), { desk with request, trails := desk.trails ++ [request.trail] })

def push (name : String) : Work Unit := do
  setRequest ((← request).push name)

def pop (name : String) : Work Unit := do
  match (← request).pop name with
  | .ok shorter => setRequest shorter
  | .error fault => halt (.pop fault)

/-- Work with some other work behind it, however it ends. -/
def followedBy (work : Work α) (last : Work Unit) : Work α := fun desk =>
  let (ending, later) := work desk
  match last later with
  | (.ok (), closed) => (ending, closed)
  | (.error reason, closed) => (.error reason, closed)

theorem followedBy_of_ok {work : Work α} {last : Work Unit} {desk later closed : Desk}
    {ending : Except Halt α} (ends : work desk = (ending, later))
    (closes : last later = (.ok (), closed)) : work.followedBy last desk = (ending, closed) := by
  simp only [followedBy, ends, closes]

theorem pop_of_ok {desk : Desk} {name : String} {shorter : Request}
    (isLast : desk.request.pop name = .ok shorter) : pop name desk = setRequest shorter desk := by
  refine (bind_of_ok _ (rfl : request desk = (.ok desk.request, desk))).trans ?_
  rw [isLast]

/-- Work with a name on the trail, which is taken off however the work ends. -/
def within (name : String) (work : Work α) : Work α := do
  push name
  work.followedBy (pop name)

/-- Reads the catalogue again if it is stale. -/
def freshen (disk : Disk) : Work Unit := fun desk =>
  let report := desk.engine.freshen disk
  let noted := { desk with notices := desk.notices ++ report.notes }
  match report.outcome with
  | .ok engine => (.ok (), { noted with engine })
  | .error fault => (.error (.rebuild fault), noted)

end Work

/-! ## Resolving on a desk -/

/-- What resolving a name comes to, in parts that are there or not. -/
structure Answer where
  found : Option Variable := none
  failure : Option Failure := none
  rendered : Option String := none

namespace Answer

/-- Either there are a variable and its rendering and no failure, or a failure and nothing else. -/
def IsTagged (answer : Answer) : Prop :=
  (∃ found rendered, answer = ⟨some found, none, some rendered⟩) ∨
    ∃ failure, answer = ⟨none, some failure, none⟩

/-- The answer for a variable, rendered as its value. -/
def ofVariable (found : Variable) : Answer :=
  { found := some found, rendered := some found.value }

def ofFailure (failure : Failure) : Answer :=
  { failure := some failure }

/-- An answer that is no failure, rendered again where there is a modifier. -/
def withModifier (modifier : Option Modifier) (answer : Answer) : Answer :=
  if answer.failure.isNone && modifier.isSome then
    { answer with rendered := answer.found.map fun found => found.render modifier }
  else answer

/-- The answer that says what a resolution came to. -/
def ofOutcome : Except Failure Resolved → Answer
  | .ok resolved => ⟨some resolved.found, none, some resolved.rendered⟩
  | .error failure => ofFailure failure

theorem isTagged_ofOutcome (outcome : Except Failure Resolved) : (ofOutcome outcome).IsTagged := by
  cases outcome with
  | ok resolved => exact .inl ⟨resolved.found, resolved.rendered, rfl⟩
  | error failure => exact .inr ⟨failure, rfl⟩

/-- The text of a nested answer, or its failure. -/
def text (answer : Answer) : Work (Except Failure String) :=
  match answer.failure, answer.rendered with
  | some failure, _ => pure (.error failure)
  | none, some rendered => pure (.ok rendered)
  | none, none => Work.halt .untagged

end Answer

namespace Work

/-- The value of a declaration with its references replaced, each by what an answer says; the first
    failure ends it. -/
def expandStrict (answer : Reference → Work Answer) (value : String) :
    Work (Except Failure String) :=
  expandValue (fun reference => ExceptT.mk (answer reference >>= Answer.text)) value

/-- Looks up a name that is on the trail, and expands its value. -/
def lookUp (answer : Reference → Work Answer) (name : String) : Work Answer := do
  match (← catalogue).lookup name with
  | none => return .ofFailure (.undefined name (← request).trail)
  | some (entry, sheet) =>
    match ← expandStrict answer entry.value with
    | .error failure => return .ofFailure failure
    | .ok value =>
      notify (.resolved name sheet.name)
      return .ofVariable (Scope.declared name value entry sheet)

/-- Resolves a name.  Only work that is nested less deep than `fuel` is looked at. -/
def resolve (disk : Disk) : (fuel : Nat) → (name : String) → (modifier : Option String) →
    Work Answer
  | 0, _, _ => halt .unfinished
  | fuel + 1, name, modifier => do
    let request ← request
    match vet request.trail name modifier with
    | .error failure => return .ofFailure failure
    | .ok modifier =>
      if request.limit ≤ request.trail.length then
        return .ofFailure (.tooDeep request.limit (request.trail ++ [name]))
      else
        match Builtin.ofName? name with
        | some builtin =>
          let found := Variable.ofBuiltin builtin request.place
          return { Answer.ofVariable found with rendered := some (found.render modifier) }
        | none =>
          let answer ← within name do
            freshen disk
            lookUp (fun reference => resolve disk fuel reference.name reference.modifier) name
          return answer.withModifier modifier

end Work

end Marginalia
