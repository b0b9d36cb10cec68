import Marginalia.Report.Account
import Marginalia.Report.Fault
import Marginalia.Variable.Catalogue
import Marginalia.Variable.Expansion
import Marginalia.Variable.Failure
import Marginalia.Variable.Resolved

/-!
# Resolving variables

A reference is resolved against a catalogue of declarations and the built-in variables.  The value of
a declared variable may hold references itself; they are resolved on the way, and the names that are
open at a time form a trail.  A name that is on the trail already is refused, and so is one for which
the trail has no room left, so every resolution ends.  Its steps are kept beside its outcome.

Calls are open for every name that is open, and the stack has room for so many of them.  Where the limit
of a request lets the trail grow beyond that, the resolution is broken off.  What a request comes to is
told first as if there were room for every name, and then on a stack, by the steps.
-/

namespace Marginalia

/-- A request to resolve references: how many names may be open at once, what is known about its
    place, and the names that are open. -/
structure Request where
  limit : Int
  place : Option Surroundings := none
  trail : List String := []
deriving Repr, DecidableEq

namespace Request

/-- The limit where nothing else is said. -/
def defaultLimit : Int := 10

/-- The request with one more name open. -/
def push (request : Request) (name : String) : Request :=
  { request with trail := request.trail ++ [name] }

/-- The request with its last name closed, which has to be the given one. -/
def pop (request : Request) (name : String) : Except Fault Request :=
  if request.trail.getLast? = some name then
    .ok { request with trail := request.trail.dropLast }
  else .error (.trailOutOfOrder name request.trail)

/-- The request with no name open. -/
def reset (request : Request) : Request :=
  { request with trail := [] }

/-- How many names may still be opened. -/
def room (request : Request) : Nat :=
  (request.limit - request.trail.length).toNat

end Request

/-- What references are resolved against: the declarations, the place of the request and the limit on
    open names. -/
structure Scope where
  catalogue : Catalogue
  place : Option Surroundings
  limit : Int

/-- A variable and the text that stands for the reference to it. -/
structure Resolved where
  found : Variable
  rendered : String
deriving Repr, DecidableEq

/-- The variable of a name with a modifier applied. -/
def Variable.resolved (found : Variable) (modifier : Option Modifier) : Resolved :=
  ⟨found, found.render modifier⟩

def readModifier : Option String → Except Failure (Option Modifier)
  | none => .ok none
  | some word =>
    match Modifier.ofWord? word with
    | some modifier => .ok (some modifier)
    | none => .error (.invalidModifier word)

/-- The checks that a reference has to pass before its name is looked up, on a trail of open names. -/
def vet (trail : List String) (name : String) (modifier : Option String) :
    Except Failure (Option Modifier) :=
  if isValidName name then
    (readModifier modifier).bind fun modifier =>
      if trail.contains name then .error (.circular (trail ++ [name])) else .ok modifier
  else .error (.invalidName name)

/-- The value of a declaration with its references replaced; the first that fails, from the last one
    on, ends it.  A value without a dollar sign is kept as it is. -/
def expandValue {m : Type → Type} [Monad m] (render : Reference → m String) (value : String) :
    m String := do
  if value.toList.contains '$' then
    return String.ofList (← expandReferences render value.toList)
  else return value

/-- The outcome of replacing references depends on what each of them comes to alone. -/
theorem outcome_replaceReferences {note flaw : Type} (render : Reference → Account note flaw String)
    (text : List Char) (references : List Reference) :
    (replaceReferences render text references).outcome =
      replaceReferences (fun reference => (render reference).outcome) text references := by
  induction references generalizing text with
  | nil => rfl
  | cons reference rest ih => simp only [replaceReferences, Account.outcome_bind, ih]

/-- The outcome of expanding a value depends on what each of its references comes to alone. -/
theorem outcome_expandValue {note flaw : Type} (render : Reference → Account note flaw String)
    (value : String) :
    (expandValue render value).outcome =
      expandValue (fun reference => (render reference).outcome) value := by
  unfold expandValue
  split
  · simp only [expandReferences, Account.outcome_bind, outcome_replaceReferences,
      Account.outcome_pure]
    rfl
  · rfl

/-! ## Resolutions -/

/-- What happens while a name is resolved. -/
inductive Resolution.Step where
  /-- A name is opened at the end of the trail. -/
  | opened (name : String)
  /-- The value of a declared name is known. -/
  | found (name sheet : String)
  /-- The last name of the trail is closed. -/
  | closed (name : String)
deriving Repr, DecidableEq

/-- A resolution: its steps, in order, and what it comes to or the failure that ends it. -/
abbrev Resolution := Account Resolution.Step Failure

/-- A resolution that goes on while a name is open; the name is closed whatever comes of it. -/
def Resolution.within {α : Type} (name : String) (inner : Resolution α) : Resolution α :=
  ⟨.opened name :: inner.notes ++ [.closed name], inner.outcome⟩

namespace Scope

/-- The variable that a declaration stands for, with its expanded value. -/
def declared (name value : String) (entry : Entry) (sheet : Sheet) : Variable :=
  { name, value
    kind := entry.kindFor name
    description := entry.description
    origin := .sheet sheet.name (sheet.lineOf name) }

/-- Resolves a name on a trail of open names that has room for some more. -/
def resolveFrom (scope : Scope) :
    (room : Nat) → (trail : List String) → (name : String) → (modifier : Option String) →
      Resolution Resolved
  | 0, trail, name, modifier => do
    let _ ← Account.ofExcept (vet trail name modifier)
    Account.fail (.tooDeep scope.limit (trail ++ [name]))
  | room + 1, trail, name, modifier => do
    let modifier ← Account.ofExcept (vet trail name modifier)
    match Builtin.ofName? name with
    | some builtin => return (Variable.ofBuiltin builtin scope.place).resolved modifier
    | none =>
      Resolution.within name <|
        match scope.catalogue.lookup name with
        | none => Account.fail (.undefined name (trail ++ [name]))
        | some (entry, sheet) => do
          let render := fun reference : Reference =>
            Resolved.rendered <$>
              scope.resolveFrom room (trail ++ [name]) reference.name reference.modifier
          let value ← expandValue render entry.value
          Account.noteAll [.found name sheet.name]
          return (declared name value entry sheet).resolved modifier

/-- Without room, what a name comes to is decided by the checks before it is looked up. -/
theorem outcome_resolveFrom_zero (scope : Scope) (trail : List String) (name : String)
    (modifier : Option String) :
    (scope.resolveFrom 0 trail name modifier).outcome =
      (vet trail name modifier).bind fun _ => .error (.tooDeep scope.limit (trail ++ [name])) :=
  Account.outcome_bind _ _

/-- With room, a name comes to the built-in variable, or to the declared one with its value expanded
    by what its references come to. -/
theorem outcome_resolveFrom_succ (scope : Scope) (room : Nat) (trail : List String) (name : String)
    (modifier : Option String) :
    (scope.resolveFrom (room + 1) trail name modifier).outcome =
      (vet trail name modifier).bind fun modifier =>
        match Builtin.ofName? name, scope.catalogue.lookup name with
        | some builtin, _ => .ok ((Variable.ofBuiltin builtin scope.place).resolved modifier)
        | none, none => .error (.undefined name (trail ++ [name]))
        | none, some (entry, sheet) =>
          let render := fun reference : Reference => Resolved.rendered <$>
            (scope.resolveFrom room (trail ++ [name]) reference.name reference.modifier).outcome
          (expandValue render entry.value).map fun value =>
            (declared name value entry sheet).resolved modifier := by
  rw [resolveFrom, Account.outcome_bind, Account.outcome_ofExcept]
  cases vet trail name modifier with
  | error => rfl
  | ok modifier =>
    cases builtin : Builtin.ofName? name with
    | some => simp [Bind.bind, Except.bind]
    | none =>
      cases declaration : scope.catalogue.lookup name with
      | none => simp [Bind.bind, Except.bind, Resolution.within]
      | some found =>
        show Account.outcome _ = _
        simp only [Resolution.within, Account.outcome_bind, outcome_expandValue,
          Account.outcome_map]
        cases expandValue (m := Except Failure) _ _ <;> rfl

end Scope

/-! ## The stack -/

namespace Resolution

/-- The steps of a resolution up to where a name is opened for which the stack has no room, as so many
    names are open; these are closed then.  None if there is room for every name. -/
def breakOff? (stack : Nat) : (names : List String) → List Step → Option (List Step)
  | _, [] => none
  | names, .opened name :: rest =>
    if names.length < stack then (breakOff? stack (name :: names) rest).map (.opened name :: ·)
    else some (names.map .closed)
  | names, .found name sheet :: rest => (breakOff? stack names rest).map (.found name sheet :: ·)
  | names, .closed name :: rest => (breakOff? stack names.tail rest).map (.closed name :: ·)

/-- A stack has room for all the names that are open at a time while a name is resolved. -/
def Fits {α : Type} (stack : Nat) (resolution : Resolution α) : Prop :=
  breakOff? stack [] resolution.notes = none

instance {α : Type} (stack : Nat) (resolution : Resolution α) : Decidable (resolution.Fits stack) :=
  inferInstanceAs (Decidable (_ = none))

/-- A resolution on a stack: what it comes to, unless it is broken off. -/
def onStack {α : Type} (stack : Nat) (resolution : Resolution α) :
    Account Step Fault (Except Failure α) :=
  match breakOff? stack [] resolution.notes with
  | none => ⟨resolution.notes, .ok resolution.outcome⟩
  | some steps => ⟨steps, .error .stackFull⟩

theorem outcome_onStack {α : Type} (stack : Nat) (resolution : Resolution α) :
    (resolution.onStack stack).outcome =
      if resolution.Fits stack then .ok resolution.outcome else .error .stackFull := by
  rw [onStack]
  cases broken : breakOff? stack [] resolution.notes with
  | none => exact (if_pos broken).symm
  | some steps =>
    have unfit : ¬ resolution.Fits stack := fun fits => Option.some_ne_none steps (broken.symm.trans fits)
    exact (if_neg unfit).symm

end Resolution

namespace Request

/-- How many open names the stack has room for.  Each of them takes three calls, and about forty calls are
    open around a resolution. -/
def stackRoom : Nat := (Stack.size - 40) / 3

/-- What the references of a request are resolved against, with the declarations of a catalogue. -/
def scope (request : Request) (catalogue : Catalogue) : Scope :=
  ⟨catalogue, request.place, request.limit⟩

/-- The resolution of a name with the declarations of a catalogue. -/
def resolution (request : Request) (catalogue : Catalogue) (name : String)
    (modifier : Option String) : Resolution Resolved :=
  (request.scope catalogue).resolveFrom request.room request.trail name modifier

/-- Resolves a name with the declarations of a catalogue, where the stack has room for every name. -/
def resolve (request : Request) (catalogue : Catalogue) (name : String) (modifier : Option String) :
    Except Failure Resolved :=
  (request.resolution catalogue name modifier).outcome

/-- Resolves a name with the declarations of a catalogue on a stack. -/
def resolveOn (stack : Nat) (request : Request) (catalogue : Catalogue) (name : String)
    (modifier : Option String) : Except Fault (Except Failure Resolved) :=
  ((request.resolution catalogue name modifier).onStack stack).outcome

/-- Whether the declarations are needed to resolve a name. -/
def needsCatalogue (request : Request) (name : String) (modifier : Option String) : Bool :=
  (vet request.trail name modifier).toOption.isSome && 0 < request.room &&
    (Builtin.ofName? name).isNone

/-- The text that stands for a reference: what it was resolved to, or a marker of the failure. -/
def render (request : Request) (catalogue : Catalogue) (name : String) (modifier : Option String) :
    String :=
  match request.resolve catalogue name modifier with
  | .ok resolved => resolved.rendered
  | .error failure => failure.marker

/-- The text with every reference replaced by the text that stands for it, each one resolved on its
    own, where the stack has room for every name. -/
def expand (request : Request) (catalogue : Catalogue) (text : String) : String :=
  String.ofList (Id.run (expandReferences
    (fun reference => pure (request.reset.render catalogue reference.name reference.modifier))
    text.toList))

end Request

end Marginalia
