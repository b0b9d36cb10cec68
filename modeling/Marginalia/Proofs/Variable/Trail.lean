import Marginalia.Proofs.Document.Refresh
import Marginalia.Proofs.Variable.Desk
import Marginalia.Proofs.Variable.Nesting

/-!
# The trail of open names

However the work on a name ends, the trail of open names is what it was.  Meanwhile it only grows by
names that are not on it, and not beyond the limit.  Work therefore comes to an end, and what it comes
to is what the engine says.
-/

namespace Marginalia

/-! ## Trails that there may be -/

/-- A trail that there may be while a request is worked on: that of the request with other names
    behind it, and no longer than the limit or that trail. -/
structure Request.Allows (request : Request) (trail : List String) : Prop where
  opened : ∃ names, trail = request.trail ++ names ∧ names.Nodup ∧
    ∀ name ∈ names, isValidName name = true ∧ Builtin.ofName? name = none ∧ name ∉ request.trail
  short : (trail.length : Int) ≤ max request.limit request.trail.length

namespace Request

variable {request : Request} {name : String}

/-- A name may be put on the trail. -/
structure IsOpenable (request : Request) (name : String) : Prop where
  valid : isValidName name = true
  declared : Builtin.ofName? name = none
  closed : name ∉ request.trail
  room : request.trail.length < request.limit

theorem allows_self (request : Request) : request.Allows request.trail :=
  ⟨⟨[], (List.append_nil _).symm, List.nodup_nil, fun _ member => absurd member List.not_mem_nil⟩,
    Int.le_max_right _ _⟩

theorem IsOpenable.allows (openable : request.IsOpenable name) {trail : List String}
    (allowed : (request.push name).Allows trail) : request.Allows trail := by
  obtain ⟨⟨names, rfl, distinct, plain⟩, short⟩ := allowed
  constructor
  case opened =>
    refine ⟨name :: names, List.append_assoc .., List.nodup_cons.mpr ⟨?_, distinct⟩, ?_⟩
    · intro again
      exact (plain name again).2.2 (List.mem_append_right _ (List.mem_singleton_self name))
    · intro other member
      rcases List.mem_cons.mp member with rfl | behind
      · exact ⟨openable.valid, openable.declared, openable.closed⟩
      · obtain ⟨valid, declared, closed⟩ := plain other behind
        exact ⟨valid, declared, fun isOpen => closed (List.mem_append_left _ isOpen)⟩
  case short =>
    have room := openable.room
    simp only [push, List.length_append, List.length_singleton] at short ⊢
    omega

theorem IsOpenable.room_push (openable : request.IsOpenable name) :
    request.room = (request.push name).room + 1 := by
  have room := openable.room
  simp only [Request.room, push, List.length_append, List.length_singleton]
  omega

theorem IsOpenable.room_push_lt (openable : request.IsOpenable name) {fuel : Nat}
    (enough : request.room < fuel + 1) : (request.push name).room < fuel := by
  rw [openable.room_push] at enough
  exact Nat.lt_of_succ_lt_succ enough

theorem pop_push (request : Request) (name : String) :
    (request.push name).pop name = .ok request := by
  simp [push, pop]

end Request

/-! ## What work comes to -/

namespace Work

variable {α β : Type} {engine after last : Engine} {request : Request}
  {notices others : List Notice}

/-- At every desk with an engine and a request the work ends in a way, with an engine and more
    notices, and with the request as it was; the trails on the way are allowed. -/
def Comes (work : Work α) (engine : Engine) (request : Request) (ending : Except Halt α)
    (after : Engine) (notices : List Notice) : Prop :=
  ∀ noticesBefore trailsBefore, ∃ trails, (∀ trail ∈ trails, request.Allows trail) ∧
    work ⟨engine, request, noticesBefore, trailsBefore⟩ =
      (ending, ⟨after, request, noticesBefore ++ notices, trailsBefore ++ trails⟩)

theorem comes_of_eq {work : Work α} {ending : Except Halt α}
    (equal : ∀ noticesBefore trailsBefore, work ⟨engine, request, noticesBefore, trailsBefore⟩ =
      (ending, ⟨after, request, noticesBefore ++ notices, trailsBefore⟩)) :
    work.Comes engine request ending after notices := by
  intro noticesBefore trailsBefore
  refine ⟨[], fun _ member => absurd member List.not_mem_nil, ?_⟩
  rw [equal, List.append_nil]

theorem comes_pure (result : α) :
    (pure result : Work α).Comes engine request (.ok result) engine [] :=
  comes_of_eq fun _ _ => by rw [List.append_nil]; rfl

theorem comes_request : Work.request.Comes engine request (.ok request) engine [] :=
  comes_of_eq fun _ _ => by rw [List.append_nil]; rfl

theorem comes_catalogue :
    Work.catalogue.Comes engine request (.ok engine.catalogue) engine [] :=
  comes_of_eq fun _ _ => by rw [List.append_nil]; rfl

theorem comes_notify (notice : Notice) :
    (notify notice).Comes engine request (.ok ()) engine [notice] :=
  comes_of_eq fun _ _ => rfl

theorem comes_freshen_ok {disk : Disk}
    (fresh : engine.freshen disk = ⟨notices, .ok after⟩) :
    (freshen disk).Comes engine request (.ok ()) after notices :=
  comes_of_eq fun _ _ => by simp only [freshen, fresh]

theorem comes_freshen_error {disk : Disk} {fault : Fault}
    (fails : engine.freshen disk = ⟨notices, .error fault⟩) :
    (freshen disk).Comes engine request (.error (.rebuild fault)) engine notices :=
  comes_of_eq fun _ _ => by simp only [freshen, fails]

theorem Comes.bind {work : Work α} {next : α → Work β} {result : α} {ending : Except Halt β}
    (first : work.Comes engine request (.ok result) after notices)
    (second : (next result).Comes after request ending last others) :
    (work >>= next).Comes engine request ending last (notices ++ others) := by
  intro noticesBefore trailsBefore
  obtain ⟨trails, allowed, equal⟩ := first noticesBefore trailsBefore
  obtain ⟨more, moreAllowed, moreEqual⟩ := second (noticesBefore ++ notices) (trailsBefore ++ trails)
  refine ⟨trails ++ more, List.forall_mem_append.mpr ⟨allowed, moreAllowed⟩, ?_⟩
  rw [bind_of_ok next equal, ← List.append_assoc, ← List.append_assoc]
  exact moreEqual

theorem Comes.bind_silent {work : Work α} {next : α → Work β} {result : α} {ending : Except Halt β}
    (first : work.Comes engine request (.ok result) after [])
    (second : (next result).Comes after request ending last notices) :
    (work >>= next).Comes engine request ending last notices :=
  first.bind second

theorem Comes.bind_pure {work : Work α} {next : α → Work β} {result : α} {answer : β}
    (first : work.Comes engine request (.ok result) after notices)
    (isPure : next result = pure answer) :
    (work >>= next).Comes engine request (.ok answer) after notices := by
  have second : (next result).Comes after request (.ok answer) after [] := isPure ▸ comes_pure answer
  rw [← List.append_nil notices]
  exact first.bind second

theorem Comes.bind_error {work : Work α} (next : α → Work β) {halt : Halt}
    (ends : work.Comes engine request (.error halt) after notices) :
    (work >>= next).Comes engine request (.error halt) after notices := by
  intro noticesBefore trailsBefore
  obtain ⟨trails, allowed, equal⟩ := ends noticesBefore trailsBefore
  exact ⟨trails, allowed, bind_of_error next equal⟩

theorem pop_push (engine : Engine) (request : Request) (name : String) (notices : List Notice)
    (trails : List (List String)) :
    pop name ⟨engine, request.push name, notices, trails⟩ =
      (.ok (), ⟨engine, request, notices, trails ++ [request.trail]⟩) :=
  pop_of_ok (request.pop_push name)

/-- Work with one more name on the trail keeps the trail, and the name is found at its end when it is
    taken off. -/
theorem Comes.within {work : Work α} {name : String} {ending : Except Halt α}
    (openable : request.IsOpenable name)
    (inner : work.Comes engine (request.push name) ending after notices) :
    (within name work).Comes engine request ending after notices := by
  intro noticesBefore trailsBefore
  obtain ⟨trails, allowed, equal⟩ :=
    inner noticesBefore (trailsBefore ++ [(request.push name).trail])
  refine ⟨(request.push name).trail :: trails ++ [request.trail], ?_, ?_⟩
  · intro trail member
    rcases List.mem_append.mp member with during | atEnd
    · rcases List.mem_cons.mp during with rfl | behind
      · exact openable.allows (Request.allows_self _)
      · exact openable.allows (allowed trail behind)
    · rw [List.mem_singleton.mp atEnd]
      exact request.allows_self
  · show followedBy work (pop name) _ = _
    rw [followedBy_of_ok equal (pop_push ..), List.append_assoc, List.append_assoc]
    rfl

end Work

/-! ## Expanding values -/

theorem Engine.noticesOf_append (steps more : List Resolution.Step) :
    noticesOf (steps ++ more) = noticesOf steps ++ noticesOf more :=
  List.filterMap_append

theorem Engine.noticesOf_within {α : Type} (name : String) (inner : Resolution α) :
    noticesOf (Resolution.within name inner).notes = noticesOf inner.notes := by
  show noticesOf (inner.notes ++ [.closed name]) = _
  rw [noticesOf_append]
  exact List.append_nil _

open Engine (noticesOf)

namespace Work

variable {α β : Type} {engine : Engine} {request : Request}

/-- Work comes to what a resolution comes to, with the notices of its steps. -/
def Mirrors (engine : Engine) (request : Request) (work : ExceptT Failure Work α)
    (resolution : Resolution α) : Prop :=
  Work.Comes work engine request (.ok resolution.outcome) engine (noticesOf resolution.notes)

theorem mirrors_pure (result : α) : Mirrors engine request (pure result) (pure result) :=
  comes_pure _

theorem Mirrors.bind {work : ExceptT Failure Work α} {resolution : Resolution α}
    {next : α → ExceptT Failure Work β} {nextResolution : α → Resolution β}
    (first : Mirrors engine request work resolution)
    (second : ∀ result, Mirrors engine request (next result) (nextResolution result)) :
    Mirrors engine request (work >>= next) (resolution >>= nextResolution) := by
  rw [Mirrors] at first ⊢
  rw [Account.outcome_bind]
  cases outcome : resolution.outcome with
  | error failure =>
    rw [outcome] at first
    rw [Account.notes_bind_error outcome]
    exact first.bind_pure rfl
  | ok result =>
    rw [outcome] at first
    rw [Account.notes_bind_ok outcome, Engine.noticesOf_append]
    exact first.bind (second result)

theorem mirrors_replaceReferences {render : Reference → ExceptT Failure Work String}
    {resolution : Reference → Resolution String}
    (each : ∀ reference, Mirrors engine request (render reference) (resolution reference))
    (text : List Char) (references : List Reference) :
    Mirrors engine request (replaceReferences render text references)
      (replaceReferences resolution text references) := by
  induction references generalizing text with
  | nil => exact mirrors_pure text
  | cons reference rest ih => exact (each reference).bind fun _ => ih _

theorem mirrors_expandValue {render : Reference → ExceptT Failure Work String}
    {resolution : Reference → Resolution String}
    (each : ∀ reference, Mirrors engine request (render reference) (resolution reference))
    (value : String) :
    Mirrors engine request (expandValue render value) (expandValue resolution value) := by
  unfold expandValue
  split
  · have replaced := mirrors_replaceReferences each (hideEscapes value.toList)
      (referencesToExpand value.toList)
    exact (replaced.bind fun _ => mirrors_pure _).bind fun _ => mirrors_pure _
  · exact mirrors_pure value

/-! ## Resolving a name -/

/-- Work comes to the answer that says what a resolution comes to, with the notices of its steps. -/
def Answers (engine : Engine) (request : Request) (work : Work Answer)
    (resolution : Resolution Resolved) : Prop :=
  work.Comes engine request (.ok (.ofOutcome resolution.outcome)) engine
    (noticesOf resolution.notes)

theorem Answers.text {work : Work Answer} {resolution : Resolution Resolved}
    (answers : Answers engine request work resolution) :
    Mirrors engine request (ExceptT.mk (work >>= Answer.text)) (Resolved.rendered <$> resolution) := by
  rw [Answers] at answers
  rw [Mirrors, ← bind_pure_comp, Account.outcome_bind]
  cases outcome : resolution.outcome with
  | error failure =>
    rw [outcome] at answers
    rw [Account.notes_bind_error outcome]
    exact answers.bind_pure rfl
  | ok resolved =>
    rw [outcome] at answers
    rw [Account.notes_bind_ok outcome, Engine.noticesOf_append]
    exact answers.bind (comes_pure _)

end Work

namespace Scope

/-- What a name that is on the trail comes to. -/
def settle (scope : Scope) (nested : Reference → Resolution Resolved) (trail : List String)
    (name : String) (modifier : Option Modifier) : Resolution Resolved :=
  match scope.catalogue.lookup name with
  | none => Account.fail (.undefined name trail)
  | some (entry, sheet) => do
    let value ← expandValue (fun reference => Resolved.rendered <$> nested reference) entry.value
    Account.noteAll [.found name sheet.name]
    return (declared name value entry sheet).resolved modifier

variable {scope : Scope} {trail : List String} {name : String} {modifier : Option String}

theorem resolveFrom_declared {read : Option Modifier} (room : Nat)
    (passes : vet trail name modifier = .ok read) (declared : Builtin.ofName? name = none) :
    scope.resolveFrom (room + 1) trail name modifier =
      Resolution.within name (scope.settle (fun reference =>
        scope.resolveFrom room (trail ++ [name]) reference.name reference.modifier)
          (trail ++ [name]) name read) := by
  rw [resolveFrom, passes, declared]
  rfl

end Scope

namespace Work

variable {engine : Engine} {request : Request}

theorem comes_lookUp {answer : Reference → Work Answer} {nested : Reference → Resolution Resolved}
    (each : ∀ reference, Answers engine request (answer reference) (nested reference))
    (name : String) (modifier : Option Modifier) :
    let settled := (request.scope engine.catalogue).settle nested request.trail name modifier
    ∃ found, (lookUp answer name).Comes engine request (.ok found) engine
        (noticesOf settled.notes) ∧
      found.withModifier modifier = .ofOutcome settled.outcome := by
  intro settled
  cases found : engine.catalogue.lookup name with
  | none =>
    have undeclared : settled = Account.fail (.undefined name request.trail) := by
      simp only [settled, Scope.settle, Request.scope, found]
    rw [undeclared]
    refine ⟨.ofFailure (.undefined name request.trail), ?_, rfl⟩
    refine comes_catalogue.bind_silent ?_
    rw [found]
    exact comes_request.bind_pure rfl
  | some declaration =>
    obtain ⟨entry, sheet⟩ := declaration
    let expansion := expandValue (fun reference => Resolved.rendered <$> nested reference) entry.value
    have expanded : settled = expansion >>= fun value => do
        Account.noteAll [.found name sheet.name]
        return (Scope.declared name value entry sheet).resolved modifier := by
      simp only [settled, Scope.settle, Request.scope, found, expansion]
    have comes : (expandStrict answer entry.value).Comes engine request (.ok expansion.outcome) engine
        (noticesOf expansion.notes) := mirrors_expandValue (fun reference => (each reference).text) _
    rw [expanded]
    -- A value that cannot be expanded leaves no notice of its own.
    cases outcome : expansion.outcome with
    | error failure =>
      rw [outcome] at comes
      refine ⟨.ofFailure failure, ?_, ?_⟩
      · rw [Account.notes_bind_error outcome]
        refine comes_catalogue.bind_silent ?_
        rw [found]
        exact comes.bind_pure rfl
      · rw [Account.outcome_bind, outcome]
        rfl
    | ok value =>
      rw [outcome] at comes
      refine ⟨.ofVariable (Scope.declared name value entry sheet), ?_, ?_⟩
      · rw [Account.notes_bind_ok outcome, Engine.noticesOf_append]
        refine comes_catalogue.bind_silent ?_
        rw [found]
        exact comes.bind ((comes_notify _).bind (comes_pure _))
      · rw [Account.outcome_bind, outcome]
        cases modifier <;> rfl

/-- A reference whose name needs the catalogue: the checks pass, and a declared name may be put on the
    trail. -/
theorem isOpenable_of_needsCatalogue {name : String} {modifier : Option String}
    (needs : request.needsCatalogue name modifier = true) :
    (∃ read, vet request.trail name modifier = .ok read) ∧ request.IsOpenable name := by
  obtain ⟨wellFormed, closed, room, declared⟩ := (request.needsCatalogue_iff _ _).mp needs
  rw [Request.room] at room
  exact ⟨(vet_ok_iff _ _ _).mpr ⟨wellFormed, closed⟩, wellFormed.name, declared, closed, by omega⟩

/-- Where the catalogue is not needed, the answer is the same with any, and the trail is left alone. -/
theorem comes_resolve_unneeded {name : String} {modifier : Option String}
    (unneeded : request.needsCatalogue name modifier = false) (disk : Disk) (fuel : Nat)
    (catalogue : Catalogue) :
    (resolve disk (fuel + 1) name modifier).Comes engine request
      (.ok (.ofOutcome (request.resolution catalogue name modifier).outcome)) engine
      (noticesOf (request.resolution catalogue name modifier).notes) := by
  refine comes_request.bind_silent ?_
  rw [Request.resolution]
  cases checked : vet request.trail name modifier with
  | error failure =>
    rw [Scope.resolveFrom_of_vet_error _ checked]
    exact comes_pure _
  | ok read =>
    show Comes (if request.limit ≤ request.trail.length then _ else _) _ _ _ _ _
    by_cases full : request.limit ≤ request.trail.length
    · have room : request.room = 0 := by
        rw [Request.room]
        omega
      rw [if_pos full, room, Scope.resolveFrom_zero checked]
      exact comes_pure _
    · obtain ⟨room, hasRoom⟩ : ∃ room, request.room = room + 1 := by
        refine Nat.exists_eq_succ_of_ne_zero ?_
        rw [Request.room]
        omega
      cases isBuiltin : Builtin.ofName? name with
      | none =>
        simp [Request.needsCatalogue, checked, hasRoom, isBuiltin, Except.toOption] at unneeded
      | some builtin =>
        rw [if_neg full, hasRoom, Scope.resolveFrom_builtin room checked isBuiltin]
        exact comes_pure _

/-- Where the catalogue is needed, the name is on the trail while the catalogue is read again and the
    name is looked up. -/
theorem comes_resolve_needed {name : String} {modifier : Option String}
    (needs : request.needsCatalogue name modifier = true) (disk : Disk) (fuel : Nat) :
    ∃ read, vet request.trail name modifier = .ok read ∧ ∀ ending after notices,
      ((do
        freshen disk
        lookUp (fun reference => resolve disk fuel reference.name reference.modifier) name).Comes
          engine (request.push name) ending after notices) →
      (resolve disk (fuel + 1) name modifier).Comes engine request
        (ending.map (Answer.withModifier read)) after notices := by
  obtain ⟨⟨read, passes⟩, openable⟩ := isOpenable_of_needsCatalogue needs
  refine ⟨read, passes, fun ending after notices comes => ?_⟩
  have room : ¬ request.limit ≤ request.trail.length := Int.not_le.mpr openable.room
  refine comes_request.bind_silent ?_
  rw [passes]
  show Comes (if request.limit ≤ request.trail.length then _ else _) _ _ _ _ _
  rw [if_neg room, openable.declared]
  cases ending with
  | error halt => exact (comes.within openable).bind_error _
  | ok answer => exact (comes.within openable).bind_pure rfl

theorem comes_resolve_fresh {name : String} {modifier : Option String} {disk : Disk} {fuel : Nat}
    {after : Engine} {notices : List Notice}
    (needs : request.needsCatalogue name modifier = true)
    (fresh : engine.freshen disk = ⟨notices, .ok after⟩)
    (nested : ∀ other modifier, Answers after (request.push name) (resolve disk fuel other modifier)
      ((request.push name).resolution after.catalogue other modifier)) :
    (resolve disk (fuel + 1) name modifier).Comes engine request
      (.ok (.ofOutcome (request.resolution after.catalogue name modifier).outcome)) after
      (notices ++ noticesOf (request.resolution after.catalogue name modifier).notes) := by
  obtain ⟨read, passes, comes⟩ := @comes_resolve_needed engine _ _ _ needs disk fuel
  obtain ⟨_, openable⟩ := isOpenable_of_needsCatalogue needs
  obtain ⟨found, looksUp, rendered⟩ := comes_lookUp (fun reference =>
    nested reference.name reference.modifier) name read
  have settled : request.resolution after.catalogue name modifier = Resolution.within name
      (((request.push name).scope after.catalogue).settle (fun reference =>
        (request.push name).resolution after.catalogue reference.name reference.modifier)
          (request.push name).trail name read) := by
    rw [Request.resolution, openable.room_push]
    exact Scope.resolveFrom_declared _ passes openable.declared
  rw [settled, Engine.noticesOf_within]
  show Comes _ _ _ (.ok (Answer.ofOutcome (Account.outcome (Scope.settle _ _ _ _ _)))) _ _
  rw [← rendered]
  exact comes _ _ _ ((comes_freshen_ok fresh).bind looksUp)

/-- With a catalogue that is not stale, work that may be nested deeper than names may be opened comes
    to the answer of the resolution. -/
theorem answers_resolve (fresh : engine.catalogue.isStale = false) (disk : Disk) {fuel : Nat}
    (enough : request.room < fuel) (name : String) (modifier : Option String) :
    Answers engine request (resolve disk fuel name modifier)
      (request.resolution engine.catalogue name modifier) := by
  induction fuel generalizing request name modifier with
  | zero => exact absurd enough (Nat.not_lt_zero _)
  | succ fuel ih =>
    cases needs : request.needsCatalogue name modifier with
    | false => exact comes_resolve_unneeded needs disk fuel engine.catalogue
    | true =>
      obtain ⟨_, openable⟩ := isOpenable_of_needsCatalogue needs
      -- One name more is open below, so there is room for one less.
      exact comes_resolve_fresh needs (Engine.freshen_of_fresh fresh disk)
        (ih (openable.room_push_lt enough))

/-- How work on a name ends, by the report of the engine. -/
def endingOf (report : Report (Engine × Except Failure Resolved)) : Except Halt Answer :=
  match report.outcome with
  | .ok (_, outcome) => .ok (.ofOutcome outcome)
  | .error fault => .error (.rebuild fault)

/-- The engine behind work on a name, by its report; the same as before if there was a fault. -/
def engineBehind (engine : Engine) (report : Report (Engine × Except Failure Resolved)) : Engine :=
  match report.outcome with
  | .ok (after, _) => after
  | .error _ => engine

theorem comes_resolve (disk : Disk) {fuel : Nat} (enough : request.room < fuel) (name : String)
    (modifier : Option String) :
    let report := engine.resolve disk request name modifier
    (resolve disk fuel name modifier).Comes engine request (endingOf report)
      (engineBehind engine report) report.notes := by
  intro report
  obtain ⟨fuel, rfl⟩ := Nat.exists_eq_succ_of_ne_zero (Nat.ne_zero_of_lt enough)
  cases needs : request.needsCatalogue name modifier with
  | false =>
    have reported : report = ⟨noticesOf (request.resolution engine.catalogue name modifier).notes,
        .ok (engine, (request.resolution engine.catalogue name modifier).outcome)⟩ := by
      rw [show report = _ from Engine.resolve_eq .., needs]
      rfl
    rw [reported]
    exact comes_resolve_unneeded needs disk fuel engine.catalogue
  | true =>
    cases freshened : engine.freshen disk with | mk notices outcome =>
    cases outcome with
    | error fault =>
      have reported : report = ⟨notices, .error fault⟩ := by
        rw [show report = _ from Engine.resolve_eq .., needs, Engine.prepare, if_pos rfl, freshened]
        rfl
      obtain ⟨read, _, comes⟩ := @comes_resolve_needed engine _ _ _ needs disk fuel
      rw [reported]
      exact comes _ _ _ ((comes_freshen_error freshened).bind_error _)
    | ok after =>
      have reported : report = ⟨notices ++ noticesOf (request.resolution after.catalogue name modifier).notes,
          .ok (after, (request.resolution after.catalogue name modifier).outcome)⟩ := by
        rw [show report = _ from Engine.resolve_eq .., needs, Engine.prepare, if_pos rfl, freshened]
        rfl
      -- From here on nothing is read again, so the references are answered from one catalogue.
      have fresh : after.catalogue.isStale = false := by
        refine (@Engine.isFresh_of_freshen engine _ disk ?_).1
        rw [freshened]
      obtain ⟨_, openable⟩ := isOpenable_of_needsCatalogue needs
      have nested := answers_resolve fresh disk (openable.room_push_lt enough)
      rw [reported]
      exact comes_resolve_fresh needs freshened nested

/-- What holds when work on a name, begun at a desk, is at an end. -/
structure KeepsTrail (disk : Disk) (before : Desk) (name : String) (modifier : Option String)
    (ending : Except Halt Answer) (later : Desk) : Prop where
  restored : later.request = before.request
  trails : ∃ trails, later.trails = before.trails ++ trails ∧
    ∀ trail ∈ trails, before.request.Allows trail
  finished : ending ≠ .error .unfinished
  /-- Only the last name of the trail is ever taken off. -/
  inOrder : ∀ fault, ending ≠ .error (.pop fault)
  tagged : ∀ answer, ending = .ok answer → answer.IsTagged
  /-- The answer, the engine and the notices are those that the engine reports. -/
  agrees :
    let report := before.engine.resolve disk before.request name modifier
    ending = endingOf report ∧ later.engine = engineBehind before.engine report ∧
      later.notices = before.notices ++ report.notes

/-- Work on a name comes to an end at every desk, whatever the catalogue declares and however many
    names are open, and keeps the trail.  It is enough to look at work that is nested as deep as names
    may be opened. -/
theorem keepsTrail_resolve (disk : Disk) (desk : Desk) (name : String) (modifier : Option String)
    (extra : Nat) :
    let run := resolve disk (desk.request.room + 1 + extra) name modifier desk
    KeepsTrail disk desk name modifier run.1 run.2 := by
  intro run
  have enough : desk.request.room < desk.request.room + 1 + extra := by omega
  obtain ⟨trails, allowed, ends⟩ :=
    @comes_resolve desk.engine desk.request disk _ enough name modifier desk.notices desk.trails
  have same : run = _ := ends
  rw [same]
  constructor
  case restored => rfl
  case trails => exact ⟨trails, rfl, allowed⟩
  case agrees => exact ⟨rfl, rfl, rfl⟩
  all_goals
    simp only [endingOf]
    cases (desk.engine.resolve disk desk.request name modifier).outcome with
    | error fault => simp
    | ok result => simp [Answer.isTagged_ofOutcome]

-- Two names that refer to each other, with another one open before: the trail grows until the first of
-- them is met again, and shrinks on the way to the failure.
example :
    let entries := [("LEFT", { value := "$RIGHT" }), ("RIGHT", { value := "$LEFT" })]
    let catalogue : Catalogue := { sheets := [⟨"file:///s", "s", "", entries⟩], isStale := false }
    let desk : Desk := ⟨⟨{}, .opened {}, catalogue⟩, ⟨10, none, ["OUTER"]⟩, [], []⟩
    (resolve {} 11 "LEFT" none desk).2.trails =
      [["OUTER", "LEFT"], ["OUTER", "LEFT", "RIGHT"], ["OUTER", "LEFT"], ["OUTER"]] := by
  decide +kernel

end Work

end Marginalia
