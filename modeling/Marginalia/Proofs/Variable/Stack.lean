import Marginalia.Proofs.Variable.Reachability

/-!
# Names that the stack has room for

A resolution opens names within names and closes them again, also where it is broken off, so that its
steps need a certain room on the stack, whatever is open before them.  They never need more room than the
request allows names to be open, and a resolution that succeeds goes along every chain of references: it
needs room for as many names as the longest chain has that are declared.
-/

namespace Marginalia

/-! ## The room that steps need -/

namespace Resolution

/-- The names that are open behind some steps, if some are in front of them, the last one first. -/
def openBehind : List String → List Step → List String
  | names, [] => names
  | names, .opened name :: rest => openBehind (name :: names) rest
  | names, .found _ _ :: rest => openBehind names rest
  | names, .closed _ :: rest => openBehind names.tail rest

theorem openBehind_append (names : List String) (front back : List Step) :
    openBehind names (front ++ back) = openBehind (openBehind names front) back := by
  induction front generalizing names with
  | nil => rfl
  | cons step front ih => cases step <;> exact ih _

/-- Some steps open `depth` names within each other on the way, and leave open what was open before. -/
structure Needs (steps : List Step) (depth : Nat) : Prop where
  breakOff_iff : ∀ stack names rest, breakOff? stack names (steps ++ rest) = none ↔
    depth ≤ stack - names.length ∧ breakOff? stack names rest = none
  leaves : ∀ names, openBehind names steps = names

variable {α β : Type} {steps more : List Step} {depth further stack : Nat}

theorem needs_nil : Needs [] 0 :=
  ⟨fun _ _ _ => (and_iff_right (Nat.zero_le _)).symm, fun _ => rfl⟩

theorem needs_found (name sheet : String) : Needs [.found name sheet] 0 := by
  refine ⟨fun stack names rest => ?_, fun _ => rfl⟩
  rw [and_iff_right (Nat.zero_le _)]
  exact Option.map_eq_none_iff

theorem Needs.append (first : Needs steps depth) (second : Needs more further) :
    Needs (steps ++ more) (max depth further) := by
  constructor
  case breakOff_iff =>
    intro stack names rest
    rw [List.append_assoc, first.breakOff_iff, second.breakOff_iff, ← and_assoc, Nat.max_le]
  case leaves =>
    intro names
    rw [openBehind_append, first.leaves, second.leaves]

theorem Needs.within {resolution : Resolution α} (inside : Needs resolution.notes depth)
    (name : String) : Needs (resolution.within name).notes (depth + 1) := by
  have whole : (resolution.within name).notes = .opened name :: (resolution.notes ++ [.closed name]) := by
    simp [Resolution.within]
  rw [whole]
  constructor
  case breakOff_iff =>
    intro stack names rest
    rw [List.cons_append, List.append_assoc, List.singleton_append, breakOff?]
    split
    next roomy =>
      -- Behind the steps inside, the name itself is closed, and what was open before is open again.
      rw [Option.map_eq_none_iff, inside.breakOff_iff, List.length_cons, breakOff?,
        Option.map_eq_none_iff, List.tail_cons]
      refine and_congr_left fun _ => ?_
      omega
    next full =>
      refine iff_of_false (Option.some_ne_none _) fun both => ?_
      have fits := both.1
      omega
  case leaves =>
    intro names
    rw [openBehind, openBehind_append, inside.leaves]
    rfl

theorem fits_iff_of_needs {resolution : Resolution α} (needs : Needs resolution.notes depth) :
    resolution.Fits stack ↔ depth ≤ stack := by
  have whole := needs.breakOff_iff stack [] []
  rw [List.append_nil] at whole
  exact whole.trans (and_iff_left rfl)

/-- Steps that are broken off are so at a name for which there is no room, and what is open is closed. -/
theorem exists_of_breakOff? {names : List String} {ended : List Step}
    (broken : breakOff? stack names steps = some ended) :
    ∃ front name back, steps = front ++ .opened name :: back ∧
      stack ≤ (openBehind names front).length ∧
      ended = front ++ (openBehind names front).map .closed := by
  induction steps generalizing names ended with
  | nil => cases broken
  | cons step rest ih =>
    -- A step in front of where the rest is broken off stays in front.
    have behind {others : List String} (same : ∀ front, openBehind names (step :: front) =
        openBehind others front) (later : (breakOff? stack others rest).map (step :: ·) = some ended) :
        ∃ front name back, step :: rest = front ++ .opened name :: back ∧
          stack ≤ (openBehind names front).length ∧
          ended = front ++ (openBehind names front).map .closed := by
      obtain ⟨tail, brokenLater, rfl⟩ := Option.map_eq_some_iff.mp later
      obtain ⟨front, name, back, rfl, full, rfl⟩ := ih brokenLater
      exact ⟨step :: front, name, back, rfl, by rwa [same], by rw [same]; rfl⟩
    cases step with
    | opened name =>
      rw [breakOff?] at broken
      split at broken
      next => exact behind (fun _ => rfl) broken
      next full =>
        cases broken
        exact ⟨[], name, rest, rfl, Nat.not_lt.mp full, rfl⟩
    | found name sheet => exact behind (fun _ => rfl) broken
    | closed name => exact behind (fun _ => rfl) broken

theorem openBehind_map_closed (names : List String) : openBehind names (names.map .closed) = [] := by
  induction names with
  | nil => rfl
  | cons name names ih => exact ih

/-- A resolution leaves no name open, also where it is broken off. -/
theorem openBehind_onStack {resolution : Resolution α} (needs : Needs resolution.notes depth) :
    openBehind [] (resolution.onStack stack).notes = [] := by
  rw [onStack]
  cases broken : breakOff? stack [] resolution.notes with
  | none => exact needs.leaves []
  | some ended =>
    obtain ⟨front, name, back, _, _, rfl⟩ := exists_of_breakOff? broken
    rw [openBehind_append, openBehind_map_closed]

/-! ## Resolutions of parts -/

/-- A resolution needs no more than some room, and if it succeeds, the rooms that are enough for it are
    known. -/
def Takes (resolution : Resolution α) (room : Nat) (enough : Nat → Prop) : Prop :=
  ∃ depth ≤ room, Needs resolution.notes depth ∧
    ∀ result, resolution.outcome = .ok result → ∀ stack, depth ≤ stack ↔ enough stack

variable {resolution : Resolution α} {next : α → Resolution β} {room : Nat}
  {enough also : Nat → Prop}

theorem takes_pure (result : α) (room : Nat) (all : ∀ stack, enough stack) :
    (pure result : Resolution α).Takes room enough :=
  ⟨0, Nat.zero_le _, needs_nil, fun _ _ stack => iff_of_true (Nat.zero_le _) (all stack)⟩

theorem takes_found (name sheet : String) (room : Nat) :
    Takes (Account.noteAll [.found name sheet]) room fun _ => True :=
  ⟨0, Nat.zero_le _, needs_found name sheet, fun _ _ _ => iff_of_true (Nat.zero_le _) trivial⟩

theorem takes_fail (failure : Failure) (room : Nat) (enough : Nat → Prop) :
    Takes (Account.fail failure : Resolution α) room enough :=
  ⟨0, Nat.zero_le _, needs_nil, fun _ succeeds => nomatch succeeds⟩

theorem Takes.congr (takes : resolution.Takes room enough)
    (same : ∀ stack, enough stack ↔ also stack) : resolution.Takes room also := by
  obtain ⟨depth, bounded, needs, exact⟩ := takes
  exact ⟨depth, bounded, needs, fun result succeeds stack => (exact result succeeds stack).trans (same stack)⟩

theorem Takes.bind (first : resolution.Takes room enough)
    (second : ∀ result, (next result).Takes room also) :
    (resolution >>= next).Takes room fun stack => enough stack ∧ also stack := by
  obtain ⟨depth, bounded, needs, exact⟩ := first
  cases outcome : resolution.outcome with
  | error failure =>
    refine ⟨depth, bounded, ?_, fun result succeeds => ?_⟩
    · rw [Account.notes_bind_error outcome]
      exact needs
    · rw [Account.outcome_bind, outcome] at succeeds
      cases succeeds
  | ok middle =>
    obtain ⟨further, furtherBounded, furtherNeeds, furtherExact⟩ := second middle
    refine ⟨max depth further, Nat.max_le.mpr ⟨bounded, furtherBounded⟩, ?_, fun result succeeds stack => ?_⟩
    · rw [Account.notes_bind_ok outcome]
      exact needs.append furtherNeeds
    · rw [Account.outcome_bind, outcome] at succeeds
      rw [Nat.max_le, exact middle outcome, furtherExact result succeeds]

theorem Takes.map (change : α → β) (takes : resolution.Takes room enough) :
    (change <$> resolution).Takes room enough := by
  rw [← bind_pure_comp]
  exact (takes.bind fun result => takes_pure (change result) room fun _ => trivial).congr
    fun _ => and_iff_left trivial

theorem Takes.within (inside : resolution.Takes room enough) (name : String) :
    (resolution.within name).Takes (room + 1) fun stack => ∃ less, stack = less + 1 ∧ enough less := by
  obtain ⟨depth, bounded, needs, exact⟩ := inside
  refine ⟨depth + 1, Nat.succ_le_succ bounded, needs.within name, fun result succeeds stack => ?_⟩
  have same := exact result succeeds
  constructor
  · intro roomy
    obtain ⟨less, rfl⟩ := Nat.exists_eq_add_of_le' (Nat.le_of_add_left_le roomy)
    exact ⟨less, rfl, (same less).mp (Nat.le_of_succ_le_succ roomy)⟩
  · rintro ⟨less, rfl, fits⟩
    exact Nat.succ_le_succ ((same less).mpr fits)

section

variable {render : Reference → Resolution String} {fits : String → Nat → Prop}

theorem takes_replaceReferences (each : ∀ reference, (render reference).Takes room (fits reference.name))
    (text : List Char) (references : List Reference) :
    Takes (replaceReferences render text references) room fun stack =>
      ∀ reference ∈ references, fits reference.name stack := by
  induction references generalizing text with
  | nil => exact takes_pure text room fun _ _ member => absurd member List.not_mem_nil
  | cons reference rest ih =>
    refine ((each reference).bind fun _ => ih _).congr fun stack => ?_
    rw [List.forall_mem_cons]

theorem takes_expandValue (each : ∀ reference, (render reference).Takes room (fits reference.name))
    (value : String) :
    Takes (expandValue render value) room fun stack =>
      ∀ reference ∈ referencesIn value.toList, fits reference.name stack := by
  unfold expandValue
  split
  · have replaced := takes_replaceReferences each (hideEscapes value.toList)
      (referencesToExpand value.toList)
    have same (stack : Nat) := @forall_referencesToExpand value.toList fun name _ => fits name stack
    exact ((replaced.map showEscapes).map String.ofList).congr same
  next plain =>
    refine takes_pure value room fun stack reference member => ?_
    rw [referencesIn_of_notMem (by simpa using plain)] at member
    cases member

end

end Resolution

/-! ## Chains of declared names -/

namespace Catalogue

variable {catalogue : Catalogue} {stack : Nat} {name : String}

/-- No chain of references from a name has more names than `stack`, if none of them is that of a built-in
    variable. -/
def NestsWithin (catalogue : Catalogue) (stack : Nat) (name : String) : Prop :=
  ∀ chain, List.IsChain catalogue.Refers (name :: chain) →
    (∀ other ∈ name :: chain, Builtin.ofName? other = none) → (name :: chain).length ≤ stack

theorem nestsWithin_builtin {builtin : Builtin} (isBuiltin : Builtin.ofName? name = some builtin)
    (stack : Nat) : catalogue.NestsWithin stack name := by
  intro chain _ declared
  cases (declared name List.mem_cons_self).symm.trans isBuiltin

theorem nestsWithin_declared_iff (declared : Builtin.ofName? name = none) :
    catalogue.NestsWithin stack name ↔ ∃ less, stack = less + 1 ∧
      ∀ reference ∈ catalogue.referencesOf name, catalogue.NestsWithin less reference.name := by
  constructor
  · intro nests
    have one := nests [] (List.isChain_singleton name) (by simpa using declared)
    obtain ⟨less, rfl⟩ := Nat.exists_eq_add_of_le' one
    refine ⟨less, rfl, fun reference member chain isChain others => ?_⟩
    have longer := nests (reference.name :: chain)
      (List.isChain_cons_cons.mpr ⟨⟨reference, member, rfl⟩, isChain⟩)
      (List.forall_mem_cons.mpr ⟨declared, others⟩)
    exact Nat.le_of_succ_le_succ longer
  · rintro ⟨less, rfl, each⟩ chain isChain others
    cases chain with
    | nil => exact Nat.succ_le_succ (Nat.zero_le less)
    | cons next chain =>
      obtain ⟨⟨reference, member, rfl⟩, rest⟩ := List.isChain_cons_cons.mp isChain
      exact Nat.succ_le_succ (each reference member chain rest (List.forall_mem_cons.mp others).2)

theorem Resolvable.nestsWithin {limit : Int} {modifier : Option String}
    (resolvable : catalogue.Resolvable limit name modifier) (roomy : limit ≤ stack) :
    catalogue.NestsWithin stack name := by
  intro chain isChain _
  have short := resolvable.short chain isChain
  omega

end Catalogue

/-! ## Resolving a name -/

namespace Scope

open Resolution

/-- A name takes no more than the room for names to be opened, and if it is resolved, as much as the
    chains of references from it. -/
theorem takes_resolveFrom (scope : Scope) (room : Nat) (trail : List String) (name : String)
    (modifier : Option String) :
    (scope.resolveFrom room trail name modifier).Takes room fun stack =>
      scope.catalogue.NestsWithin stack name := by
  induction room generalizing trail name modifier with
  | zero =>
    cases checked : vet trail name modifier with
    | error failure =>
      rw [resolveFrom_of_vet_error 0 checked]
      exact takes_fail failure 0 _
    | ok read =>
      rw [resolveFrom_zero checked]
      exact takes_fail _ 0 _
  | succ room ih =>
    cases checked : vet trail name modifier with
    | error failure =>
      rw [resolveFrom_of_vet_error (room + 1) checked]
      exact takes_fail failure _ _
    | ok read =>
      cases isBuiltin : Builtin.ofName? name with
      | some builtin =>
        rw [resolveFrom_builtin room checked isBuiltin]
        exact takes_pure _ _ fun stack => Catalogue.nestsWithin_builtin isBuiltin stack
      | none =>
        simp only [Catalogue.nestsWithin_declared_iff isBuiltin]
        rw [resolveFrom, checked, isBuiltin]
        refine Takes.within ?_ name
        cases found : scope.catalogue.lookup name with
        | none => exact takes_fail _ _ _
        | some declaration =>
          obtain ⟨entry, sheet⟩ := declaration
          rw [Catalogue.referencesOf_of_lookup isBuiltin found]
          -- The name is open while its references are resolved, with room for one name less.
          let render := fun reference : Reference => Resolved.rendered <$>
            scope.resolveFrom room (trail ++ [name]) reference.name reference.modifier
          have rendered (reference : Reference) : (render reference).Takes room fun stack =>
              scope.catalogue.NestsWithin stack reference.name :=
            (ih (trail ++ [name]) reference.name reference.modifier).map Resolved.rendered
          have expanded := @takes_expandValue room render
            (fun other stack => scope.catalogue.NestsWithin stack other) rendered entry.value
          have told (value : String) := (takes_found name sheet.name room).bind fun _ =>
            takes_pure ((declared name value entry sheet).resolved read) room fun _ => trivial
          exact (expanded.bind told).congr fun _ => and_iff_left ⟨trivial, trivial⟩

end Scope

namespace Request

variable (request : Request) (catalogue : Catalogue) (name : String) (modifier : Option String)

/-- The stack has room where no more names may be opened than it has room for. -/
theorem fits_of_room {stack : Nat} (roomy : request.room ≤ stack) :
    (request.resolution catalogue name modifier).Fits stack := by
  obtain ⟨depth, bounded, needs, -⟩ := (request.scope catalogue).takes_resolveFrom request.room
    request.trail name modifier
  exact (Resolution.fits_iff_of_needs needs).mpr (bounded.trans roomy)

/-- Where a name can be resolved, the stack has room exactly if it has room for the names of each chain of
    references. -/
theorem fits_iff_of_ok {stack : Nat} {resolved : Resolved}
    (succeeds : request.resolve catalogue name modifier = .ok resolved) :
    (request.resolution catalogue name modifier).Fits stack ↔ catalogue.NestsWithin stack name := by
  obtain ⟨depth, _, needs, exact⟩ := (request.scope catalogue).takes_resolveFrom request.room
    request.trail name modifier
  exact (Resolution.fits_iff_of_needs needs).trans (exact resolved succeeds stack)

/-- Whatever a request ends with, the names that were opened for it are closed. -/
theorem openBehind_onStack (stack : Nat) :
    Resolution.openBehind [] ((request.resolution catalogue name modifier).onStack stack).notes = [] := by
  obtain ⟨depth, _, needs, -⟩ := (request.scope catalogue).takes_resolveFrom request.room
    request.trail name modifier
  exact Resolution.openBehind_onStack needs

variable {request catalogue name modifier} {stack : Nat}

theorem resolveOn_eq_ok_iff {outcome : Except Failure Resolved} :
    request.resolveOn stack catalogue name modifier = .ok outcome ↔
      (request.resolution catalogue name modifier).Fits stack ∧
        request.resolve catalogue name modifier = outcome := by
  rw [resolveOn, Resolution.outcome_onStack]
  split
  next fits => rw [Except.ok.injEq, and_iff_right fits, resolve]
  next unfit =>
    refine iff_of_false (fun same => ?_) fun both => unfit both.1
    cases same

theorem resolveOn_eq_error_iff {fault : Fault} :
    request.resolveOn stack catalogue name modifier = .error fault ↔
      ¬ (request.resolution catalogue name modifier).Fits stack ∧ fault = .stackFull := by
  rw [resolveOn, Resolution.outcome_onStack]
  split
  next fits =>
    refine iff_of_false (fun same => ?_) fun both => both.1 fits
    cases same
  next unfit => rw [Except.error.injEq, and_iff_right unfit, eq_comm]

end Request

/-- The references in values decide how a request for a name ends on a stack: the name is resolved exactly
    when everything that it reaches is well formed and known, no chain of references from it is longer than
    the limit, and none has more declared names than the stack has room for.  Where it is only the stack that
    is too small, the request is broken off.  Where the limit is no larger than the room on the stack, nothing
    is broken off and the room makes no difference.  Only a cycle is reported as circular, so a name may be
    reached on several ways. -/
structure Catalogue.Decides (catalogue : Catalogue) (limit : Int) (stack : Nat) (name : String)
    (modifier : Option String) (ending : Except Fault (Except Failure Resolved)) : Prop where
  resolved_iff : (∃ resolved, ending = .ok (.ok resolved)) ↔
    catalogue.Resolvable limit name modifier ∧ catalogue.NestsWithin stack name
  brokenOff : catalogue.Resolvable limit name modifier → ¬ catalogue.NestsWithin stack name →
    ending = .error .stackFull
  ends_of_room : limit ≤ stack → ∃ outcome, ending = .ok outcome
  resolved_iff_of_room : limit ≤ stack →
    ((∃ resolved, ending = .ok (.ok resolved)) ↔ catalogue.Resolvable limit name modifier)
  circular : ∀ chain, ending = .ok (.error (.circular chain)) →
    ∃ looped, catalogue.Reaches name looped ∧ Relation.TransGen catalogue.Refers looped looped

namespace Request

theorem decides_resolveOn (stack : Nat) (catalogue : Catalogue) (limit : Int)
    (place : Option Surroundings) (name : String) (modifier : Option String) :
    catalogue.Decides limit stack name modifier
      (({ limit, place } : Request).resolveOn stack catalogue name modifier) := by
  let ending := ({ limit, place } : Request).resolveOn stack catalogue name modifier
  obtain ⟨resolvable_iff, cycles⟩ := resolve_ok_iff_resolvable catalogue limit place name modifier
  have resolved_iff : (∃ resolved, ending = .ok (.ok resolved)) ↔
      catalogue.Resolvable limit name modifier ∧ catalogue.NestsWithin stack name := by
    simp only [ending, resolveOn_eq_ok_iff, ← resolvable_iff]
    constructor
    · rintro ⟨resolved, fits, succeeds⟩
      exact ⟨⟨resolved, succeeds⟩, (fits_iff_of_ok _ _ _ _ succeeds).mp fits⟩
    · rintro ⟨⟨resolved, succeeds⟩, nests⟩
      exact ⟨resolved, (fits_iff_of_ok _ _ _ _ succeeds).mpr nests, succeeds⟩
  constructor
  case resolved_iff => exact resolved_iff
  case brokenOff =>
    intro resolvable deep
    obtain ⟨resolved, succeeds⟩ := resolvable_iff.mpr resolvable
    rw [← fits_iff_of_ok _ _ _ _ succeeds] at deep
    exact resolveOn_eq_error_iff.mpr ⟨deep, rfl⟩
  case ends_of_room =>
    intro roomy
    refine ⟨_, resolveOn_eq_ok_iff.mpr ⟨fits_of_room _ _ _ _ ?_, rfl⟩⟩
    simp only [Request.room, List.length_nil]
    omega
  case resolved_iff_of_room =>
    intro roomy
    exact resolved_iff.trans (and_iff_left_of_imp fun resolvable => resolvable.nestsWithin roomy)
  case circular =>
    intro chain fails
    exact cycles chain (resolveOn_eq_ok_iff.mp fails).2

-- Two references lead to the same name, and the longest chain is as long as the limit.
theorem decides_resolveOn_twice :
    let entries := [("TOP", { value := "$LEFT$RIGHT" }), ("LEFT", { value := "$BASE" }),
      ("RIGHT", { value := "$BASE.ref" }), ("BASE", { value := "0" })]
    let catalogue : Catalogue := { sheets := [⟨"file:///s", "s", "", entries⟩] }
    let top : Variable := ⟨"TOP", .plain, "0$BASE", none, .sheet "s" 0⟩
    resolveOn 3 ⟨3, none, []⟩ catalogue "TOP" none = .ok (.ok ⟨top, "0$BASE"⟩) ∧
      catalogue.Resolvable 3 "TOP" none ∧ catalogue.NestsWithin 3 "TOP" ∧
      ¬ catalogue.NestsWithin 2 "TOP" ∧
      resolveOn 2 ⟨3, none, []⟩ catalogue "TOP" none = .error .stackFull := by
  intro entries catalogue top
  have succeeds : resolveOn 3 ⟨3, none, []⟩ catalogue "TOP" none = .ok (.ok ⟨top, "0$BASE"⟩) := by
    decide +kernel
  have brokenOff : resolveOn 2 ⟨3, none, []⟩ catalogue "TOP" none = .error .stackFull := by
    decide +kernel
  obtain ⟨resolvable, nests⟩ :=
    (decides_resolveOn 3 catalogue 3 none "TOP" none).resolved_iff.mp ⟨_, succeeds⟩
  refine ⟨succeeds, resolvable, nests, fun shallow => ?_, brokenOff⟩
  obtain ⟨resolved, finishes⟩ :=
    (decides_resolveOn 2 catalogue 3 none "TOP" none).resolved_iff.mpr ⟨resolvable, shallow⟩
  cases brokenOff.symm.trans finishes

end Request

end Marginalia
