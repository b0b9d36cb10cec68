import Marginalia.Proofs.Document.Refresh
import Marginalia.Proofs.Variable.Reachability
import Mathlib.Data.List.Nodup

/-!
# The chain of a failure

A name that cannot be resolved has a failure of its own, or that of the last reference in its value
that cannot be resolved, and then unchanged.  So a failure comes up, level by level, from the name
where it begins.  The names that are open there lead from the name that was asked for to that one,
each by a reference in the value of the one before: the chain of the failure is this path.
-/

namespace Marginalia

/-! ## From level to level -/

namespace Request

variable {request : Request} {catalogue : Catalogue} {name first other : String}
  {modifier : Option String} {failure : Failure}

/-- A reference in a text that cannot be resolved, while every one behind it can. -/
structure IsLastFailing (request : Request) (catalogue : Catalogue) (text : List Char)
    (reference : Reference) (failure : Failure) : Prop where
  member : reference ∈ referencesIn text
  fails : request.resolve catalogue reference.name reference.modifier = .error failure
  behind : ∀ later ∈ referencesIn text, reference.range.start < later.range.start →
    ∃ resolved, request.resolve catalogue later.name later.modifier = .ok resolved

/-- A failure comes up to a name, from the name itself or from a reference in its value.  Where it
    comes from a reference, the name is open while that is resolved. -/
inductive ComesUp (catalogue : Catalogue) (failure : Failure) :
    Request → String → Option String → Prop where
  | own {request : Request} {name : String} {modifier : Option String}
      (refuses : (request.scope catalogue).Refuses request.room request.trail name modifier
        failure) :
      ComesUp catalogue failure request name modifier
  | nested {request : Request} {name : String} {modifier : Option String} {entry : Entry}
      {sheet : Sheet} {reference : Reference} (closed : name ∉ request.trail)
      (roomy : 0 < request.room) (declared : Builtin.ofName? name = none)
      (found : catalogue.lookup name = some (entry, sheet))
      (last : (request.push name).IsLastFailing catalogue entry.value.toList reference failure)
      (further : ComesUp catalogue failure (request.push name) reference.name
        reference.modifier) :
      ComesUp catalogue failure request name modifier

theorem room_push {less : Nat} (roomy : request.room = less + 1) :
    (request.push name).room = less := by
  simp only [room, push, List.length_append, List.length_singleton] at roomy ⊢
  omega

theorem isLastFailing_of_split {text : List Char} {front back : List Reference}
    {reference : Reference} (split : referencesIn text = front ++ reference :: back)
    (succeed : ∀ later ∈ back, ∃ resolved,
      request.resolve catalogue later.name later.modifier = .ok resolved)
    (fails : request.resolve catalogue reference.name reference.modifier = .error failure) :
    request.IsLastFailing catalogue text reference failure := by
  refine ⟨by simp [split], fails, ?_⟩
  intro later member apart
  have ordered := pairwise_referencesIn text
  rw [split] at ordered member
  obtain ⟨_, _, across⟩ := List.pairwise_append.mp ordered
  -- What stands in front of the reference starts before it, so the later one is behind.
  rcases List.mem_append.mp member with inFront | notInFront
  · have before := across later inFront reference List.mem_cons_self
    omega
  · rcases List.mem_cons.mp notInFront with rfl | behind
    · omega
    · exact succeed later behind

theorem comesUp_of_resolve (fails : request.resolve catalogue name modifier = .error failure) :
    ComesUp catalogue failure request name modifier := by
  -- With every name that is opened there is less room, so what is left bounds the levels.
  generalize size : request.room = room
  induction room generalizing request name modifier with
  | zero =>
    rcases Scope.resolveFrom_error fails with refuses | ⟨less, _, _, _, _, _, roomy, _⟩
    · exact .own refuses
    · omega
  | succ room ih =>
    rcases Scope.resolveFrom_error fails with
      refuses | ⟨less, entry, sheet, front, reference, back, roomy, closed, declared, found, split,
        succeed, nested⟩
    · exact .own refuses
    · -- One level down the name is open, and there is room for one name less.
      have nestedRoom : (request.push name).room = less := room_push roomy
      rw [← nestedRoom] at succeed nested
      have last : (request.push name).IsLastFailing catalogue entry.value.toList reference failure :=
        isLastFailing_of_split split succeed nested
      exact .nested closed (by omega) declared found last (ih nested (by omega))

/-! ## The path of open names -/

/-- The open names lead from the first one to a name that is resolved next. -/
structure LeadsTo (catalogue : Catalogue) (request : Request) (first name : String) : Prop where
  starts : (request.trail ++ [name]).head? = some first
  refers : (request.trail ++ [name]).IsChain catalogue.Refers
  distinct : request.trail.Nodup
  short : request.trail.length ≤ request.limit

theorem leadsTo_self {limit : Int} (enough : 0 ≤ limit) (place : Option Surroundings)
    (name : String) : LeadsTo catalogue { limit, place } name name :=
  ⟨rfl, List.isChain_singleton name, List.nodup_nil, enough⟩

theorem LeadsTo.nodup (leads : LeadsTo catalogue request first name)
    (closed : name ∉ request.trail) : (request.trail ++ [name]).Nodup := by
  rw [← List.concat_eq_append]
  exact leads.distinct.concat closed

/-- Opening a name leads on to what its value refers to. -/
theorem LeadsTo.push (leads : LeadsTo catalogue request first name) (closed : name ∉ request.trail)
    (roomy : 0 < request.room) (refers : catalogue.Refers name other) :
    LeadsTo catalogue (request.push name) first other where
  starts := by
    change (request.trail ++ [name] ++ [other]).head? = some first
    rw [List.head?_append, leads.starts]
    rfl
  refers := by
    change (request.trail ++ [name] ++ [other]).IsChain catalogue.Refers
    apply List.isChain_append.mpr
    refine ⟨leads.refers, List.isChain_singleton other, ?_⟩
    simpa using refers
  distinct := leads.nodup closed
  short := by
    simp only [room] at roomy
    simp only [Request.push, List.length_append, List.length_singleton]
    omega

end Request

/-! ## What the chain of a failure tells -/

/-- The chain of a failure is a path from the name that was asked for: each name is that of a
    reference in the value of the one before.  How it ends shows what kind of failure it is. -/
structure Failure.IsGenuine (catalogue : Catalogue) (limit : Int) (first : String)
    (failure : Failure) : Prop where
  invalid : failure.word = "invalid" → failure.chain = []
  path : failure.word ≠ "invalid" →
    failure.chain.head? = some first ∧ failure.chain.IsChain catalogue.Refers
  circular : failure.word = "circular" → ∃ front last, failure.chain = front ++ [last] ∧
    front.Nodup ∧ front.count last = 1
  tooDeep : failure.word = "depth" → failure.chain.Nodup ∧ failure.chain.length = limit + 1
  undefined : failure.word = "undefined" → failure.chain.Nodup ∧ failure.chain.length ≤ limit ∧
    ∃ last, failure.chain.getLast? = some last ∧ ¬ catalogue.IsKnown last

namespace Request

variable {request : Request} {catalogue : Catalogue} {name first : String}
  {modifier : Option String} {failure : Failure}

/-- The chain of a name's own failure is the path to the name. -/
theorem LeadsTo.isGenuine (leads : LeadsTo catalogue request first name)
    (refuses : (request.scope catalogue).Refuses request.room request.trail name modifier failure) :
    failure.IsGenuine catalogue request.limit first := by
  cases refuses with
  | checked refused =>
    rcases vet_error refused with rfl | ⟨word, _, rfl⟩ | ⟨isOpen, rfl⟩
    · constructor <;> simp [Failure.word, Failure.chain]
    · constructor <;> simp [Failure.word, Failure.chain]
    · constructor
      case path => exact fun _ => ⟨leads.starts, leads.refers⟩
      case circular =>
        -- A name that is open already stands on the trail once.
        intro _
        exact ⟨request.trail, name, rfl, leads.distinct,
          List.count_eq_one_of_mem leads.distinct isOpen⟩
      all_goals simp [Failure.word]
  | tooDeep closed full =>
    constructor
    case path => exact fun _ => ⟨leads.starts, leads.refers⟩
    case tooDeep =>
      -- The trail is as long as the limit allows, and the name comes on top.
      intro _
      refine ⟨leads.nodup closed, ?_⟩
      have short := leads.short
      simp only [room] at full
      simp only [Failure.chain, List.length_append, List.length_singleton]
      omega
    all_goals simp [Failure.word]
  | undefined closed roomy unknown =>
    constructor
    case path => exact fun _ => ⟨leads.starts, leads.refers⟩
    case undefined =>
      intro _
      refine ⟨leads.nodup closed, ?_, name, by simp [Failure.chain], unknown⟩
      simp only [room] at roomy
      simp only [Failure.chain, List.length_append, List.length_singleton]
      omega
    all_goals simp [Failure.word]

theorem ComesUp.isGenuine (comesUp : ComesUp catalogue failure request name modifier)
    (leads : LeadsTo catalogue request first name) :
    failure.IsGenuine catalogue request.limit first := by
  induction comesUp with
  | own refuses => exact leads.isGenuine refuses
  | nested closed roomy declared found last further ih =>
    apply ih
    apply leads.push closed roomy
    refine ⟨_, ?_, rfl⟩
    rw [Catalogue.referencesOf_of_lookup declared found]
    exact last.member

end Request

namespace Engine

/-- A failure to resolve a name on an empty trail comes up unchanged, at each level from the last
    reference that cannot be resolved, and its chain is the path that it came on. -/
theorem isGenuine_of_resolve {engine after : Engine} {disk : Disk} {limit : Int}
    {place : Option Surroundings} {name : String} {modifier : Option String} {failure : Failure}
    (positive : 1 ≤ limit)
    (ends : (engine.resolve disk { limit, place } name modifier).outcome =
      .ok (after, .error failure)) :
    Request.ComesUp after.catalogue failure { limit, place } name modifier ∧
      failure.IsGenuine after.catalogue limit name := by
  obtain ⟨_, fails⟩ := outcome_resolve ends
  have comesUp := Request.comesUp_of_resolve fails
  have leads : Request.LeadsTo after.catalogue { limit, place } name name :=
    Request.leadsTo_self (by omega) place name
  exact ⟨comesUp, comesUp.isGenuine leads⟩

-- The last reference of the first value is resolved, and the failure of the first one is not met.
theorem isGenuine_of_resolve_loop :
    let entries := [("TOP", { value := "$MISSING $LEFT $FINE" }), ("LEFT", { value := "$RIGHT" }),
      ("RIGHT", { value := "$LEFT.ref" }), ("FINE", { value := "$$" })]
    let catalogue : Catalogue := { sheets := [⟨"file:///s", "s", "", entries⟩], isStale := false }
    let engine : Engine := ⟨{}, .opened {}, catalogue⟩
    let failure : Failure := .circular ["TOP", "LEFT", "RIGHT", "LEFT"]
    ((1 : Int) ≤ 5 ∧ (engine.resolve {} ⟨5, none, []⟩ "TOP" none).outcome =
        .ok (engine, .error failure)) ∧
      Request.ComesUp catalogue failure ⟨5, none, []⟩ "TOP" none ∧
      failure.IsGenuine catalogue 5 "TOP" := by
  intro entries catalogue engine failure
  have ends : (engine.resolve {} ⟨5, none, []⟩ "TOP" none).outcome =
      .ok (engine, .error failure) := by
    decide +kernel
  exact ⟨⟨by decide, ends⟩, isGenuine_of_resolve (by decide) ends⟩

end Engine

end Marginalia
