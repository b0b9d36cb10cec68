import Marginalia.Proofs.Variable.Nesting
import Mathlib.Data.List.Chain
import Mathlib.Logic.Relation

/-!
# Resolution and the graph of references

Names and the references in their values form a graph.  A name is resolved on an empty trail exactly
when everything that it reaches is well formed and known and no chain of references from it is longer
than the limit.  The trail needs no mention there: a name that is met again while it is open lies on a
cycle, and a cycle has chains of every length.
-/

namespace Marginalia

namespace Catalogue

/-! ## The graph of references -/

/-- The value of a name refers to another one. -/
def Refers (catalogue : Catalogue) (name other : String) : Prop :=
  ∃ reference ∈ catalogue.referencesOf name, reference.name = other

/-- A name can be reached from another one, or is the same, through references in values. -/
def Reaches (catalogue : Catalogue) : String → String → Prop :=
  Relation.ReflTransGen catalogue.Refers

/-- What it takes for a reference to be resolved within a limit. -/
structure Resolvable (catalogue : Catalogue) (limit : Int) (name : String)
    (modifier : Option String) : Prop where
  wellFormed : IsWellFormed name modifier
  references : ∀ other, catalogue.Reaches name other →
    ∀ reference ∈ catalogue.referencesOf other, IsWellFormed reference.name reference.modifier
  known : ∀ other, catalogue.Reaches name other → catalogue.IsKnown other
  short : ∀ chain, List.IsChain catalogue.Refers (name :: chain) →
    ((name :: chain).length : Int) ≤ limit

/-- The state of a resolution from which a name with a well formed reference to it can be resolved:
    `room` more names may be opened, and those of the trail are open. -/
structure Expandable (catalogue : Catalogue) (room : Nat) (trail : List String) (name : String) :
    Prop where
  references : ∀ other, catalogue.Reaches name other →
    ∀ reference ∈ catalogue.referencesOf other, IsWellFormed reference.name reference.modifier
  known : ∀ other, catalogue.Reaches name other → catalogue.IsKnown other
  closed : ∀ other, catalogue.Reaches name other → other ∉ trail
  short : ∀ chain, List.IsChain catalogue.Refers (name :: chain) → chain.length < room

variable {catalogue : Catalogue} {room : Nat} {trail : List String} {name : String}

theorem reaches_self (name : String) : catalogue.Reaches name name :=
  Relation.ReflTransGen.refl

theorem Reaches.behind {reference : Reference} {other : String}
    (member : reference ∈ catalogue.referencesOf name)
    (reaches : catalogue.Reaches reference.name other) : catalogue.Reaches name other :=
  Relation.ReflTransGen.head ⟨reference, member, rfl⟩ reaches

theorem Reaches.cases {other : String} (reaches : catalogue.Reaches name other) :
    other = name ∨ ∃ reference ∈ catalogue.referencesOf name,
      catalogue.Reaches reference.name other := by
  rcases Relation.ReflTransGen.cases_head reaches with same | ⟨_, ⟨reference, member, rfl⟩, rest⟩
  · exact .inl same.symm
  · exact .inr ⟨reference, member, rest⟩

/-- From a name on a cycle there are chains of every length. -/
theorem exists_chain_of_cycle (cycle : Relation.TransGen catalogue.Refers name name)
    (length : Nat) :
    ∃ chain : List String, List.IsChain catalogue.Refers (name :: chain) ∧
      chain.length = length := by
  induction length generalizing name with
  | zero => exact ⟨[], List.isChain_singleton name, rfl⟩
  | succ length ih =>
    -- The next name of the cycle lies on the same cycle.
    obtain ⟨next, refers, back⟩ := Relation.TransGen.head'_iff.mp cycle
    obtain ⟨chain, isChain, size⟩ := ih (Relation.TransGen.tail' back refers)
    exact ⟨next :: chain, List.isChain_cons_cons.mpr ⟨refers, isChain⟩, congrArg (· + 1) size⟩

theorem Expandable.not_cycle (expandable : catalogue.Expandable room trail name) :
    ¬ Relation.TransGen catalogue.Refers name name := by
  intro cycle
  obtain ⟨chain, isChain, size⟩ := exists_chain_of_cycle cycle room
  exact Nat.lt_irrefl room (size ▸ expandable.short chain isChain)

/-! ## One level down -/

theorem not_expandable_zero : ¬ catalogue.Expandable 0 trail name := fun expandable =>
  Nat.not_lt_zero _ (expandable.short [] (List.isChain_singleton name))

theorem Expandable.behind (expandable : catalogue.Expandable (room + 1) trail name)
    {reference : Reference} (member : reference ∈ catalogue.referencesOf name) :
    catalogue.Expandable room (trail ++ [name]) reference.name where
  references other reaches := expandable.references other (reaches.behind member)
  known other reaches := expandable.known other (reaches.behind member)
  closed other reaches := by
    rw [List.mem_append, List.mem_singleton]
    rintro (isOpen | rfl)
    · exact expandable.closed other (reaches.behind member) isOpen
    · exact expandable.not_cycle (Relation.TransGen.head' ⟨reference, member, rfl⟩ reaches)
  short chain isChain := by
    have longer := expandable.short (reference.name :: chain)
      (List.isChain_cons_cons.mpr ⟨⟨reference, member, rfl⟩, isChain⟩)
    simpa using longer

theorem expandable_succ (known : catalogue.IsKnown name) (closed : name ∉ trail)
    (behind : ∀ reference ∈ catalogue.referencesOf name,
      IsWellFormed reference.name reference.modifier ∧
        catalogue.Expandable room (trail ++ [name]) reference.name) :
    catalogue.Expandable (room + 1) trail name where
  references other reaches := by
    rcases reaches.cases with rfl | ⟨reference, member, further⟩
    · exact fun reference member => (behind reference member).1
    · exact (behind reference member).2.references other further
  known other reaches := by
    rcases reaches.cases with rfl | ⟨reference, member, further⟩
    · exact known
    · exact (behind reference member).2.known other further
  closed other reaches := by
    -- What a reference reaches is not on the longer trail, and hence not on this one.
    rcases reaches.cases with rfl | ⟨reference, member, further⟩
    · exact closed
    · intro isOpen
      exact (behind reference member).2.closed other further (List.mem_append_left _ isOpen)
  short chain isChain := by
    cases chain with
    | nil => exact Nat.succ_pos room
    | cons next chain =>
      obtain ⟨⟨reference, member, rfl⟩, rest⟩ := List.isChain_cons_cons.mp isChain
      exact Nat.succ_lt_succ ((behind reference member).2.short chain rest)

end Catalogue

/-! ## Resolution -/

namespace Scope

variable {scope : Scope} {room : Nat} {trail : List String} {name : String}
  {modifier : Option String}

theorem resolveFrom_ok_iff :
    (∃ resolved, (scope.resolveFrom room trail name modifier).outcome = .ok resolved) ↔
      IsWellFormed name modifier ∧ scope.catalogue.Expandable room trail name := by
  -- Behind each reference there is room for one name less, with this name on the trail.
  induction room generalizing trail name modifier with
  | zero =>
    constructor
    · rintro ⟨resolved, succeeds⟩
      exact absurd succeeds (resolveFrom_zero_ne_ok resolved)
    · exact fun both => absurd both.2 Catalogue.not_expandable_zero
  | succ room ih =>
    rw [resolveFrom_succ_ok_iff]
    simp only [ih]
    constructor
    · rintro ⟨wellFormed, closed, known, behind⟩
      exact ⟨wellFormed, Catalogue.expandable_succ known closed behind⟩
    · rintro ⟨wellFormed, expandable⟩
      have self : scope.catalogue.Reaches name name := Catalogue.reaches_self name
      refine ⟨wellFormed, expandable.closed name self, expandable.known name self, ?_⟩
      intro reference member
      exact ⟨expandable.references name self reference member, expandable.behind member⟩

/-- A name is reported as circular only where something that it reaches is open already or lies on a
    cycle. -/
theorem cycle_of_circular {chain : List String}
    (fails : (scope.resolveFrom room trail name modifier).outcome = .error (.circular chain)) :
    ∃ looped, scope.catalogue.Reaches name looped ∧
      (looped ∈ trail ∨ Relation.TransGen scope.catalogue.Refers looped looped) := by
  induction room using Nat.strongRecOn generalizing trail name modifier with
  | ind room ih =>
    rcases resolveFrom_error fails with
      own | ⟨less, entry, sheet, front, reference, back, rfl, _, declared, found, split, _, nested⟩
    · cases own with
      | checked refused =>
        rcases vet_error refused with invalid | ⟨word, _, invalid⟩ | ⟨isOpen, _⟩
        · cases invalid
        · cases invalid
        · exact ⟨name, Catalogue.reaches_self name, .inl isOpen⟩
    · have member : reference ∈ scope.catalogue.referencesOf name := by
        rw [Catalogue.referencesOf_of_lookup declared found, split]
        exact List.mem_append_right _ List.mem_cons_self
      have refers : scope.catalogue.Refers name reference.name := ⟨reference, member, rfl⟩
      obtain ⟨looped, reaches, isOpen | cycle⟩ := ih less (Nat.lt_succ_self less) nested
      · -- The name met again is the one just opened, or was open before.
        rw [List.mem_append, List.mem_singleton] at isOpen
        rcases isOpen with before | rfl
        · exact ⟨looped, reaches.behind member, .inl before⟩
        · exact ⟨looped, Catalogue.reaches_self looped,
            .inr (Relation.TransGen.head' refers reaches)⟩
      · exact ⟨looped, reaches.behind member, .inr cycle⟩

end Scope

namespace Request

/-- A reference is resolved on an empty trail exactly when everything that it reaches is well formed
    and known and no chain of references from it is longer than the limit.  Only a cycle is reported
    as circular. -/
theorem resolve_ok_iff_resolvable (catalogue : Catalogue) (limit : Int)
    (place : Option Surroundings) (name : String) (modifier : Option String) :
    ((∃ resolved,
        ({ limit, place } : Request).resolve catalogue name modifier = .ok resolved) ↔
      catalogue.Resolvable limit name modifier) ∧
    ∀ chain, ({ limit, place } : Request).resolve catalogue name modifier =
        .error (.circular chain) →
      ∃ looped, catalogue.Reaches name looped ∧
        Relation.TransGen catalogue.Refers looped looped := by
  constructor
  · have room : ({ limit, place } : Request).room = limit.toNat := by
      simp [Request.room]
    rw [resolve, resolution, Scope.resolveFrom_ok_iff, room]
    constructor
    · rintro ⟨wellFormed, expandable⟩
      refine ⟨wellFormed, expandable.references, expandable.known, fun chain isChain => ?_⟩
      have shorter := expandable.short chain isChain
      rw [List.length_cons]
      omega
    · rintro ⟨wellFormed, references, known, short⟩
      refine ⟨wellFormed, references, known, fun _ _ => List.not_mem_nil, fun chain isChain => ?_⟩
      have longer := short chain isChain
      rw [List.length_cons] at longer
      omega
  · intro chain fails
    obtain ⟨looped, reaches, isOpen | cycle⟩ := Scope.cycle_of_circular fails
    · exact absurd isOpen List.not_mem_nil
    · exact ⟨looped, reaches, cycle⟩

end Request

end Marginalia
