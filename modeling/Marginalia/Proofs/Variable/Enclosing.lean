import Marginalia.Proofs.Document.Refresh
import Marginalia.Proofs.Text.NulFree
import Marginalia.Proofs.Variable.Nesting

/-!
# A request inside another one

A name is resolved while others are open, and with less room the more are open.  A failure may be due
to that, but not a success: what a name comes to is the same wherever fewer names are open and there
is no less room.  So the references in a value come to what they come to on their own, and where a
declared name is resolved, its value is expanded as if it were any text.
-/

namespace Marginalia

/-! ## Answers that are kept -/

section

variable {ε : Type} {render other : Reference → Except ε String}

theorem replaceReferences_ok_of_forall
    (kept : ∀ reference answer, render reference = .ok answer → other reference = .ok answer)
    {text replaced : List Char} {references : List Reference}
    (succeeds : replaceReferences render text references = .ok replaced) :
    replaceReferences other text references = .ok replaced := by
  induction references generalizing text with
  | nil => exact succeeds
  | cons reference rest ih =>
    rw [replaceReferences] at succeeds ⊢
    cases answered : render reference with
    | error failure =>
      rw [answered] at succeeds
      cases succeeds
    | ok answer =>
      rw [answered] at succeeds
      rw [kept reference answer answered]
      exact ih succeeds

theorem expandValue_ok_of_forall
    (kept : ∀ reference answer, render reference = .ok answer → other reference = .ok answer)
    {value expanded : String} (succeeds : expandValue render value = .ok expanded) :
    expandValue other value = .ok expanded := by
  unfold expandValue expandReferences at succeeds ⊢
  split at succeeds
  · rename_i hasDollar
    rw [if_pos hasDollar]
    cases replaced : replaceReferences render (hideEscapes value.toList)
        (referencesToExpand value.toList) with
    | error failure =>
      rw [replaced] at succeeds
      cases succeeds
    | ok text =>
      rw [replaced] at succeeds
      rw [replaceReferences_ok_of_forall kept replaced]
      exact succeeds
  · rename_i plain
    rw [if_neg plain]
    exact succeeds

end

theorem vet_ok_of_subset {trail fewer : List String} {name : String} {modifier : Option String}
    {read : Option Modifier} (subset : ∀ other ∈ fewer, other ∈ trail)
    (passes : vet trail name modifier = .ok read) : vet fewer name modifier = .ok read := by
  have closed : name ∉ trail := ((vet_ok_iff trail name modifier).mp ⟨read, passes⟩).2
  have stillClosed : name ∉ fewer := fun isOpen => closed (subset name isOpen)
  simpa [vet, closed, stillClosed] using passes

theorem readModifier_of_vet {trail : List String} {name : String} {modifier : Option String}
    {read : Option Modifier} (passes : vet trail name modifier = .ok read) :
    readModifier modifier = .ok read := by
  unfold vet at passes
  split at passes
  · obtain ⟨known, isRead, passes⟩ := exists_of_bind_eq_ok passes
    split at passes
    · cases passes
    · cases passes
      exact isRead
  · cases passes

theorem read_of_vet_none {trail : List String} {name : String} {read : Option Modifier}
    (passes : vet trail name none = .ok read) : read = none :=
  (Except.ok.inj (readModifier_of_vet passes)).symm

/-! ## Fewer open names, no less room -/

namespace Scope

variable {scope : Scope} {name : String} {modifier : Option String} {resolved : Resolved}

/-- What a name comes to, it comes to with fewer names open and no less room, too, whatever the limit
    that failures tell of. -/
theorem resolveFrom_ok_of_roomier (limit : Int) {room more : Nat} (roomier : room ≤ more)
    {trail fewer : List String} (subset : ∀ opened ∈ fewer, opened ∈ trail)
    (succeeds : (scope.resolveFrom room trail name modifier).outcome = .ok resolved) :
    (({ scope with limit } : Scope).resolveFrom more fewer name modifier).outcome = .ok resolved := by
  induction room generalizing more trail fewer name modifier resolved with
  | zero => exact absurd succeeds (resolveFrom_zero_ne_ok resolved)
  | succ room ih =>
    obtain ⟨more, rfl⟩ := Nat.exists_eq_succ_of_ne_zero (Nat.ne_zero_of_lt roomier)
    obtain ⟨read, less, same, passes, found⟩ := resolveFrom_eq_ok_iff.mp succeeds
    cases same
    refine resolveFrom_eq_ok_iff.mpr ⟨read, more, rfl, vet_ok_of_subset subset passes, ?_⟩
    rcases found with isBuiltin | ⟨declared, entry, sheet, expanded, declaration, expansion, rfl⟩
    · exact .inl isBuiltin
    · refine .inr ⟨declared, entry, sheet, expanded, declaration, ?_, rfl⟩
      -- The name is open on both sides below, and each side has room for one name less.
      have pushed : ∀ opened ∈ fewer ++ [name], opened ∈ trail ++ [name] := by
        intro opened member
        rcases List.mem_append.mp member with before | last
        · exact List.mem_append_left _ (subset opened before)
        · exact List.mem_append_right _ last
      apply expandValue_ok_of_forall _ expansion
      intro reference answer answered
      obtain ⟨inner, innerSucceeds, rfl⟩ := map_eq_ok_iff.mp answered
      have kept := ih (Nat.le_of_succ_le_succ roomier) pushed innerSucceeds
      exact map_eq_ok_iff.mpr ⟨inner, kept, rfl⟩

end Scope

namespace Request

variable {request other : Request} {catalogue : Catalogue} {name : String}
  {modifier : Option String} {resolved : Resolved}

/-- A reference that is resolved for a request is resolved to the same for one at the same place that
    has no other names open and no less room. -/
theorem resolve_ok_of_roomier (place : other.place = request.place)
    (subset : ∀ opened ∈ other.trail, opened ∈ request.trail)
    (roomier : request.limit - request.trail.length ≤ other.limit - other.trail.length)
    (succeeds : request.resolve catalogue name modifier = .ok resolved) :
    other.resolve catalogue name modifier = .ok resolved := by
  have noLess : request.room ≤ other.room := by
    simp only [room]
    omega
  have same : other.scope catalogue = { request.scope catalogue with limit := other.limit } := by
    rw [scope, place]
    rfl
  rw [resolve, resolution, same]
  exact Scope.resolveFrom_ok_of_roomier other.limit noLess subset succeeds

-- A name is reached twice, at different depths, and the second request has just as much room.
theorem resolve_ok_of_roomier_nested :
    let entries := [("TOP", { value := "$LEFT $BASE" }), ("LEFT", { value := "$BASE.ref" }),
      ("BASE", { value := "$LINE" })]
    let catalogue : Catalogue := { sheets := [⟨"file:///s", "s", "", entries⟩] }
    let place : Option Surroundings := some { line := some 7 }
    let nested : Request := ⟨6, place, ["OUTER", "INNER"]⟩
    let fresh : Request := ⟨4, place, []⟩
    let resolved : Resolved := ⟨⟨"TOP", .plain, "$BASE 7", none, .sheet "s" 0⟩, "$BASE 7"⟩
    (fresh.place = nested.place ∧ (∀ opened ∈ fresh.trail, opened ∈ nested.trail) ∧
        nested.limit - nested.trail.length ≤ fresh.limit - fresh.trail.length ∧
        nested.resolve catalogue "TOP" none = .ok resolved) ∧
      fresh.resolve catalogue "TOP" none = .ok resolved := by
  intro entries catalogue place nested fresh resolved
  have subset : ∀ opened ∈ fresh.trail, opened ∈ nested.trail := by simp [fresh]
  have roomier : nested.limit - nested.trail.length ≤ fresh.limit - fresh.trail.length := by decide
  have succeeds : nested.resolve catalogue "TOP" none = .ok resolved := by decide +kernel
  exact ⟨⟨rfl, subset, roomier, succeeds⟩,
    @resolve_ok_of_roomier nested fresh _ _ _ _ rfl subset roomier succeeds⟩

/-! ## Values as texts -/

theorem expand_eq_showEscapes (request : Request) (catalogue : Catalogue) (text : String) :
    request.expand catalogue text = String.ofList
      (showEscapes (substitute escapeMark (request.reset.render catalogue) text.toList)) := by
  have expanded := @expandReferences_eq Id _ _
    (fun name modifier => pure (request.reset.render catalogue name modifier)) _ text.toList
    fun _ _ => rfl
  rw [expand, expanded]
  rfl

/-- Where a declared name is resolved on an empty trail, its value is expanded as a text is.  While
    the value is expanded the name is open; each reference comes to the same without that. -/
theorem expand_of_resolve {entry : Entry} {sheet : Sheet} (declared : Builtin.ofName? name = none)
    (found : catalogue.lookup name = some (entry, sheet)) (valueFree : NulFree entry.value)
    (succeeds : request.reset.resolve catalogue name none = .ok resolved) :
    request.expand catalogue entry.value = resolved.rendered := by
  obtain ⟨read, less, roomy, passes, origin⟩ := Scope.resolveFrom_eq_ok_iff.mp succeeds
  rcases origin with ⟨builtin, isBuiltin, _⟩ |
    ⟨_, other, otherSheet, expanded, declaration, expansion, rfl⟩
  · rw [declared] at isBuiltin
    cases isBuiltin
  · obtain ⟨rfl, rfl⟩ : entry = other ∧ sheet = otherSheet := by
      simpa [Request.scope, found] using declaration
    obtain rfl := read_of_vet_none passes
    let nested := fun mentioned word =>
      ((request.reset.scope catalogue).resolveFrom less (request.reset.trail ++ [name]) mentioned
        word).outcome
    have answers : ∀ mention ∈ mentionsIn entry.value.toList,
        Resolved.rendered <$> nested mention.1 mention.2 =
          .ok (request.reset.render catalogue mention.1 mention.2) := by
      intro mention member
      obtain ⟨inner, innerSucceeds⟩ := resolved_of_expandValue nested expansion mention member
      -- On its own, the reference has no names open and room for one name more.
      have alone : request.reset.resolve catalogue mention.1 mention.2 = .ok inner := by
        apply Scope.resolveFrom_ok_of_roomier request.limit _ _ innerSucceeds
        · omega
        · intro opened member
          cases member
      rw [innerSucceeds, render, alone]
      rfl
    have same := expandValue_eq_showEscapes (fun mentioned word =>
      Resolved.rendered <$> nested mentioned word) entry.value _ valueFree answers
    rw [expand_eq_showEscapes]
    exact (Except.ok.inj (expansion.symm.trans same)).symm

end Request

namespace Engine

/-- Where an engine resolves a declared name on an empty trail, it expands the declared value, taken as
    a text, to what the name comes to. -/
theorem expand_value_of_resolve {engine after : Engine} {disk : Disk} {place : Option Surroundings}
    {name : String} {entry : Entry} {sheet : Sheet} {resolved : Resolved}
    (declared : Builtin.ofName? name = none)
    (ends : (engine.resolve disk (engine.request place) name none).outcome =
      .ok (after, .ok resolved))
    (found : after.catalogue.lookup name = some (entry, sheet)) (valueFree : NulFree entry.value) :
    (after.expand disk entry.value place).outcome = .ok (after, resolved.rendered) := by
  obtain ⟨prepared, succeeds⟩ := outcome_resolve ends
  -- The name was looked up, so the catalogue has been read again if it was stale.
  have needed : (engine.request place).needsCatalogue name none = true := by
    obtain ⟨read, less, roomy, passes, _⟩ := Scope.resolveFrom_eq_ok_iff.mp succeeds
    obtain ⟨wellFormed, closed⟩ := (vet_ok_iff _ _ _).mp ⟨read, passes⟩
    exact (Request.needsCatalogue_iff _ _ _).mpr ⟨wellFormed, closed, by omega, declared⟩
  rw [needed, prepare, if_pos rfl] at prepared
  obtain ⟨notStale, sameSettings⟩ := isFresh_of_freshen prepared
  have sameRequest : after.request place = engine.request place := by
    rw [request, request, sameSettings]
  have expanded : (engine.request place).expand after.catalogue entry.value = resolved.rendered :=
    Request.expand_of_resolve declared found valueFree succeeds
  rw [outcome_expand_of_fresh notStale, sameRequest, expanded]

theorem expand_value_of_resolve_offer :
    let entries := [("PRICE", { value := "5$$" }),
      ("OFFER", { value := "$$ $PRICE.ref at $LINE, $PRICE" })]
    let sheet : Sheet := ⟨"file:///s", "s", "", entries⟩
    let engine : Engine := ⟨{}, .opened {}, { sheets := [sheet], isStale := false }⟩
    let place : Option Surroundings := some { line := some 7 }
    let entry : Entry := { value := "$$ $PRICE.ref at $LINE, $PRICE" }
    let rendered := "$ $PRICE at 7, 5$"
    let resolved : Resolved := ⟨⟨"OFFER", .plain, rendered, none, .sheet "s" 0⟩, rendered⟩
    (Builtin.ofName? "OFFER" = none ∧
        (engine.resolve {} (engine.request place) "OFFER" none).outcome = .ok (engine, .ok resolved) ∧
        engine.catalogue.lookup "OFFER" = some (entry, sheet) ∧ NulFree entry.value) ∧
      (engine.expand {} entry.value place).outcome = .ok (engine, resolved.rendered) := by
  intro entries sheet engine place entry rendered resolved
  have ends : (engine.resolve {} (engine.request place) "OFFER" none).outcome =
      .ok (engine, .ok resolved) := by
    decide +kernel
  have found : engine.catalogue.lookup "OFFER" = some (entry, sheet) := by decide +kernel
  have valueFree : NulFree entry.value := by decide
  exact ⟨⟨by decide, ends, found, valueFree⟩,
    expand_value_of_resolve (by decide) ends found valueFree⟩

end Engine

end Marginalia
