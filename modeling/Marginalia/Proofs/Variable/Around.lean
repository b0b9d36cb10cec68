import Marginalia.Proofs.Variable.Divider
import Marginalia.Proofs.Variable.Enclosing
import Marginalia.Proofs.Variable.OnePass
import Marginalia.Proofs.Variable.Places

/-!
# Expansion around a reference

A reference cuts its text in two: the expansion of the whole is that of the text in front of it, what
is put in for it, and that of the text behind it.  Nothing that is put in can change this, unless it
has a part of the mark for doubled dollar signs; the marker of a failure never has.
-/

namespace Marginalia

/-! ## A text around a reference -/

/-- A reference stands between two pieces of a text. -/
structure Reference.StandsBetween (reference : Reference) (front back text : List Char) : Prop where
  whole : text = front ++ (reference.raw.toList ++ back)
  range : reference.range = ⟨front.length, front.length + reference.raw.length⟩

theorem Reference.exists_raw {origin : Int} {hit : Text.Hit DollarToken} {reference : Reference}
    (isReference : ofHit? origin hit = some reference) :
    ∃ body, reference.raw.toList = '$' :: body := by
  rw [raw_of_ofHit? isReference]
  cases reference.modifier <;> exact ⟨_, rfl⟩

theorem exists_between_hitsFrom (place : Nat) {text : List Char} {reference : Reference}
    (member : reference ∈ (Text.hitsFrom readDollar place 0 text).filterMap (Reference.ofHit? 0)) :
    ∃ front back, text = front ++ (reference.raw.toList ++ back) ∧
      reference.range = ⟨(place : Int) + front.length,
        (place : Int) + front.length + reference.raw.length⟩ ∧
      mentionsIn text = mentionsIn front ++ reference.mention :: mentionsIn back ∧
      ∀ dollar render, substitute dollar render text = substitute dollar render front ++
        ((render reference.name reference.modifier).toList ++ substitute dollar render back) := by
  obtain ⟨body, dollarFront⟩ : ∃ body, reference.raw.toList = '$' :: body := by
    obtain ⟨hit, _, isReference⟩ := List.mem_filterMap.mp member
    exact Reference.exists_raw isReference
  induction text using dollarInduction generalizing place with
  | nil => cases member
  | plain c rest nothing ih =>
    rw [Text.hitsFrom_of_none _ nothing] at member
    obtain ⟨front, back, whole, range, mentions, splits⟩ := ih _ member
    -- The dollar sign of the reference ends what the character could begin.
    have stillNothing : readDollar (c :: front) = none := by
      rw [dollarFront, List.cons_append] at whole
      rw [← nothing, whole, readDollar_append_boundary isBoundary_dollar]
      rintro rfl rfl
      rw [whole] at nothing
      cases nothing
    refine ⟨c :: front, back, congrArg (c :: ·) whole, ?_, ?_, fun dollar render => ?_⟩
    · rw [range, List.length_cons, Range.mk.injEq]
      omega
    · rw [mentionsIn_plain nothing, mentionsIn_plain stillNothing, mentions]
    · rw [substitute_plain nothing, substitute_plain stillNothing, splits]
      rfl
  | token token rest wellFormed found ih =>
    have nonempty : token.spell ++ rest ≠ [] := by simp [token.spell_ne_nil]
    have positive := List.length_pos_iff.mpr token.spell_ne_nil
    obtain ⟨hit, hitMember, isReference⟩ := List.mem_filterMap.mp member
    rw [Text.hitsFrom_of_some _ nonempty positive found, List.drop_left, List.mem_cons] at hitMember
    rcases hitMember with rfl | later
    · cases token with
      | escaped => cases isReference
      | reference name modifier =>
        cases isReference
        refine ⟨[], rest, by rw [String.toList_ofList]; rfl, ?_, ?_, fun dollar render => ?_⟩
        · simp only [Text.Hit.stop, List.length_nil, String.length_ofList, DollarToken.spell,
            Range.mk.injEq]
          omega
        · exact mentionsIn_token _ found
        · rw [substitute_token _ found, substitute_nil]
          rfl
    · obtain ⟨front, back, whole, range, mentions, splits⟩ :=
        ih _ (List.mem_filterMap.mpr ⟨hit, later, isReference⟩)
      -- The dollar sign of the reference ends the token in front of it, if it comes next.
      have stillFound : readDollar (token.spell ++ front) = some (token.spell.length, token) := by
        rw [dollarFront, List.cons_append] at whole
        rw [← found, whole, readDollar_spell_append_boundary isBoundary_dollar _ _ wellFormed]
      refine ⟨token.spell ++ front, back, ?_, ?_, ?_, fun dollar render => ?_⟩
      · rw [List.append_assoc, ← whole]
      · rw [range, List.length_append, Range.mk.injEq]
        omega
      · rw [mentionsIn_token _ found, mentionsIn_token _ stillFound, mentions, List.append_assoc]
      · rw [substitute_token _ found, substitute_token _ stillFound, splits, List.append_assoc]

/-- A reference splits a text: what is mentioned, and what a pass makes of it, is that of the text in
    front of it, its own, and that of the text behind it. -/
theorem exists_between {text : List Char} {reference : Reference}
    (member : reference ∈ referencesIn text) :
    ∃ front back, reference.StandsBetween front back text ∧
      mentionsIn text = mentionsIn front ++ reference.mention :: mentionsIn back ∧
      ∀ dollar render, substitute dollar render text = substitute dollar render front ++
        ((render reference.name reference.modifier).toList ++ substitute dollar render back) := by
  obtain ⟨front, back, whole, range, parts⟩ := exists_between_hitsFrom 0 member
  simp only [Int.natCast_zero, Int.zero_add] at range
  exact ⟨front, back, ⟨whole, range⟩, parts⟩

/-! ## Markers of failures -/

/-- Showing doubled dollar signs leaves a marker as it is and what stands around it apart. -/
theorem showEscapes_around (front back : List Char) {failure : Failure}
    (free : ∀ text ∈ failure.mentioned, NulFree text) :
    showEscapes (front ++ (failure.marker.toList ++ back)) =
      showEscapes front ++ (failure.marker.toList ++ showEscapes back) := by
  obtain ⟨inside, opened⟩ : ∃ inside, failure.marker.toList = '[' :: inside := by
    rw [Failure.marker, String.toList_append, String.toList_append]
    exact ⟨_, rfl⟩
  have clean : '\x00' ∉ inside := by
    have markerFree := Failure.nulFree_marker free
    rw [NulFree, opened, List.mem_cons, not_or] at markerFree
    exact markerFree.2
  rw [opened, List.cons_append, showEscapes,
    Text.replaceAll_append_cons (by decide) (by decide), ← showEscapes, ← showEscapes,
    showEscapes_append back clean]
  rfl

/-! ## Expansion -/

/-- Between the expansions of the text in front of a reference and of the text behind it, an expansion
    has the marker of the failure, or the text that the reference comes to.  In the latter case doubled
    dollar signs are shown after it was put in. -/
theorem exists_expand_around {text : String} {reference : Reference}
    (member : reference ∈ referencesIn text.toList) :
    ∃ front back, reference.StandsBetween front back text.toList ∧
      mentionsIn text.toList = mentionsIn front ++ reference.mention :: mentionsIn back ∧
      ∀ (request : Request) (catalogue : Catalogue),
        (∀ failure,
          request.reset.resolve catalogue reference.name reference.modifier = .error failure →
            request.expand catalogue text = request.expand catalogue (String.ofList front) ++
              failure.marker ++ request.expand catalogue (String.ofList back)) ∧
        ∀ resolved,
          request.reset.resolve catalogue reference.name reference.modifier = .ok resolved →
            ∃ filledFront filledBack,
              request.expand catalogue (String.ofList front) =
                String.ofList (showEscapes filledFront) ∧
              request.expand catalogue (String.ofList back) =
                String.ofList (showEscapes filledBack) ∧
              request.expand catalogue text = String.ofList (showEscapes
                (filledFront ++ (resolved.rendered.toList ++ filledBack))) := by
  obtain ⟨front, back, between, mentions, splits⟩ := exists_between member
  refine ⟨front, back, between, mentions, fun request catalogue => ⟨?_, ?_⟩⟩
  · intro failure fails
    obtain ⟨nameFree, modifierFree⟩ := nulFree_of_mem_mentionsIn (List.mem_map_of_mem member)
    have free : ∀ text ∈ failure.mentioned, NulFree text :=
      Scope.nulFree_of_resolveFrom_error (fun _ opened => absurd opened List.not_mem_nil) nameFree
        modifierFree fails
    simp only [Request.expand_eq_showEscapes, String.toList_ofList]
    rw [splits, Request.render, fails, showEscapes_around _ _ free, String.ofList_append,
      String.ofList_append, String.ofList_toList, String.append_assoc]
  · intro resolved succeeds
    refine ⟨substitute escapeMark (request.reset.render catalogue) front,
      substitute escapeMark (request.reset.render catalogue) back, ?_, ?_, ?_⟩
    · rw [Request.expand_eq_showEscapes, String.toList_ofList]
    · rw [Request.expand_eq_showEscapes, String.toList_ofList]
    · rw [Request.expand_eq_showEscapes, splits, Request.render, succeeds]

end Marginalia
