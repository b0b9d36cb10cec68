import Marginalia.Proofs.Text.Piece
import Marginalia.Proofs.Variable.Dollar

/-!
# Where references begin

The scan for references takes dollar signs two at a time from the left, so what a dollar sign begins
depends on all those in front of it.  It can be told from the text around it alone, though: a reference
begins at the last of an odd number of dollar signs, if a name follows.
-/

namespace Marginalia

open Text (StandsAt)

/-- How many dollar signs a text ends with. -/
def dollarsAtEnd (text : List Char) : Nat :=
  (text.reverse.takeWhile (· = '$')).length

/-- A reference begins at a place: the last of an odd number of dollar signs stands there, and a
    character that a name can start with stands behind it. -/
def BeginsReference (text : List Char) (place : Nat) : Prop :=
  text[place]? = some '$' ∧ dollarsAtEnd (text.take (place + 1)) % 2 = 1 ∧
    text[place + 1]?.any isNameStart = true

instance (text : List Char) : DecidablePred (BeginsReference text) :=
  fun place => inferInstanceAs (Decidable (text[place]? = some '$' ∧
    dollarsAtEnd (text.take (place + 1)) % 2 = 1 ∧ text[place + 1]?.any isNameStart = true))

/-- A run of characters for names stands in a text from a place on, and the text does not go on with
    another one. -/
structure IsNameRun (text : List Char) (place : Nat) (run : List Char) : Prop where
  stands : StandsAt run place text
  characters : ∀ c ∈ run, isNameRest c = true
  longest : ∀ c, text[place + run.length]? = some c → isNameRest c = false

/-- What a reference whose dollar sign stands at a place of a text is read as, where the text starts at
    `origin` in its document. -/
structure Reference.IsReadAt (text : List Char) (origin : Int) (place : Nat) (reference : Reference) :
    Prop where
  name : IsNameRun text (place + 1) reference.name.toList
  hasModifier : reference.modifier.isSome = true ↔
    text[place + 1 + reference.name.length]? = some '.' ∧
      text[place + 2 + reference.name.length]?.any isNameStart = true
  modifier : ∀ word, reference.modifier = some word →
    IsNameRun text (place + 2 + reference.name.length) word.toList
  raw : reference.raw.toList =
    spellReference reference.name.toList (reference.modifier.map String.toList)
  range : reference.range = ⟨origin + place, origin + place + reference.raw.length⟩
  slice : (reference.range.shift (-origin)).slice text = reference.raw.toList

/-! ## Dollar signs at the end -/

theorem dollarsAtEnd_dollar (text : List Char) :
    dollarsAtEnd (text ++ ['$']) = dollarsAtEnd text + 1 := by
  simp [dollarsAtEnd]

theorem dollarsAtEnd_of_ne {c : Char} (other : c ≠ '$') (text : List Char) :
    dollarsAtEnd (text ++ [c]) = 0 := by
  simp [dollarsAtEnd, other]

theorem dollarsAtEnd_append_of_notMem {piece : List Char} (nonempty : piece ≠ [])
    (clean : '$' ∉ piece) (text : List Char) : dollarsAtEnd (text ++ piece) = 0 := by
  obtain ⟨front, last, rfl⟩ := (List.eq_nil_or_concat piece).resolve_left nonempty
  rw [List.concat_eq_append] at clean ⊢
  have other : last ≠ '$' := by
    rintro rfl
    exact clean (List.mem_append_right _ List.mem_cons_self)
  rw [← List.append_assoc, dollarsAtEnd_of_ne other]

/-! ## Names where they stand -/

variable {text name : List Char} {place : Nat}

theorem isSome_readName?_iff : (readName? text).isSome = true ↔ text[0]?.any isNameStart = true := by
  cases text with
  | nil => simp [readName?]
  | cons c rest =>
    rw [readName?]
    split <;> simp_all

theorem isSome_readModifier?_iff : (readModifier? text).isSome = true ↔
    text[0]? = some '.' ∧ text[1]?.any isNameStart = true := by
  cases text with
  | nil => simp [readModifier?]
  | cons c rest =>
    by_cases point : c = '.'
    · subst point
      rw [readModifier?, isSome_readName?_iff]
      simp
    · unfold readModifier?
      split <;> simp_all

theorem isNameRun_of_readName? (found : readName? (text.drop place) = some name) :
    IsNameRun text place name := by
  obtain ⟨written, whole⟩ := readName?_eq_some found
  refine ⟨⟨_, whole.symm⟩, written.characters, ?_⟩
  intro c next
  rw [← List.getElem?_drop] at next
  cases behind : text.drop place with
  | nil => simp [behind] at next
  | cons first rest =>
    rw [behind, readName?] at found
    rw [behind] at next
    split at found
    · obtain rfl := Option.some.inj found
      have stops := List.head?_dropWhile_not isNameRest rest
      have split : rest.drop (rest.takeWhile isNameRest).length = rest.dropWhile isNameRest := by
        conv => lhs; arg 2; rw [← List.takeWhile_append_dropWhile (p := isNameRest) (l := rest)]
        exact List.drop_left
      rw [← split, List.head?_drop] at stops
      rw [List.length_cons, List.getElem?_cons_succ] at next
      rw [next] at stops
      exact stops
    · cases found

/-! ## References where they stand -/

theorem DollarToken.spell_reference (name : List Char) (modifier : Option (List Char)) :
    (DollarToken.reference name modifier).spell = spellReference name modifier := rfl

theorem Reference.range_of_ofHit? {origin : Int} {hit : Text.Hit DollarToken} {reference : Reference}
    (isReference : Reference.ofHit? origin hit = some reference) :
    reference.range = ⟨origin + hit.start, origin + hit.stop⟩ := by
  rw [Reference.ofHit?] at isReference
  split at isReference
  · cases isReference
  · cases isReference
    rfl

theorem Reference.raw_of_ofHit? {origin : Int} {hit : Text.Hit DollarToken} {reference : Reference}
    (isReference : ofHit? origin hit = some reference) :
    reference.raw.toList =
      spellReference reference.name.toList (reference.modifier.map String.toList) := by
  rw [ofHit?] at isReference
  split at isReference
  · cases isReference
  next name modifier isToken =>
    cases isReference
    simp only [String.toList_ofList]
    cases modifier <;> simp

theorem Reference.raw_eq {origin : Int} {reference : Reference} {text : List Char}
    (member : reference ∈ referencesIn text origin) :
    reference.raw.toList =
      spellReference reference.name.toList (reference.modifier.map String.toList) := by
  obtain ⟨hit, _, isReference⟩ := List.mem_filterMap.mp member
  exact raw_of_ofHit? isReference

/-- A reference that is read in front of a text is read at the place where it stands in the whole. -/
theorem isReadAt_ofHit? (origin : Int) (before : List Char) {rest name : List Char}
    {modifier : Option (List Char)} {length : Nat}
    (found : readDollar ((DollarToken.reference name modifier).spell ++ rest) =
      some (length, .reference name modifier)) :
    ∃ reference, Reference.ofHit? origin ⟨before.length,
        (DollarToken.reference name modifier).spell.length, .reference name modifier⟩ =
          some reference ∧
      reference.IsReadAt (before ++ ((DollarToken.reference name modifier).spell ++ rest)) origin
        before.length := by
  rw [DollarToken.spell_reference] at found ⊢
  obtain ⟨body, spelled⟩ : ∃ body, spellReference name modifier = '$' :: body := by
    cases modifier <;> exact ⟨_, rfl⟩
  rw [spelled, List.cons_append] at found
  obtain ⟨_, nameFound, modifierFound⟩ := readDollar_reference found
  have behind : (before ++ (spellReference name modifier ++ rest)).drop (before.length + 1) =
      body ++ rest := by
    rw [← List.drop_drop, List.drop_left, spelled]
    rfl
  have further (count : Nat) : (before ++ (spellReference name modifier ++ rest))[before.length + 1 +
      count]? = (body ++ rest)[count]? := by
    rw [← behind, List.getElem?_drop]
  refine ⟨_, rfl, ?_⟩
  constructor
  case name =>
    rw [String.toList_ofList]
    exact isNameRun_of_readName? (behind ▸ nameFound)
  case hasModifier =>
    have second := further (name.length + 1)
    rw [show before.length + 1 + (name.length + 1) = before.length + 2 + name.length by omega] at second
    rw [String.length_ofList, further, second, Option.isSome_map, ← modifierFound,
      isSome_readModifier?_iff, List.getElem?_drop, List.getElem?_drop, Nat.add_zero]
  case modifier =>
    intro word same
    obtain ⟨characters, isModifier, rfl⟩ := Option.map_eq_some_iff.mp same
    rw [String.length_ofList, String.toList_ofList]
    apply isNameRun_of_readName?
    rw [isModifier, readModifier?.eq_def] at modifierFound
    split at modifierFound
    next more point =>
      have behindPoint : (before ++ (spellReference name modifier ++ rest)).drop
          (before.length + 2 + name.length) = more := by
        have place : before.length + 2 + name.length = before.length + 1 + (name.length + 1) := by
          omega
        rw [place, ← List.drop_drop, behind, ← List.drop_drop, point]
        rfl
      rw [behindPoint]
      exact modifierFound
    next => cases modifierFound
  case raw =>
    exact @Reference.raw_of_ofHit? origin ⟨before.length, _, .reference name modifier⟩ _ rfl
  case range =>
    simp only [String.length_ofList, Text.Hit.stop, Range.mk.injEq, true_and]
    omega
  case slice =>
    have stands : StandsAt (spellReference name modifier) before.length
        (before ++ (spellReference name modifier ++ rest)) := by
      rw [StandsAt, List.drop_left]
      exact List.prefix_append _ _
    have shifted : Range.shift ⟨origin + before.length, origin + (Text.Hit.stop
        ⟨before.length, (spellReference name modifier).length,
          DollarToken.reference name modifier⟩ : Nat)⟩ (-origin) =
        ⟨before.length, (before.length : Int) + (spellReference name modifier).length⟩ := by
      simp only [Range.shift, Text.Hit.stop, Range.mk.injEq]
      omega
    rw [String.toList_ofList, shifted, stands.slice]

theorem not_beginsReference_of_ne {text : List Char} {place : Nat} {c : Char} (other : c ≠ '$')
    (stands : text[place]? = some c) : ¬ BeginsReference text place := by
  rintro ⟨dollar, _⟩
  exact other (Option.some.inj (stands.symm.trans dollar))

/-- No dollar sign is left over at the end of a text that the next one could be paired with. -/
def IsPaired (before rest : List Char) : Prop :=
  rest.head? = some '$' → dollarsAtEnd before % 2 = 0

theorem getElem?_middle (before : List Char) (c : Char) (rest : List Char) :
    (before ++ c :: rest)[before.length]? = some c := by
  simp

theorem take_middle (before : List Char) (c : Char) (rest : List Char) :
    (before ++ c :: rest).take (before.length + 1) = before ++ [c] := by
  rw [List.append_cons, List.take_left']
  simp

theorem getElem?_behind (before : List Char) (c : Char) (rest : List Char) :
    (before ++ c :: rest)[before.length + 1]? = rest[0]? := by
  rw [List.getElem?_append_right (by omega), Nat.add_sub_cancel_left, List.getElem?_cons_succ]

/-- Whether a dollar sign begins a reference, in terms of what stands in front of it and behind. -/
theorem beginsReference_dollar_iff (before rest : List Char) :
    BeginsReference (before ++ '$' :: rest) before.length ↔
      dollarsAtEnd before % 2 = 0 ∧ rest[0]?.any isNameStart = true := by
  rw [BeginsReference, getElem?_middle, take_middle, getElem?_behind, dollarsAtEnd_dollar]
  constructor
  · rintro ⟨_, odd, named⟩
    exact ⟨by omega, named⟩
  · rintro ⟨even, named⟩
    exact ⟨rfl, by omega, named⟩

/-- No reference begins inside a piece without dollar signs. -/
theorem filter_beginsReference_of_notMem (before rest : List Char) {piece : List Char}
    (clean : '$' ∉ piece) :
    (List.range' before.length piece.length).filter (BeginsReference (before ++ (piece ++ rest))) =
      [] := by
  rw [List.filter_eq_nil_iff]
  intro place inside begins
  obtain ⟨dollar, _⟩ := of_decide_eq_true begins
  obtain ⟨low, high⟩ := List.mem_range'_1.mp inside
  rw [List.getElem?_append_right low, List.getElem?_append_left (by omega)] at dollar
  exact clean (List.mem_of_getElem? dollar)

/-- The scan from a place on finds the references that begin there or behind it, if no dollar sign is
    left over in front of it. -/
theorem forall₂_hitsFrom (origin : Int) (before text : List Char) (paired : IsPaired before text) :
    List.Forall₂ (Reference.IsReadAt (before ++ text) origin)
      ((List.range' before.length text.length).filter (BeginsReference (before ++ text)))
      ((Text.hitsFrom readDollar before.length 0 text).filterMap (Reference.ofHit? origin)) := by
  induction text using dollarInduction generalizing before with
  | nil => exact .nil
  | plain c rest nothing ih =>
    -- A dollar sign that begins nothing has no second one behind it, and no name.
    have single : IsPaired (before ++ [c]) rest ∧
        ¬ BeginsReference (before ++ c :: rest) before.length := by
      by_cases dollar : c = '$'
      · subst dollar
        have alone : rest.head? ≠ some '$' := by
          intro double
          obtain ⟨more, rfl⟩ := List.head?_eq_some_iff.mp double
          cases nothing
        refine ⟨fun double => absurd double alone, ?_⟩
        rw [readDollar_single alone, Option.map_eq_none_iff] at nothing
        rw [beginsReference_dollar_iff, ← isSome_readName?_iff, nothing]
        rintro ⟨_, named⟩
        cases named
      · refine ⟨fun _ => by rw [dollarsAtEnd_of_ne dollar], ?_⟩
        exact not_beginsReference_of_ne dollar (getElem?_middle before c rest)
    have further := ih (before ++ [c]) single.1
    rw [List.length_append, List.append_assoc, List.singleton_append] at further
    rw [Text.hitsFrom_of_none _ nothing, List.length_cons, List.range'_succ,
      List.filter_cons_of_neg (by simpa using single.2)]
    exact further
  | token token rest wellFormed found ih =>
    have nonempty : token.spell ++ rest ≠ [] := by simp [token.spell_ne_nil]
    have positive := List.length_pos_iff.mpr token.spell_ne_nil
    have further (isPaired : IsPaired (before ++ token.spell) rest) := ih _ isPaired
    simp only [List.length_append, List.append_assoc] at further
    rw [Text.hitsFrom_of_some _ nonempty positive found, List.drop_left, List.length_append,
      ← List.range'_append_1, List.filter_append]
    cases wellFormed with
    | escaped =>
      have even : dollarsAtEnd before % 2 = 0 := paired rfl
      have first : ¬ BeginsReference (before ++ '$' :: '$' :: rest) before.length := by
        rw [beginsReference_dollar_iff]
        rintro ⟨_, named⟩
        cases named
      have second : ¬ BeginsReference (before ++ '$' :: '$' :: rest) (before.length + 1) := by
        have place : (before ++ ['$']).length = before.length + 1 := by simp
        rw [← place, List.append_cons, beginsReference_dollar_iff, dollarsAtEnd_dollar]
        rintro ⟨odd, _⟩
        omega
      have neither : (List.range' before.length 2).filter
          (BeginsReference (before ++ '$' :: '$' :: rest)) = [] := by
        simp [List.range'_succ, first, second]
      have isPaired : IsPaired (before ++ ['$', '$']) rest := by
        intro _
        rw [List.append_cons, dollarsAtEnd_dollar, dollarsAtEnd_dollar]
        omega
      exact neither.symm ▸ further isPaired
    | @reference name modifier nameWritten modifierWritten =>
      obtain ⟨body, spelled, nonemptyBody, clean⟩ :=
        spellReference_eq (.reference nameWritten modifierWritten)
      rw [← DollarToken.spell_reference] at spelled
      obtain ⟨reference, isReference, isRead⟩ := isReadAt_ofHit? origin before found
      have isPaired : IsPaired (before ++ (DollarToken.reference name modifier).spell) rest := by
        intro _
        rw [spelled, List.append_cons, dollarsAtEnd_append_of_notMem nonemptyBody clean]
      -- The dollar sign is the one that begins the reference; the rest of it holds none.
      have first : BeginsReference (before ++ '$' :: (body ++ rest)) before.length := by
        rw [spelled, List.cons_append] at found paired
        obtain ⟨_, nameFound, _⟩ := readDollar_reference found
        rw [beginsReference_dollar_iff, ← isSome_readName?_iff, nameFound]
        exact ⟨paired rfl, rfl⟩
      have others := filter_beginsReference_of_notMem (before ++ ['$']) rest clean
      rw [List.length_append, List.append_assoc, List.singleton_append] at others
      have only : (List.range' before.length (DollarToken.reference name modifier).spell.length).filter
          (BeginsReference (before ++ ((DollarToken.reference name modifier).spell ++ rest))) =
            [before.length] := by
        rw [spelled, List.cons_append, List.length_cons, List.range'_succ,
          List.filter_cons_of_pos (by simpa using first)]
        exact congrArg _ others
      rw [only, List.filterMap_cons_some isReference]
      exact .cons isRead (further isPaired)

/-! ## The scan -/

/-- References that are found in a text, from left to right: one for each place where one begins, and
    none reaches into the next one. -/
structure IsScan (text : List Char) (origin : Int) (references : List Reference) : Prop where
  places : List.Forall₂ (Reference.IsReadAt text origin)
    ((List.range text.length).filter (BeginsReference text)) references
  apart : references.Pairwise fun front back =>
    front.range.start < back.range.start ∧ front.range.stop ≤ back.range.start

theorem isScan_referencesIn (text : List Char) (origin : Int) :
    IsScan text origin (referencesIn text origin) := by
  constructor
  case places =>
    have unpaired : IsPaired [] text := fun _ => rfl
    rw [List.range_eq_range']
    exact forall₂_hitsFrom origin [] text unpaired
  case apart =>
    refine List.Pairwise.filterMap _ ?_ (Text.pairwise_hitsFrom readDollar 0 0 text)
    intro front back apart reference isReference other isOther
    rw [Reference.range_of_ofHit? isReference, Reference.range_of_ofHit? isOther]
    dsimp only
    omega

theorem leftmost_of_referenceAt? {text : List Char} {offset : Int} {reference : Reference}
    (found : referenceAt? text offset = some reference) :
    reference ∈ referencesIn text ∧ reference.range.touches offset = true ∧
      ∀ other ∈ referencesIn text, other.range.touches offset = true →
        other = reference ∨ reference.range.start < other.range.start := by
  have ordered := (isScan_referencesIn text 0).apart
  obtain ⟨touches, front, back, split, passed⟩ := List.find?_eq_some_iff_append.mp found
  refine ⟨List.mem_of_find?_eq_some found, touches, fun other member otherTouches => ?_⟩
  rw [split] at ordered member
  rcases List.mem_append.mp member with before | at_or_behind
  · have untouched := passed other before
    rw [otherTouches] at untouched
    cases untouched
  · rcases List.mem_cons.mp at_or_behind with same | behind
    · exact .inl same
    · exact .inr (List.rel_of_pairwise_cons (List.pairwise_append.mp ordered).2.1 behind).1

/-- A cursor finds the leftmost of the references that it touches. -/
theorem referenceAt?_eq_some_iff {text : List Char} {offset : Int} {reference : Reference} :
    referenceAt? text offset = some reference ↔
      reference ∈ referencesIn text ∧ reference.range.touches offset = true ∧
        ∀ other ∈ referencesIn text, other.range.touches offset = true →
          reference.range.start ≤ other.range.start := by
  constructor
  · intro found
    obtain ⟨member, touches, leftmost⟩ := leftmost_of_referenceAt? found
    refine ⟨member, touches, fun other otherMember otherTouches => ?_⟩
    rcases leftmost other otherMember otherTouches with rfl | later
    · exact Int.le_refl _
    · exact Int.le_of_lt later
  · rintro ⟨member, touches, leftmost⟩
    cases found : referenceAt? text offset with
    | none => exact absurd touches (List.find?_eq_none.mp found reference member)
    | some first =>
      obtain ⟨firstMember, firstTouches, firstLeftmost⟩ := leftmost_of_referenceAt? found
      have notLater := leftmost first firstMember firstTouches
      rcases firstLeftmost reference member touches with rfl | later
      · rfl
      · exact absurd later (Int.not_lt.mpr notLater)

theorem referenceAt?_eq_none_iff {text : List Char} {offset : Int} :
    referenceAt? text offset = none ↔
      ∀ reference ∈ referencesIn text, ¬ reference.range.touches offset = true := by
  rw [referenceAt?, List.find?_eq_none]

/-- References are exactly where the text around a dollar sign says, whatever stands further to the
    left, and a cursor finds the leftmost one that it touches. -/
theorem referencesIn_exact (text : List Char) (origin : Int) :
    IsScan text origin (referencesIn text origin) ∧
      ∀ offset : Int,
        (referenceAt? text offset = none ↔ ∀ reference ∈ referencesIn text,
          ¬ (reference.range.start ≤ offset ∧ offset ≤ reference.range.stop)) ∧
        ∀ reference, referenceAt? text offset = some reference ↔
          reference ∈ referencesIn text ∧
            (reference.range.start ≤ offset ∧ offset ≤ reference.range.stop) ∧
            ∀ other ∈ referencesIn text,
              other.range.start ≤ offset ∧ offset ≤ other.range.stop →
                reference.range.start ≤ other.range.start := by
  refine ⟨isScan_referencesIn text origin, fun offset => ?_⟩
  have touches_iff (range : Range) : range.touches offset = true ↔
      range.start ≤ offset ∧ offset ≤ range.stop := by
    simp [Range.touches]
  simp only [referenceAt?_eq_none_iff, referenceAt?_eq_some_iff, touches_iff, implies_true, and_self]

end Marginalia
