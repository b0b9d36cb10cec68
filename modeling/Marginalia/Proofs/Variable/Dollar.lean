import Marginalia.Proofs.Text.Scan
import Marginalia.Variable.Reference
import Mathlib.Data.List.TakeWhile

/-!
# What a dollar sign begins

The reading of references is exact: what is read in front of a text is the written form of the token
followed by the rest.  So every text falls apart into plain characters, doubled dollar signs and
references, and a property of texts is proved by induction on these parts.
-/

namespace Marginalia

/-! ## Names -/

theorem isNameRest_of_isNameStart {c : Char} (starts : isNameStart c = true) :
    isNameRest c = true := by
  simp only [isNameStart, isNameRest, Char.isAlphanum, Bool.or_eq_true] at starts ⊢
  exact starts.imp_left Or.inl

/-- A name as it can be written: not empty, and of characters for names only. -/
structure IsWrittenName (name : List Char) : Prop where
  nonempty : name ≠ []
  characters : ∀ c ∈ name, isNameRest c = true

theorem IsWrittenName.notMem {name : List Char} (written : IsWrittenName name) {c : Char}
    (foreign : isNameRest c = false) : c ∉ name := fun member =>
  Bool.false_ne_true (foreign.symm.trans (written.characters c member))

theorem readName?_eq_some {text name : List Char} (found : readName? text = some name) :
    IsWrittenName name ∧ text = name ++ text.drop name.length := by
  cases text with
  | nil => simp [readName?] at found
  | cons c rest =>
    rw [readName?] at found
    split at found
    next starts =>
      obtain rfl := Option.some.inj found
      constructor
      · refine ⟨List.cons_ne_nil _ _, fun d member => ?_⟩
        rcases List.mem_cons.mp member with rfl | later
        · exact isNameRest_of_isNameStart starts
        · exact List.mem_takeWhile_imp later
      · have whole := List.prefix_iff_eq_append.mp (List.takeWhile_prefix isNameRest (l := rest))
        rw [List.cons_append, List.length_cons, List.drop_succ_cons, whole]
    next => simp at found

theorem readModifier?_eq_some {text modifier : List Char}
    (found : readModifier? text = some modifier) :
    IsWrittenName modifier ∧ text = '.' :: modifier ++ text.drop (modifier.length + 1) := by
  unfold readModifier? at found
  split at found
  next rest =>
    obtain ⟨written, whole⟩ := readName?_eq_some found
    refine ⟨written, ?_⟩
    rw [List.drop_succ_cons, List.cons_append, ← whole]
  next => simp at found

/-! ## Tokens -/

namespace DollarToken

def spell : DollarToken → List Char
  | .escaped => ['$', '$']
  | .reference name modifier => spellReference name modifier

/-- The name and the modifier that a token mentions, if it is a reference. -/
def mention? : DollarToken → Option (String × Option String)
  | .escaped => none
  | .reference name modifier => some (String.ofList name, modifier.map String.ofList)

/-- The names of a token are names as they can be written. -/
inductive WellFormed : DollarToken → Prop where
  | escaped : WellFormed .escaped
  | reference {name : List Char} {modifier : Option (List Char)} (nameWritten : IsWrittenName name)
      (modifierWritten : ∀ word, modifier = some word → IsWrittenName word) :
      WellFormed (.reference name modifier)

theorem spell_ne_nil (token : DollarToken) : token.spell ≠ [] := by
  cases token with
  | escaped => exact List.cons_ne_nil _ _
  | reference name modifier => cases modifier <;> exact List.cons_ne_nil _ _

end DollarToken

/-- A dollar sign that no second one follows begins a reference where a name follows it. -/
theorem readDollar_single {rest : List Char} (single : rest.head? ≠ some '$') :
    readDollar ('$' :: rest) = (readName? rest).map fun name =>
      match readModifier? (rest.drop name.length) with
      | none => (1 + name.length, .reference name none)
      | some modifier =>
        (2 + name.length + modifier.length, .reference name (some modifier)) := by
  cases rest with
  | nil => rfl
  | cons c rest =>
    have apart : c ≠ '$' := fun same => single (by rw [same]; rfl)
    unfold readDollar
    split
    next equal => simp_all
    next equal =>
      obtain rfl := (List.cons.inj equal).2
      cases readName? (c :: rest) with
      | none => rfl
      | some name =>
        dsimp only [Option.map_some]
        cases readModifier? ((c :: rest).drop name.length) <;> rfl
    next other => exact absurd rfl (other (c :: rest))

theorem readDollar_reference {rest name : List Char} {modifier : Option (List Char)} {length : Nat}
    (found : readDollar ('$' :: rest) = some (length, .reference name modifier)) :
    rest.head? ≠ some '$' ∧ readName? rest = some name ∧
      readModifier? (rest.drop name.length) = modifier := by
  have single : rest.head? ≠ some '$' := by
    intro double
    obtain ⟨more, rfl⟩ := List.head?_eq_some_iff.mp double
    cases found
  rw [readDollar_single single] at found
  obtain ⟨written, nameFound, answer⟩ := Option.map_eq_some_iff.mp found
  cases modifierFound : readModifier? (rest.drop written.length) with
  | none =>
    rw [modifierFound] at answer
    cases answer
    exact ⟨single, nameFound, modifierFound⟩
  | some word =>
    rw [modifierFound] at answer
    cases answer
    exact ⟨single, nameFound, modifierFound⟩

theorem readDollar_of_ne {c : Char} {rest : List Char} (apart : c ≠ '$') :
    readDollar (c :: rest) = none := by
  unfold readDollar
  split <;> simp_all

/-- What is read in front of a text is the written form of a token, and the rest follows it. -/
theorem readDollar_eq_some {text : List Char} {length : Nat} {token : DollarToken}
    (found : readDollar text = some (length, token)) :
    token.WellFormed ∧ length = token.spell.length ∧ text = token.spell ++ text.drop length := by
  cases text with
  | nil => simp [readDollar] at found
  | cons c rest =>
    by_cases dollar : c = '$'
    · subst dollar
      by_cases double : rest.head? = some '$'
      · obtain ⟨more, rfl⟩ := List.head?_eq_some_iff.mp double
        obtain ⟨rfl, rfl⟩ := Prod.mk.inj (Option.some.inj found)
        exact ⟨.escaped, rfl, rfl⟩
      · rw [readDollar_single double] at found
        obtain ⟨name, nameFound, answer⟩ := Option.map_eq_some_iff.mp found
        obtain ⟨nameWritten, nameFront⟩ := readName?_eq_some nameFound
        -- Without a modifier the name ends the reference, even if a dot follows.
        cases modifierFound : readModifier? (rest.drop name.length) with
        | none =>
          rw [modifierFound] at answer
          obtain ⟨rfl, rfl⟩ := Prod.mk.inj answer
          refine ⟨.reference nameWritten (by simp), ?_, ?_⟩
          · simp only [DollarToken.spell, spellReference, List.length_cons]
            omega
          · rw [Nat.add_comm, List.drop_succ_cons]
            exact congrArg ('$' :: ·) nameFront
        | some modifier =>
          rw [modifierFound] at answer
          obtain ⟨rfl, rfl⟩ := Prod.mk.inj answer
          obtain ⟨modifierWritten, modifierFront⟩ := readModifier?_eq_some modifierFound
          refine ⟨.reference nameWritten ?_, ?_, ?_⟩
          · intro word same
            exact Option.some.inj same ▸ modifierWritten
          · simp only [DollarToken.spell, spellReference, List.length_cons, List.length_append]
            omega
          · have lengths : 2 + name.length + modifier.length =
                (name.length + (modifier.length + 1)) + 1 := by omega
            rw [lengths, List.drop_succ_cons, ← List.drop_drop]
            conv => lhs; rw [nameFront, modifierFront]
            simp [DollarToken.spell, spellReference]
    · rw [readDollar_of_ne dollar] at found
      simp at found

theorem spellReference_eq {name : List Char} {modifier : Option (List Char)}
    (wellFormed : (DollarToken.reference name modifier).WellFormed) :
    ∃ body, spellReference name modifier = '$' :: body ∧ body ≠ [] ∧ '$' ∉ body := by
  cases wellFormed with
  | reference nameWritten modifierWritten =>
    have nameClean : '$' ∉ name := nameWritten.notMem rfl
    cases modifier with
    | none => exact ⟨name, rfl, nameWritten.nonempty, nameClean⟩
    | some word =>
      have wordClean : '$' ∉ word := (modifierWritten word rfl).notMem rfl
      refine ⟨name ++ '.' :: word, rfl, by simp, ?_⟩
      simp [nameClean, wordClean]

/-! ## The parts of a text -/

/-- A text is read from left to right: it is empty, or begins with a character that begins no token,
    or with the written form of a token. -/
@[elab_as_elim]
theorem dollarInduction {motive : List Char → Prop} (nil : motive [])
    (plain : ∀ (c : Char) (rest : List Char), readDollar (c :: rest) = none → motive rest →
      motive (c :: rest))
    (token : ∀ (token : DollarToken) (rest : List Char), token.WellFormed →
      readDollar (token.spell ++ rest) = some (token.spell.length, token) → motive rest →
      motive (token.spell ++ rest))
    (text : List Char) : motive text := by
  induction size : text.length using Nat.strongRecOn generalizing text with
  | ind _ ih =>
    subst size
    cases text with
    | nil => exact nil
    | cons c rest =>
      cases found : readDollar (c :: rest) with
      | none => exact plain c rest found (ih _ (Nat.lt_succ_self _) rest rfl)
      | some answer =>
        obtain ⟨length, part⟩ := answer
        obtain ⟨wellFormed, rfl, whole⟩ := readDollar_eq_some found
        have positive := List.length_pos_iff.mpr part.spell_ne_nil
        have shorter : ((c :: rest).drop part.spell.length).length < (c :: rest).length := by
          rw [List.length_drop, List.length_cons]
          omega
        rw [whole]
        exact token part _ wellFormed (whole ▸ found) (ih _ shorter _ rfl)

theorem not_double_of_readDollar {c : Char} {rest : List Char}
    (nothing : readDollar (c :: rest) = none) : ¬ ['$', '$'] <+: c :: rest := by
  rintro ⟨more, equal⟩
  rw [← equal] at nothing
  cases nothing

/-- The references of a text stand one behind the other. -/
theorem pairwise_referencesIn (text : List Char) :
    (referencesIn text).Pairwise fun front back => front.range.start < back.range.start := by
  refine List.Pairwise.filterMap _ ?_ (Text.pairwise_hitsFrom readDollar 0 0 text)
  intro hit later apart reference isReference other isOther
  have starts : ∀ {hit : Text.Hit DollarToken} {reference : Reference},
      Reference.ofHit? 0 hit = some reference → reference.range.start = hit.start := by
    intro hit reference isReference
    rw [Reference.ofHit?] at isReference
    split at isReference
    · cases isReference
    · cases isReference
      simp
  rw [starts isReference, starts isOther]
  omega

/-! ## Mentions -/

def Reference.mention (reference : Reference) : String × Option String :=
  (reference.name, reference.modifier)

/-- The names that a text mentions with their modifiers, from left to right. -/
def mentionsIn (text : List Char) : List (String × Option String) :=
  (referencesIn text).map Reference.mention

/-- What a text mentions depends on its tokens, not on where they stand. -/
theorem mentionsIn_eq (text : List Char) :
    mentionsIn text =
      ((Text.hits readDollar text).map Text.Hit.token).filterMap DollarToken.mention? := by
  rw [mentionsIn, referencesIn, List.map_filterMap, List.filterMap_map]
  congr 1
  funext hit
  obtain ⟨start, length, token⟩ := hit
  cases token <;> rfl

@[simp] theorem mentionsIn_nil : mentionsIn [] = [] := rfl

theorem mentionsIn_plain {c : Char} {rest : List Char} (nothing : readDollar (c :: rest) = none) :
    mentionsIn (c :: rest) = mentionsIn rest := by
  rw [mentionsIn_eq, mentionsIn_eq, Text.hits, Text.hitsFrom_of_none 0 nothing,
    Text.map_token_hitsFrom _ (0 + 1) 0]
  rfl

theorem mentionsIn_token (token : DollarToken) {rest : List Char}
    (found : readDollar (token.spell ++ rest) = some (token.spell.length, token)) :
    mentionsIn (token.spell ++ rest) = token.mention?.toList ++ mentionsIn rest := by
  have nonempty : token.spell ++ rest ≠ [] := by simp [token.spell_ne_nil]
  have positive := List.length_pos_iff.mpr token.spell_ne_nil
  rw [mentionsIn_eq, mentionsIn_eq, Text.hits, Text.hitsFrom_of_some 0 nonempty positive found,
    List.drop_left, List.map_cons, Text.map_token_hitsFrom _ (0 + token.spell.length) 0]
  cases token <;> rfl

theorem written_of_mem_mentionsIn {text : List Char} {mention : String × Option String}
    (member : mention ∈ mentionsIn text) :
    IsWrittenName mention.1.toList ∧
      ∀ word, mention.2 = some word → IsWrittenName word.toList := by
  induction text using dollarInduction with
  | nil => cases member
  | plain c rest nothing ih =>
    rw [mentionsIn_plain nothing] at member
    exact ih member
  | token token rest wellFormed found ih =>
    rw [mentionsIn_token token found, List.mem_append] at member
    rcases member with own | later
    · cases wellFormed with
      | escaped => cases own
      | reference nameWritten modifierWritten =>
        obtain rfl := List.mem_singleton.mp own
        refine ⟨by rwa [String.toList_ofList], fun word equal => ?_⟩
        obtain ⟨characters, found, rfl⟩ := Option.map_eq_some_iff.mp equal
        rw [String.toList_ofList]
        exact modifierWritten characters found
    · exact ih later

theorem mentionsIn_append {piece : List Char} (rest : List Char) (clean : '$' ∉ piece) :
    mentionsIn (piece ++ rest) = mentionsIn rest := by
  induction piece with
  | nil => rfl
  | cons c piece ih =>
    simp only [List.mem_cons, not_or] at clean
    rw [List.cons_append, mentionsIn_plain (readDollar_of_ne (Ne.symm clean.1)), ih clean.2]

end Marginalia
