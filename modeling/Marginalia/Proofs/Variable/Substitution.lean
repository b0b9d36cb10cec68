import Marginalia.Proofs.Text.Search
import Marginalia.Proofs.Variable.Dollar
import Marginalia.Variable.Expansion

/-!
# Expansion in one pass

The expansion of a text hides the doubled dollar signs, replaces the references from the last one to
the first and shows the doubled dollar signs as single ones.  Here it is compared with one pass over
the text from left to right.  The steps are taken one by one: hiding does not change which references
are read, replacing from the right is a pass from the left, and showing undoes hiding wherever the
mark is not in the text by chance.
-/

namespace Marginalia

/-- One pass over a text from left to right.  `dollar` stands for every two dollar signs, and `render`
    tells what stands for a reference; other characters are copied, and what was put in is not read
    again. -/
def substitute (dollar : List Char) (render : String → Option String → String) :
    List Char → List Char
  | [] => []
  | '$' :: '$' :: rest => dollar ++ substitute dollar render rest
  | '$' :: rest =>
    match readName? rest with
    | none => '$' :: substitute dollar render rest
    | some name =>
      let behind := rest.drop name.length
      match readModifier? behind with
      | none => (render (String.ofList name) none).toList ++ substitute dollar render behind
      | some modifier =>
        (render (String.ofList name) (some (String.ofList modifier))).toList ++
          substitute dollar render (behind.drop (modifier.length + 1))
  | c :: rest => c :: substitute dollar render rest
termination_by text => text.length
decreasing_by all_goals simp only [List.length_cons, List.length_drop]; omega

def DollarToken.replacement (dollar : List Char) (render : String → Option String → String) :
    DollarToken → List Char
  | .escaped => dollar
  | .reference name modifier => (render (String.ofList name) (modifier.map String.ofList)).toList

section

variable {dollar : List Char} {render : String → Option String → String}

/-! ## The parts of a text in a pass -/

@[simp] theorem substitute_nil : substitute dollar render [] = [] := by
  rw [substitute]

theorem substitute_plain {c : Char} {rest : List Char} (nothing : readDollar (c :: rest) = none) :
    substitute dollar render (c :: rest) = c :: substitute dollar render rest := by
  by_cases isDollar : c = '$'
  · subst isDollar
    have single : rest.head? ≠ some '$' := by
      intro double
      obtain ⟨more, rfl⟩ := List.head?_eq_some_iff.mp double
      cases nothing
    have nameless : readName? rest = none := by
      rwa [readDollar_single single, Option.map_eq_none_iff] at nothing
    rw [substitute]
    · rw [nameless]
    · rintro more rfl
      exact single rfl
  · rw [substitute]
    · intro more same
      exact absurd same isDollar
    · exact isDollar

theorem substitute_token (token : DollarToken) {rest : List Char}
    (found : readDollar (token.spell ++ rest) = some (token.spell.length, token)) :
    substitute dollar render (token.spell ++ rest) =
      token.replacement dollar render ++ substitute dollar render rest := by
  cases token with
  | escaped => exact substitute.eq_2 dollar render rest
  | reference name modifier =>
    obtain ⟨text, dollarFront⟩ : ∃ text, spellReference name modifier = '$' :: text := by
      cases modifier <;> exact ⟨_, rfl⟩
    simp only [DollarToken.spell, dollarFront, List.cons_append] at found ⊢
    obtain ⟨single, nameFound, modifierFound⟩ := readDollar_reference found
    rw [substitute]
    · simp only [nameFound, modifierFound]
      cases modifier with
      | none =>
        obtain rfl : name = text := (List.cons.inj dollarFront).2
        rw [List.drop_left]
        rfl
      | some word =>
        obtain rfl : name ++ '.' :: word = text := (List.cons.inj dollarFront).2
        simp [DollarToken.replacement]
    · intro more same
      exact single (by rw [same]; rfl)

theorem substitute_append {piece : List Char} (rest : List Char) (clean : '$' ∉ piece) :
    substitute dollar render (piece ++ rest) = piece ++ substitute dollar render rest := by
  induction piece with
  | nil => rfl
  | cons c piece ih =>
    simp only [List.mem_cons, not_or] at clean
    rw [List.cons_append, substitute_plain (readDollar_of_ne (Ne.symm clean.1)), ih clean.2,
      List.cons_append]

end

/-- A pass depends on what stands for the mentioned names alone. -/
theorem substitute_congr {dollar : List Char} {render other : String → Option String → String}
    {text : List Char}
    (same : ∀ mention ∈ mentionsIn text, render mention.1 mention.2 = other mention.1 mention.2) :
    substitute dollar render text = substitute dollar other text := by
  induction text using dollarInduction with
  | nil => rw [substitute_nil, substitute_nil]
  | plain c rest nothing ih =>
    rw [mentionsIn_plain nothing] at same
    rw [substitute_plain nothing, substitute_plain nothing, ih same]
  | token token rest wellFormed found ih =>
    rw [mentionsIn_token token found] at same
    have behind := ih fun mention member => same mention (List.mem_append_right _ member)
    rw [substitute_token token found, substitute_token token found, behind]
    cases token with
    | escaped => rfl
    | reference name modifier =>
      have own := same _ (List.mem_append_left _ List.mem_cons_self)
      rw [DollarToken.replacement, DollarToken.replacement, own]

/-! ## Hiding doubled dollar signs -/

theorem dollar_notMem_escapeMark : '$' ∉ escapeMark := by decide

theorem hideEscapes_escaped (rest : List Char) :
    hideEscapes ('$' :: '$' :: rest) = escapeMark ++ hideEscapes rest :=
  Text.replaceAll_append rest (List.cons_ne_nil _ _)

theorem hideEscapes_cons {c : Char} {rest : List Char} (apart : ¬ ['$', '$'] <+: c :: rest) :
    hideEscapes (c :: rest) = c :: hideEscapes rest :=
  Text.replaceAll_cons apart

theorem hideEscapes_append {piece : List Char} (rest : List Char) (clean : '$' ∉ piece) :
    hideEscapes (piece ++ rest) = piece ++ hideEscapes rest :=
  Text.replaceAll_append_of_notMem rest clean

/-- The doubled dollar signs of a text are in front of it or hidden further behind. -/
theorem hideEscapes_cases (text : List Char) :
    text = [] ∨ (∃ rest, text = '$' :: '$' :: rest) ∨
      ∃ c rest, text = c :: rest ∧ hideEscapes text = c :: hideEscapes rest := by
  cases text with
  | nil => exact .inl rfl
  | cons c rest =>
    by_cases double : ['$', '$'] <+: c :: rest
    · obtain ⟨more, equal⟩ := double
      exact .inr (.inl ⟨more, equal.symm⟩)
    · exact .inr (.inr ⟨c, rest, rfl, hideEscapes_cons double⟩)

theorem takeWhile_hideEscapes (text : List Char) :
    (hideEscapes text).takeWhile isNameRest = text.takeWhile isNameRest := by
  induction text with
  | nil => rfl
  | cons c rest ih =>
    rcases hideEscapes_cases (c :: rest) with empty | ⟨more, equal⟩ | ⟨_, _, equal, hidden⟩
    · cases empty
    · rw [equal, hideEscapes_escaped]
      rfl
    · cases equal
      rw [hidden, List.takeWhile_cons, List.takeWhile_cons, ih]

theorem readName?_hideEscapes (text : List Char) :
    readName? (hideEscapes text) = readName? text := by
  rcases hideEscapes_cases text with rfl | ⟨more, rfl⟩ | ⟨c, rest, rfl, hidden⟩
  · rfl
  · rw [hideEscapes_escaped]
    rfl
  · rw [hidden, readName?, readName?, takeWhile_hideEscapes]

theorem readModifier?_hideEscapes (text : List Char) :
    readModifier? (hideEscapes text) = readModifier? text := by
  rcases hideEscapes_cases text with rfl | ⟨more, rfl⟩ | ⟨c, rest, rfl, hidden⟩
  · rfl
  · rw [hideEscapes_escaped]
    rfl
  · rw [hidden]
    by_cases point : c = '.'
    · subst point
      exact readName?_hideEscapes rest
    · unfold readModifier?
      split <;> split <;> simp_all

theorem drop_hideEscapes {text name : List Char} (found : readName? text = some name) :
    (hideEscapes text).drop name.length = hideEscapes (text.drop name.length) := by
  obtain ⟨written, whole⟩ := readName?_eq_some found
  conv => lhs; rw [whole]
  rw [hideEscapes_append _ (written.notMem rfl), List.drop_left]

/-- Hiding does not change what is read, except for doubled dollar signs. -/
theorem readDollar_hideEscapes {c : Char} {rest : List Char}
    (hidden : hideEscapes (c :: rest) = c :: hideEscapes rest) :
    readDollar (hideEscapes (c :: rest)) = readDollar (c :: rest) := by
  rw [hidden]
  by_cases isDollar : c = '$'
  · subst isDollar
    -- The dollar sign is not the first of two, or hiding would have replaced it.
    have single : rest.head? ≠ some '$' := by
      intro double
      obtain ⟨more, rfl⟩ := List.head?_eq_some_iff.mp double
      rw [hideEscapes_escaped] at hidden
      cases hidden
    have singleHidden : (hideEscapes rest).head? ≠ some '$' := by
      rcases hideEscapes_cases rest with rfl | ⟨more, rfl⟩ | ⟨d, more, rfl, behind⟩
      · exact single
      · exact absurd rfl single
      · rw [behind]
        exact single
    rw [readDollar_single single, readDollar_single singleHidden, readName?_hideEscapes]
    cases found : readName? rest with
    | none => rfl
    | some name =>
      simp only [Option.map_some, drop_hideEscapes found, readModifier?_hideEscapes]
  · rw [readDollar_of_ne isDollar, readDollar_of_ne isDollar]

theorem hideEscapes_plain {c : Char} {rest : List Char} (nothing : readDollar (c :: rest) = none) :
    hideEscapes (c :: rest) = c :: hideEscapes rest ∧
      readDollar (c :: hideEscapes rest) = none := by
  have hidden := hideEscapes_cons (not_double_of_readDollar nothing)
  exact ⟨hidden, by rw [← hidden, readDollar_hideEscapes hidden, nothing]⟩

theorem hideEscapes_reference {name : List Char} {modifier : Option (List Char)} {length : Nat}
    {rest : List Char} (wellFormed : (DollarToken.reference name modifier).WellFormed)
    (found : readDollar (spellReference name modifier ++ rest) =
      some (length, .reference name modifier)) :
    hideEscapes (spellReference name modifier ++ rest) =
        spellReference name modifier ++ hideEscapes rest ∧
      readDollar (spellReference name modifier ++ hideEscapes rest) =
        some (length, .reference name modifier) := by
  obtain ⟨body, spelled, nonempty, clean⟩ := spellReference_eq wellFormed
  rw [spelled, List.cons_append] at found ⊢
  have apart : ¬ ['$', '$'] <+: '$' :: (body ++ rest) := by
    obtain ⟨c, more, rfl⟩ := List.exists_cons_of_ne_nil nonempty
    intro double
    rw [List.cons_append, List.cons_prefix_cons, List.cons_prefix_cons] at double
    exact clean (double.2.1 ▸ List.mem_cons_self)
  have hidden := hideEscapes_cons apart
  have whole := hidden.trans (congrArg ('$' :: ·) (hideEscapes_append rest clean))
  exact ⟨whole, by rw [List.cons_append, ← whole, readDollar_hideEscapes hidden, found]⟩

/-- A text and what hiding makes of it have the same parts from left to right, with the mark for each
    doubled dollar sign. -/
@[elab_as_elim]
theorem hideInduction {motive : List Char → Prop} (nil : motive [])
    (plain : ∀ (c : Char) (rest : List Char), readDollar (c :: rest) = none →
      hideEscapes (c :: rest) = c :: hideEscapes rest → readDollar (c :: hideEscapes rest) = none →
      motive rest → motive (c :: rest))
    (escaped : ∀ rest : List Char, motive rest → motive ('$' :: '$' :: rest))
    (reference : ∀ (token : DollarToken) (rest : List Char), token ≠ .escaped →
      readDollar (token.spell ++ rest) = some (token.spell.length, token) →
      hideEscapes (token.spell ++ rest) = token.spell ++ hideEscapes rest →
      readDollar (token.spell ++ hideEscapes rest) = some (token.spell.length, token) →
      motive rest → motive (token.spell ++ rest))
    (text : List Char) : motive text := by
  induction text using dollarInduction with
  | nil => exact nil
  | plain c rest nothing ih =>
    obtain ⟨hidden, stillNothing⟩ := hideEscapes_plain nothing
    exact plain c rest nothing hidden stillNothing ih
  | token token rest wellFormed found ih =>
    cases token with
    | escaped => exact escaped rest ih
    | reference name modifier =>
      obtain ⟨hidden, stillFound⟩ := hideEscapes_reference wellFormed found
      exact reference (.reference name modifier) rest nofun found hidden stillFound ih

/-- After hiding, a pass puts the mark in place of doubled dollar signs. -/
theorem substitute_hideEscapes (dollar : List Char) (render : String → Option String → String)
    (text : List Char) :
    substitute dollar render (hideEscapes text) = substitute escapeMark render text := by
  induction text using hideInduction with
  | nil =>
    rw [substitute_nil]
    exact substitute_nil
  | plain c rest nothing hidden stillNothing ih =>
    rw [hidden, substitute_plain stillNothing, substitute_plain nothing, ih]
  | escaped rest ih =>
    rw [hideEscapes_escaped, substitute_append _ dollar_notMem_escapeMark, ih]
    exact (substitute_token .escaped rfl).symm
  | reference token rest isReference found hidden stillFound ih =>
    rw [hidden, substitute_token token stillFound, substitute_token token found, ih]
    cases token with
    | escaped => exact absurd rfl isReference
    | reference name modifier => rfl

theorem mentionsIn_hideEscapes (text : List Char) :
    mentionsIn (hideEscapes text) = mentionsIn text := by
  induction text using hideInduction with
  | nil => rfl
  | plain c rest nothing hidden stillNothing ih =>
    rw [hidden, mentionsIn_plain stillNothing, mentionsIn_plain nothing, ih]
  | escaped rest ih =>
    rw [hideEscapes_escaped, mentionsIn_append _ dollar_notMem_escapeMark, ih]
    exact (mentionsIn_token .escaped rfl).symm
  | reference token rest _ found hidden stillFound ih =>
    rw [hidden, mentionsIn_token token stillFound, mentionsIn_token token found, ih]

/-! ## Replacing from the right -/

theorem replaceReferences_append {m : Type → Type} [Monad m] [LawfulMonad m]
    (render : Reference → m String) (text : List Char) (front back : List Reference) :
    replaceReferences render text (front ++ back) =
      replaceReferences render text front >>= fun changed =>
        replaceReferences render changed back := by
  induction front generalizing text with
  | nil => simp [replaceReferences]
  | cons reference front ih => simp [replaceReferences, ih]

theorem splice_append (before piece after replacement : List Char) :
    splice (before ++ (piece ++ after)) ⟨before.length, before.length + piece.length⟩ replacement =
      before ++ (replacement ++ after) := by
  have stop : ((before.length : Int) + piece.length).toNat = before.length + piece.length := by
    omega
  rw [splice, stop, Int.toNat_natCast, List.take_left, ← List.append_assoc before,
    ← List.length_append, List.drop_left, List.append_assoc]

/-- Replacing the references from the last one to the first is a pass from left to right that keeps
    doubled dollar signs.  `before` is what stands in front of the text that is left to read. -/
theorem replaceReferences_hitsFrom {m : Type → Type} [Monad m] [LawfulMonad m]
    {render : String → Option String → m String} {answer : String → Option String → String}
    (before text : List Char)
    (answers : ∀ mention ∈ mentionsIn text,
      render mention.1 mention.2 = pure (answer mention.1 mention.2)) :
    replaceReferences (fun reference => render reference.name reference.modifier) (before ++ text)
        ((Text.hitsFrom readDollar before.length 0 text).filterMap
          (Reference.ofHit? 0)).reverse =
      pure (before ++ substitute ['$', '$'] answer text) := by
  induction text using dollarInduction generalizing before with
  | nil => rw [substitute_nil]; rfl
  | plain c rest nothing ih =>
    rw [mentionsIn_plain nothing] at answers
    have further := ih (before ++ [c]) answers
    rw [List.length_append, List.append_assoc, List.append_assoc] at further
    rw [Text.hitsFrom_of_none _ nothing, substitute_plain nothing]
    exact further
  | token token rest wellFormed found ih =>
    rw [mentionsIn_token token found] at answers
    have further := ih (before ++ token.spell) fun mention member =>
      answers mention (List.mem_append_right _ member)
    have nonempty : token.spell ++ rest ≠ [] := by simp [token.spell_ne_nil]
    have positive := List.length_pos_iff.mpr token.spell_ne_nil
    rw [List.length_append, List.append_assoc, List.append_assoc] at further
    rw [Text.hitsFrom_of_some _ nonempty positive found, List.drop_left, substitute_token token found]
    cases token with
    | escaped => exact further
    | reference name modifier =>
      have own := answers _ (List.mem_append_left _ List.mem_cons_self)
      -- The references further right are replaced first.  What stands in front of them is left as it
      -- is, so this reference still stands at its offset when its turn comes.
      rw [List.filterMap_cons]
      simp only [Reference.ofHit?, List.reverse_cons]
      rw [replaceReferences_append, further, pure_bind, replaceReferences, own, pure_bind,
        replaceReferences]
      simp only [Text.Hit.stop, Int.zero_add, Int.natCast_add]
      exact congrArg pure (splice_append _ _ _ _)

/-- Expanding a text is a pass that puts the mark in place of doubled dollar signs, and then shows
    them. -/
theorem expandReferences_eq {m : Type → Type} [Monad m] [LawfulMonad m]
    {render : String → Option String → m String} {answer : String → Option String → String}
    (text : List Char)
    (answers : ∀ mention ∈ mentionsIn text,
      render mention.1 mention.2 = pure (answer mention.1 mention.2)) :
    expandReferences (fun reference => render reference.name reference.modifier) text =
      pure (showEscapes (substitute escapeMark answer text)) := by
  rw [← mentionsIn_hideEscapes] at answers
  have replaced := replaceReferences_hitsFrom [] (hideEscapes text) answers
  rw [List.nil_append, List.nil_append, substitute_hideEscapes] at replaced
  rw [expandReferences, referencesToExpand, referencesIn]
  exact (congrArg (· >>= fun replaced => pure (showEscapes replaced)) replaced).trans
    (pure_bind _ _)

/-! ## Showing doubled dollar signs -/

theorem showEscapes_mark (rest : List Char) :
    showEscapes (escapeMark ++ rest) = '$' :: showEscapes rest :=
  Text.replaceAll_append rest (by decide)

theorem showEscapes_append {piece : List Char} (rest : List Char) (clean : '\x00' ∉ piece) :
    showEscapes (piece ++ rest) = piece ++ showEscapes rest :=
  Text.replaceAll_append_of_notMem rest clean

/-- Where neither the text nor what is put in has the mark by chance, showing undoes hiding: the pass
    with the mark becomes the pass with a dollar sign. -/
theorem showEscapes_substitute {render : String → Option String → String} {text : List Char}
    (textClean : '\x00' ∉ text)
    (answersClean : ∀ mention ∈ mentionsIn text, '\x00' ∉ (render mention.1 mention.2).toList) :
    showEscapes (substitute escapeMark render text) = substitute ['$'] render text := by
  induction text using dollarInduction with
  | nil => rw [substitute_nil, substitute_nil]; rfl
  | plain c rest nothing ih =>
    rw [mentionsIn_plain nothing] at answersClean
    simp only [List.mem_cons, not_or] at textClean
    have single : '\x00' ∉ [c] := by simpa using textClean.1
    rw [substitute_plain nothing, substitute_plain nothing, ← ih textClean.2 answersClean]
    exact showEscapes_append _ single
  | token token rest wellFormed found ih =>
    rw [mentionsIn_token token found] at answersClean
    have restClean : '\x00' ∉ rest := fun member => textClean (List.mem_append_right _ member)
    have further := ih restClean fun mention member =>
      answersClean mention (List.mem_append_right _ member)
    rw [substitute_token token found, substitute_token token found, ← further]
    cases token with
    | escaped => exact showEscapes_mark _
    | reference name modifier =>
      have own := answersClean _ (List.mem_append_left _ List.mem_cons_self)
      exact showEscapes_append _ own

/-- Expanding a text is one pass over it, unless the mark is in the text or in what is put in. -/
theorem expandReferences_eq_substitute {m : Type → Type} [Monad m] [LawfulMonad m]
    {render : String → Option String → m String} {answer : String → Option String → String}
    {text : List Char} (textClean : '\x00' ∉ text)
    (answers : ∀ mention ∈ mentionsIn text,
      render mention.1 mention.2 = pure (answer mention.1 mention.2))
    (answersClean : ∀ mention ∈ mentionsIn text, '\x00' ∉ (answer mention.1 mention.2).toList) :
    expandReferences (fun reference => render reference.name reference.modifier) text =
      pure (substitute ['$'] answer text) := by
  rw [expandReferences_eq text answers, showEscapes_substitute textClean answersClean]

theorem mem_substitute {dollar : List Char} {render : String → Option String → String}
    {text : List Char} {c : Char} (member : c ∈ substitute dollar render text) :
    c ∈ dollar ∨ c ∈ text ∨ ∃ mention ∈ mentionsIn text, c ∈ (render mention.1 mention.2).toList := by
  induction text using dollarInduction with
  | nil => simp at member
  | plain d rest nothing ih =>
    rw [substitute_plain nothing, List.mem_cons] at member
    rw [mentionsIn_plain nothing, List.mem_cons]
    rcases member with same | later
    · exact .inr (.inl (.inl same))
    · exact (ih later).imp_right (.imp_left .inr)
  | token token rest wellFormed found ih =>
    rw [substitute_token token found, List.mem_append] at member
    rw [mentionsIn_token token found, List.mem_append]
    rcases member with own | later
    · cases token with
      | escaped => exact .inl own
      | reference name modifier =>
        exact .inr (.inr ⟨_, List.mem_append_left _ List.mem_cons_self, own⟩)
    · rcases ih later with inDollar | inRest | ⟨mention, mentioned, inAnswer⟩
      · exact .inl inDollar
      · exact .inr (.inl (.inr inRest))
      · exact .inr (.inr ⟨mention, List.mem_append_right _ mentioned, inAnswer⟩)

end Marginalia
