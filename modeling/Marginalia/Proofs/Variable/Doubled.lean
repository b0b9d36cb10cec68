import Marginalia.Proofs.Variable.Enclosing
import Marginalia.Proofs.Variable.Listing

/-!
# Doubled dollar signs

A text is written with every dollar sign twice so that none of them begins a reference, and expanding
it gives the text back.  The mark that stands for two dollar signs on the way sets the limit: where a
text has the mark itself, or runs into the one that is put in, it is taken for a dollar sign.
-/

namespace Marginalia

/-- The text with every dollar sign written twice. -/
def doubled (text : List Char) : List Char :=
  text.flatMap fun c => if c = '$' then ['$', '$'] else [c]

/-- The text with the mark in place of every dollar sign. -/
def marked (text : List Char) : List Char :=
  text.flatMap fun c => if c = '$' then escapeMark else [c]

/-- A text clashes with the mark: the mark stands in it, or all of the mark but its last character
    does, in front of a dollar sign, where the mark that is put in begins with that character. -/
def ClashesWithMark (text : List Char) : Prop :=
  escapeMark <:+: text ∨ escapeMark.dropLast ++ ['$'] <:+: text

variable {c : Char} {text rest : List Char}

/-! ## Doubling -/

theorem doubled_dollar (rest : List Char) : doubled ('$' :: rest) = '$' :: '$' :: doubled rest :=
  rfl

theorem doubled_cons (plain : c ≠ '$') (rest : List Char) :
    doubled (c :: rest) = c :: doubled rest := by
  rw [doubled, List.flatMap_cons, if_neg plain]
  rfl

theorem doubled_of_notMem (plain : '$' ∉ text) : doubled text = text := by
  induction text with
  | nil => rfl
  | cons c rest ih =>
    rw [List.mem_cons, not_or] at plain
    rw [doubled_cons (Ne.symm plain.1), ih plain.2]

theorem mem_doubled_iff : '$' ∈ doubled text ↔ '$' ∈ text := by
  rw [doubled, List.mem_flatMap]
  constructor
  · rintro ⟨c, member, written⟩
    split at written
    next isDollar => exact isDollar ▸ member
    next => exact List.mem_singleton.mp written ▸ member
  · exact fun member => ⟨'$', member, List.mem_cons_self⟩

theorem marked_dollar (rest : List Char) : marked ('$' :: rest) = escapeMark ++ marked rest :=
  rfl

theorem marked_cons (plain : c ≠ '$') (rest : List Char) : marked (c :: rest) = c :: marked rest := by
  rw [marked, List.flatMap_cons, if_neg plain]
  rfl

/-- No dollar sign of a doubled text begins a reference. -/
theorem mentionsIn_doubled (text : List Char) : mentionsIn (doubled text) = [] := by
  induction text with
  | nil => rfl
  | cons c rest ih =>
    by_cases isDollar : c = '$'
    · subst isDollar
      rw [doubled_dollar]
      exact (mentionsIn_token .escaped rfl).trans ih
    · rw [doubled_cons isDollar, mentionsIn_plain (readDollar_of_ne isDollar), ih]

/-- A pass over a doubled text finds each pair of dollar signs where one stood. -/
theorem substitute_doubled (render : String → Option String → String) (text : List Char) :
    substitute escapeMark render (doubled text) = marked text := by
  induction text with
  | nil => exact substitute_nil
  | cons c rest ih =>
    by_cases isDollar : c = '$'
    · subst isDollar
      rw [doubled_dollar, marked_dollar, ← ih]
      exact substitute_token .escaped rfl
    · rw [doubled_cons isDollar, marked_cons isDollar, substitute_plain (readDollar_of_ne isDollar), ih]

/-! ## Where the mark is met -/

/-- What stands between the two characters with code zero that the mark begins and ends with. -/
def markName : List Char := "ESCAPED_DOLLAR".toList

theorem escapeMark_eq : escapeMark = '\x00' :: (markName ++ ['\x00']) := by decide

theorem dropLast_escapeMark : escapeMark.dropLast ++ ['$'] = '\x00' :: (markName ++ ['$']) := by
  decide

/-- What ends as the mark does stands in front of a marked text if it stands in front of the text, or
    up to a dollar sign there: no other part of it comes from a mark that was put in. -/
theorem prefix_marked_iff {name : List Char} (noMark : '\x00' ∉ name) (noDollar : '$' ∉ name) :
    name ++ ['\x00'] <+: marked text ↔ name ++ ['\x00'] <+: text ∨ name ++ ['$'] <+: text := by
  induction name generalizing text with
  | nil =>
    cases text with
    | nil => simp [marked]
    | cons c rest =>
      by_cases isDollar : c = '$'
      · subst isDollar
        simp [marked_dollar, escapeMark_eq, List.cons_prefix_cons]
      · simp [marked_cons isDollar, List.cons_prefix_cons, Ne.symm isDollar]
  | cons first name ih =>
    rw [List.mem_cons, not_or] at noMark noDollar
    cases text with
    | nil => simp [marked]
    | cons c rest =>
      by_cases isDollar : c = '$'
      · subst isDollar
        simp [marked_dollar, escapeMark_eq, List.cons_prefix_cons, Ne.symm noMark.1,
          Ne.symm noDollar.1]
      · simp only [marked_cons isDollar, List.cons_append, List.cons_prefix_cons,
          ih noMark.2 noDollar.2, and_or_left]

/-- The text begins with the mark, or with all but its last character in front of a dollar sign. -/
def BeginsWithMark (text : List Char) : Prop :=
  escapeMark <+: text ∨ escapeMark.dropLast ++ ['$'] <+: text

theorem clashesWithMark_cons_iff :
    ClashesWithMark (c :: rest) ↔ BeginsWithMark (c :: rest) ∨ ClashesWithMark rest := by
  simp only [ClashesWithMark, BeginsWithMark, List.infix_cons_iff]
  exact or_or_or_comm

theorem not_beginsWithMark_dollar : ¬ BeginsWithMark ('$' :: rest) := by
  rw [BeginsWithMark, dropLast_escapeMark, escapeMark_eq]
  simp [List.cons_prefix_cons]

theorem escapeMark_prefix_marked_iff :
    escapeMark <+: c :: marked rest ↔ BeginsWithMark (c :: rest) := by
  rw [BeginsWithMark, dropLast_escapeMark, escapeMark_eq, List.cons_prefix_cons,
    List.cons_prefix_cons, List.cons_prefix_cons, prefix_marked_iff (by decide) (by decide),
    and_or_left]

/-- Showing dollar signs for marks undoes marking exactly where the text does not clash with the
    mark. -/
theorem showEscapes_marked_eq_iff : showEscapes (marked text) = text ↔ ¬ ClashesWithMark text := by
  induction text with
  | nil => exact iff_of_true rfl (by simp [ClashesWithMark, escapeMark_eq])
  | cons c rest ih =>
    rw [clashesWithMark_cons_iff]
    by_cases isDollar : c = '$'
    · -- The mark that was put in is the first to be met, and nothing of the text is in it.
      subst isDollar
      rw [marked_dollar, showEscapes_mark, List.cons.injEq, ih]
      simp [not_beginsWithMark_dollar]
    · rw [marked_cons isDollar, ← escapeMark_prefix_marked_iff]
      by_cases front : escapeMark <+: c :: marked rest
      · -- A dollar sign is shown where no mark was put in, and the text has another character.
        have another : showEscapes (c :: marked rest) ≠ c :: rest := by
          obtain ⟨behind, whole⟩ := front
          rw [← whole, showEscapes_mark]
          intro same
          exact isDollar (List.cons.inj same).1.symm
        simp [another, front]
      · have kept : showEscapes (c :: marked rest) = c :: showEscapes (marked rest) :=
          Text.replaceAll_cons front
        simp [kept, front, ih]

/-! ## Expanding what is doubled -/

/-- A value that is a doubled text is expanded to the text, whatever is resolved: it mentions
    nothing. -/
theorem expandValue_doubled {ε : Type} (render : String → Option String → Except ε String)
    (apart : '$' ∈ text → ¬ ClashesWithMark text) :
    expandValue (fun reference => render reference.name reference.modifier)
      (String.ofList (doubled text)) = .ok (String.ofList text) := by
  rw [expandValue, String.toList_ofList]
  by_cases hasDollar : '$' ∈ text
  · have answers : ∀ mention ∈ mentionsIn (doubled text),
        render mention.1 mention.2 = .ok ((fun _ _ => "") mention.1 mention.2) := by
      simp [mentionsIn_doubled]
    have shown : showEscapes (marked text) = text := showEscapes_marked_eq_iff.mpr (apart hasDollar)
    have expanded := @expandReferences_eq _ _ _ render (fun _ _ => "") (doubled text) answers
    rw [if_pos (by simpa using mem_doubled_iff.mpr hasDollar), expanded, substitute_doubled, shown]
    rfl
  · -- Nothing is hidden in a value without a dollar sign, so nothing is shown either.
    rw [if_neg (by simpa using mt mem_doubled_iff.mp hasDollar), doubled_of_notMem hasDollar]
    rfl

/-- The text, as it is written, with every dollar sign twice. -/
def doubleDollars (text : String) : String :=
  String.ofList (doubled text.toList)

theorem Request.expand_doubleDollars (request : Request) (catalogue : Catalogue) {text : String}
    (apart : ¬ ClashesWithMark text.toList) :
    request.expand catalogue (doubleDollars text) = text := by
  rw [expand_eq_showEscapes, doubleDollars, String.toList_ofList, substitute_doubled,
    showEscapes_marked_eq_iff.mpr apart, String.ofList_toList]

/-- The declaration of a name that counts gives it a value, and no built-in variable has the name. -/
structure Catalogue.Gives (catalogue : Catalogue) (name value : String) : Prop where
  valid : isValidName name = true
  declared : Builtin.ofName? name = none
  counts : ∃ entry sheet, catalogue.lookup name = some (entry, sheet) ∧ entry.value = value

theorem Request.resolve_doubleDollars {catalogue : Catalogue} {name text : String} {limit : Int}
    (positive : 1 ≤ limit) (place : Option Surroundings)
    (gives : catalogue.Gives name (doubleDollars text))
    (apart : '$' ∈ text.toList → ¬ ClashesWithMark text.toList) :
    ∃ resolved, ({ limit, place } : Request).resolve catalogue name none = .ok resolved ∧
      resolved.rendered = text := by
  obtain ⟨entry, sheet, found, value⟩ := gives.counts
  have roomy : ({ limit, place } : Request).room = (limit - 1).toNat + 1 := by
    simp only [room, List.length_nil]
    omega
  have passes : vet [] name none = .ok none := by
    simp [vet, gives.valid, readModifier, Except.bind]
  let nested := fun mentioned word => Resolved.rendered <$>
    ((({ limit, place } : Request).scope catalogue).resolveFrom (limit - 1).toNat ([] ++ [name])
      mentioned word).outcome
  have expanded := expandValue_doubled nested apart
  rw [String.ofList_toList] at expanded
  refine ⟨(Scope.declared name text entry sheet).resolved none, ?_, rfl⟩
  rw [resolve, resolution, Scope.resolveFrom_eq_ok_iff, roomy]
  exact ⟨none, _, rfl, passes, .inr ⟨gives.declared, entry, sheet, text, found, value ▸ expanded, rfl⟩⟩

namespace Engine

/-- A doubled text mentions nothing, so expanding it never reads the catalogue. -/
theorem outcome_expand_doubleDollars (engine : Engine) (disk : Disk) (text : String)
    (place : Option Surroundings) :
    (engine.expand disk (doubleDollars text) place).outcome =
      .ok (engine, (engine.request place).expand engine.catalogue (doubleDollars text)) := by
  have mentioned := map_mention_referencesToExpand (doubled text.toList)
  rw [mentionsIn_doubled] at mentioned
  have nothing : referencesToExpand (doubleDollars text).toList = [] := by
    rw [doubleDollars, String.toList_ofList]
    exact List.map_eq_nil_iff.mp mentioned
  rw [expand, nothing]
  rfl

/-- Doubling the dollar signs of a text and expanding it gives the text back, in every engine and
    without a look at its catalogue, and a declared variable with the doubled text as its value is
    resolved to the text; except where the text clashes with the mark.  A text without a dollar sign
    is no exception as a value. -/
theorem roundTrip_doubleDollars (engine : Engine) (disk : Disk) (text : String) :
    (¬ ClashesWithMark text.toList → ∀ place,
      (engine.expand disk (doubleDollars text) place).outcome = .ok (engine, text)) ∧
    ∀ fresh limit place name, (engine.freshen disk).outcome = .ok fresh → 1 ≤ limit →
      fresh.catalogue.Gives name (doubleDollars text) →
      ('$' ∈ text.toList → ¬ ClashesWithMark text.toList) →
      ∃ resolved, (engine.resolve disk { limit, place } name none).outcome =
        .ok (fresh, .ok resolved) ∧ resolved.rendered = text := by
  constructor
  · intro apart place
    rw [outcome_expand_doubleDollars, Request.expand_doubleDollars _ _ apart]
  · intro fresh limit place name ready positive gives apart
    obtain ⟨resolved, succeeds, rendered⟩ :=
      Request.resolve_doubleDollars positive place gives apart
    have needed : ({ limit, place } : Request).needsCatalogue name none = true := by
      apply (Request.needsCatalogue_iff _ _ _).mpr
      refine ⟨⟨gives.valid, .inl rfl⟩, List.not_mem_nil, ?_, gives.declared⟩
      simp only [Request.room, List.length_nil]
      omega
    refine ⟨resolved, ?_, rendered⟩
    rw [outcome_resolve_of_needed needed ready, succeeds]

-- The text has pairs of dollar signs, dollar signs in front of names, and part of the mark.
theorem roundTrip_doubleDollars_price :
    let text := "$$5, $PRICE.ref $ \x00ESCAPED $"
    let entries := [("PRICE", { value := doubleDollars text })]
    let sheet : Sheet := ⟨"file:///s", "s", "", entries⟩
    let engine : Engine := ⟨{}, .opened {}, { sheets := [sheet], isStale := false }⟩
    (¬ ClashesWithMark text.toList ∧ (engine.freshen {}).outcome = .ok engine ∧ (1 : Int) ≤ 1 ∧
        engine.catalogue.Gives "PRICE" (doubleDollars text)) ∧
      (engine.expand {} (doubleDollars text) none).outcome = .ok (engine, text) ∧
      ∃ resolved, (engine.resolve {} ⟨1, none, []⟩ "PRICE" none).outcome =
        .ok (engine, .ok resolved) ∧ resolved.rendered = text := by
  intro text entries sheet engine
  have apart : ¬ ClashesWithMark text.toList := by
    rw [← showEscapes_marked_eq_iff]
    decide +kernel
  have ready : (engine.freshen {}).outcome = .ok engine := by decide +kernel
  have gives : engine.catalogue.Gives "PRICE" (doubleDollars text) :=
    ⟨by decide, by decide, ⟨{ value := doubleDollars text }, sheet, by decide +kernel, rfl⟩⟩
  obtain ⟨expands, resolves⟩ := roundTrip_doubleDollars engine {} text
  exact ⟨⟨apart, ready, by decide, gives⟩, expands apart none,
    resolves engine 1 none "PRICE" ready (by decide) gives fun _ => apart⟩

/-- The mark alone is expanded to a dollar sign, though the text has none.  The mark without its last
    character runs into the one that stands for the two dollar signs behind it.  In a value the mark is
    taken for a dollar sign as soon as there is another one. -/
theorem expand_doubleDollars_mark :
    let mark := "\x00ESCAPED_DOLLAR\x00"
    let cut := "\x00ESCAPED_DOLLAR$"
    let value := mark ++ "$5"
    let sheet : Sheet := ⟨"file:///s", "s", "", [("PRICE", { value := doubleDollars value })]⟩
    let engine : Engine := ⟨{}, .opened {}, { sheets := [sheet], isStale := false }⟩
    let resolved : Resolved := ⟨⟨"PRICE", .plain, "$$5", none, .sheet "s" 0⟩, "$$5"⟩
    ((engine.expand {} (doubleDollars mark) none).outcome = .ok (engine, "$") ∧ "$" ≠ mark) ∧
      ((engine.expand {} (doubleDollars cut) none).outcome = .ok (engine, "$ESCAPED_DOLLAR\x00") ∧
        "$ESCAPED_DOLLAR\x00" ≠ cut) ∧
      engine.catalogue.lookup "PRICE" = some ({ value := doubleDollars value }, sheet) ∧
      (engine.resolve {} ⟨1, none, []⟩ "PRICE" none).outcome = .ok (engine, .ok resolved) ∧
      resolved.rendered ≠ value := by
  decide +kernel

end Engine

end Marginalia
