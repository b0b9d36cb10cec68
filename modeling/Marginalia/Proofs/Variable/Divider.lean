import Marginalia.Proofs.Variable.Dollar

/-!
# Where references end

A character that no name has, other than a dot, ends what is read in front of it: the reading looks no
further.  If it is no dollar sign either, it divides a text: the whole mentions what the two pieces
mention.
-/

namespace Marginalia

/-- A character that no reference goes on with. -/
structure IsBoundary (c : Char) : Prop where
  name : isNameRest c = false
  point : c ≠ '.'

/-- A character that is no part of a reference. -/
structure IsDivider (c : Char) : Prop extends IsBoundary c where
  dollar : c ≠ '$'

theorem isBoundary_dollar : IsBoundary '$' :=
  ⟨by decide, by decide⟩

/-- A token has something behind its dollar sign. -/
theorem DollarToken.WellFormed.exists_spell {token : DollarToken} (wellFormed : token.WellFormed) :
    ∃ body, token.spell = '$' :: body ∧ body ≠ [] := by
  cases wellFormed with
  | escaped => exact ⟨['$'], rfl, List.cons_ne_nil _ _⟩
  | reference nameWritten modifierWritten =>
    obtain ⟨body, spelled, nonempty, _⟩ := spellReference_eq (.reference nameWritten modifierWritten)
    exact ⟨body, spelled, nonempty⟩

section

variable {c : Char} (bounds : IsBoundary c) (front back : List Char)
include bounds

theorem takeWhile_append_boundary :
    (front ++ c :: back).takeWhile isNameRest = front.takeWhile isNameRest := by
  induction front with
  | nil => exact List.takeWhile_cons_of_neg (by simp [bounds.name])
  | cons first rest ih => rw [List.cons_append, List.takeWhile_cons, List.takeWhile_cons, ih]

theorem readName?_append_boundary : readName? (front ++ c :: back) = readName? front := by
  cases front with
  | nil =>
    have notStart : ¬ isNameStart c = true := by
      intro starts
      have inName := isNameRest_of_isNameStart starts
      rw [bounds.name] at inName
      cases inName
    rw [List.nil_append, readName?, readName?, if_neg notStart]
  | cons first rest =>
    rw [List.cons_append, readName?, readName?, takeWhile_append_boundary bounds]

theorem readModifier?_append_boundary : readModifier? (front ++ c :: back) = readModifier? front := by
  cases front with
  | nil =>
    rw [List.nil_append, readModifier?.eq_def]
    split
    next point => exact absurd (List.cons.inj point).1 bounds.point
    next => rfl
  | cons first rest =>
    by_cases point : first = '.'
    · subst point
      exact readName?_append_boundary bounds rest back
    · rw [List.cons_append, readModifier?.eq_def, readModifier?.eq_def]
      split <;> split <;> simp_all

/-- What a character begins is read up to a boundary, unless this is the second of two dollar signs. -/
theorem readDollar_append_boundary (first : Char) (apart : front = [] → first = '$' → c ≠ '$') :
    readDollar (first :: (front ++ c :: back)) = readDollar (first :: front) := by
  by_cases isDollar : first = '$'
  · subst isDollar
    by_cases double : front.head? = some '$'
    · obtain ⟨more, rfl⟩ := List.head?_eq_some_iff.mp double
      rfl
    · have single : (front ++ c :: back).head? ≠ some '$' := by
        cases front with
        | nil => exact fun same => apart rfl rfl (Option.some.inj same)
        | cons second rest => exact double
      rw [readDollar_single double, readDollar_single single, readName?_append_boundary bounds]
      cases found : readName? front with
      | none => rfl
      | some name =>
        have shorter : name.length ≤ front.length := by
          rw [(readName?_eq_some found).2, List.length_append]
          exact Nat.le_add_right _ _
        rw [Option.map_some, Option.map_some, List.drop_append_of_le_length shorter,
          readModifier?_append_boundary bounds]
  · rw [readDollar_of_ne isDollar, readDollar_of_ne isDollar]

/-- A token is read in front of a boundary as it is read at the end of a text. -/
theorem readDollar_spell_append_boundary {token : DollarToken} (wellFormed : token.WellFormed) :
    readDollar (token.spell ++ (front ++ c :: back)) = readDollar (token.spell ++ front) := by
  obtain ⟨body, spelled, nonempty⟩ := wellFormed.exists_spell
  have apart : body ++ front = [] → '$' = '$' → c ≠ '$' := by
    intro nothing
    exact absurd (List.append_eq_nil_iff.mp nothing).1 nonempty
  rw [spelled, List.cons_append, List.cons_append, ← List.append_assoc,
    readDollar_append_boundary bounds _ back _ apart]

end

/-- A text cut at a divider mentions what its two pieces mention. -/
theorem mentionsIn_append_divider {c : Char} (divides : IsDivider c) (front back : List Char) :
    mentionsIn (front ++ c :: back) = mentionsIn front ++ mentionsIn back := by
  induction front using dollarInduction with
  | nil => exact mentionsIn_plain (readDollar_of_ne divides.dollar)
  | plain first rest nothing ih =>
    rw [mentionsIn_plain nothing, List.cons_append, mentionsIn_plain, ih]
    rw [readDollar_append_boundary divides.toIsBoundary _ _ _ fun _ _ => divides.dollar, nothing]
  | token token rest wellFormed found ih =>
    have foundBefore := readDollar_spell_append_boundary divides.toIsBoundary rest back wellFormed
    rw [found] at foundBefore
    rw [mentionsIn_token token found, List.append_assoc, mentionsIn_token token foundBefore, ih,
      List.append_assoc]

theorem mentionsIn_append_dividers {dividers : List Char} (divide : ∀ c ∈ dividers, IsDivider c)
    (text : List Char) : mentionsIn (text ++ dividers) = mentionsIn text := by
  cases dividers with
  | nil => rw [List.append_nil]
  | cons c rest =>
    have nothing : mentionsIn rest = [] := by
      have clean : '$' ∉ rest := fun member => (divide '$' (List.mem_cons_of_mem c member)).dollar rfl
      have whole := mentionsIn_append [] clean
      rwa [List.append_nil] at whole
    rw [mentionsIn_append_divider (divide c List.mem_cons_self), nothing, List.append_nil]

end Marginalia
