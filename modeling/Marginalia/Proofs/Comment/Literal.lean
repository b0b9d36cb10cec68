import Marginalia.Comment.Token
import Marginalia.Proofs.Text.Search
import Marginalia.Proofs.Text.Trim

/-!
# Literals

How the literals of each form are spelled: quotes around units, each of which is an escape or a
character that needs none.  A literal is read in front of a text exactly when the text starts with one.
-/

namespace Marginalia

/-! ## Spellings -/

/-- A unit of a quoted literal: a backslash with any character behind it, or another character than
    the quote and the backslash, and a line end only where the literal may have many lines. -/
inductive IsUnit (quote : Char) (manyLines : Bool) : List Char → Prop where
  | escape (c : Char) : IsUnit quote manyLines ['\\', c]
  | plain {c : Char} (other : c ≠ quote) (noEscape : c ≠ '\\')
      (onLine : c = '\n' → manyLines = true) : IsUnit quote manyLines [c]

/-- What a quoted literal has behind its opening quote: units, and the closing quote. -/
inductive IsClosed (quote : Char) (manyLines : Bool) : List Char → Prop where
  | quote : IsClosed quote manyLines [quote]
  | unit {unit rest : List Char} (isUnit : IsUnit quote manyLines unit)
      (closed : IsClosed quote manyLines rest) : IsClosed quote manyLines (unit ++ rest)

namespace LiteralForm

/-- The quote that opens a literal of the form. -/
def quote : LiteralForm → Char
  | .doubleQuoted => '"'
  | .singleQuoted | .character => '\''
  | .template | .rawString => '`'

/-- A text is what a literal of the form has behind its opening quote. -/
def Closes : LiteralForm → List Char → Prop
  | .doubleQuoted => IsClosed '"' false
  | .singleQuoted => IsClosed '\'' false
  | .character => fun text => ∃ unit, IsUnit '\'' false unit ∧ text = unit ++ ['\'']
  | .template => IsClosed '`' true
  | .rawString => fun text => ∃ body, '`' ∉ body ∧ text = body ++ ['`']

/-- A text is a literal of the form. -/
def Spells (form : LiteralForm) (text : List Char) : Prop :=
  ∃ rest, form.Closes rest ∧ text = form.quote :: rest

end LiteralForm

variable {text piece : List Char} {length : Nat}

/-! ## Behind the opening quote -/

section

variable {quote : Char} {manyLines : Bool}

/-- A unit in front of a text is passed over. -/
theorem literalLength?_unit {unit : List Char} (isUnit : IsUnit quote manyLines unit)
    (rest : List Char) : literalLength? quote manyLines (unit ++ rest) =
      (literalLength? quote manyLines rest).map (· + unit.length) := by
  cases isUnit with
  | escape c => rfl
  | @plain c other noEscape onLine =>
    have goesOn : ¬ (c = '\n' ∧ manyLines = false) := by
      rintro ⟨isEnd, oneLine⟩
      rw [onLine isEnd] at oneLine
      cases oneLine
    simp [literalLength?, noEscape, other, goesOn]

theorem literalLength?_of_isClosed (noEscape : quote ≠ '\\')
    (closed : IsClosed quote manyLines piece) (rest : List Char) :
    literalLength? quote manyLines (piece ++ rest) = some piece.length := by
  induction closed with
  | quote => simp [literalLength?, noEscape]
  | @unit unit inner isUnit _ ih =>
    rw [List.append_assoc, literalLength?_unit isUnit, ih, List.length_append,
      Nat.add_comm unit.length]
    rfl

theorem isClosed_of_literalLength? (found : literalLength? quote manyLines text = some length) :
    ∃ piece, IsClosed quote manyLines piece ∧ piece <+: text ∧ piece.length = length := by
  fun_induction literalLength? quote manyLines text generalizing length with
  | case1 => cases found
  | case2 => cases found
  | case3 c rest ih =>
    obtain ⟨less, inner, rfl⟩ := Option.map_eq_some_iff.mp found
    obtain ⟨piece, closed, front, rfl⟩ := ih inner
    refine ⟨['\\', c] ++ piece, .unit (.escape c) closed, ?_, rfl⟩
    exact (List.prefix_append_right_inj ['\\', c]).mpr front
  | case4 =>
    cases found
    exact ⟨[quote], .quote, List.cons_prefix_cons.mpr ⟨rfl, List.nil_prefix⟩, rfl⟩
  | case5 => cases found
  | case6 c rest single double other goesOn ih =>
    obtain ⟨less, inner, rfl⟩ := Option.map_eq_some_iff.mp found
    obtain ⟨piece, closed, front, rfl⟩ := ih inner
    have noEscape : c ≠ '\\' := by
      rintro rfl
      cases rest with
      | nil => exact single rfl rfl
      | cons next rest => exact double next rest rfl rfl
    have onLine : c = '\n' → manyLines = true := by
      intro isEnd
      simpa [isEnd] using goesOn
    exact ⟨[c] ++ piece, .unit (.plain other noEscape onLine) closed,
      List.cons_prefix_cons.mpr ⟨rfl, front⟩, rfl⟩

/-- A quoted literal is as long as the part of the text up to and with its closing quote. -/
theorem literalLength?_eq_some_iff (noEscape : quote ≠ '\\') :
    literalLength? quote manyLines text = some length ↔
      ∃ piece, IsClosed quote manyLines piece ∧ piece <+: text ∧ piece.length = length := by
  constructor
  · exact isClosed_of_literalLength?
  · rintro ⟨piece, closed, ⟨rest, rfl⟩, rfl⟩
    exact literalLength?_of_isClosed noEscape closed rest

theorem characterLength?_eq_some_iff : characterLength? text = some length ↔
    ∃ piece, LiteralForm.character.Closes piece ∧ piece <+: text ∧ piece.length = length := by
  constructor
  · intro found
    unfold characterLength? at found
    split at found
    next c rest =>
      cases found
      exact ⟨_, ⟨['\\', c], .escape c, rfl⟩, List.prefix_append _ rest, rfl⟩
    next c rest _ =>
      split at found
      · cases found
      next plain =>
        cases found
        simp only [Bool.or_eq_true, decide_eq_true_eq, not_or] at plain
        obtain ⟨⟨other, noEscape⟩, inLine⟩ := plain
        exact ⟨_, ⟨[c], .plain other noEscape fun isEnd => absurd isEnd inLine, rfl⟩,
          List.prefix_append _ rest, rfl⟩
    next => cases found
  · rintro ⟨_, ⟨unit, isUnit, rfl⟩, ⟨rest, rfl⟩, rfl⟩
    cases isUnit with
    | escape c => rfl
    | @plain c other noEscape onLine =>
      have inLine : c ≠ '\n' := fun isEnd => Bool.false_ne_true (onLine isEnd)
      simp [characterLength?, other, noEscape, inLine]

theorem find?_quote_eq_some_iff : (Text.find? ['`'] text).map (· + 1) = some length ↔
    ∃ piece, LiteralForm.rawString.Closes piece ∧ piece <+: text ∧ piece.length = length := by
  constructor
  · intro found
    obtain ⟨place, first, rfl⟩ := Option.map_eq_some_iff.mp found
    have bound := Text.find?_bound first
    refine ⟨_, ⟨text.take place, fun inside => ?_, rfl⟩, ?_, ?_⟩
    · -- A quote in front of the first one.
      obtain ⟨earlier, before, same⟩ := List.mem_iff_getElem.mp inside
      rw [List.length_take] at before
      rw [List.getElem_take] at same
      have inside : earlier < text.length := by omega
      refine Text.not_prefix_of_find? first (Nat.lt_of_lt_of_le before (Nat.min_le_left _ _)) ?_
      rw [List.drop_eq_getElem_cons inside, same]
      exact List.cons_prefix_cons.mpr ⟨rfl, List.nil_prefix⟩
    · obtain ⟨rest, whole⟩ := Text.prefix_of_find? first
      exact ⟨rest, by rw [List.append_assoc, whole, List.take_append_drop]⟩
    · rw [List.length_append, List.length_take_of_le (by omega)]
      rfl
  · rintro ⟨_, ⟨body, plain, rfl⟩, ⟨rest, rfl⟩, rfl⟩
    have found : Text.find? ['`'] (body ++ ['`'] ++ rest) = some body.length := by
      induction body with
      | nil => exact Text.find?_of_prefix (List.prefix_append _ rest)
      | cons c body ih =>
        rw [List.mem_cons, not_or] at plain
        have apart : ¬ (['`'].isPrefixOf (c :: (body ++ ['`'] ++ rest)) = true) := by
          simp [List.isPrefixOf, plain.1]
        rw [List.cons_append, List.cons_append, Text.find?, if_neg apart, ih plain.2]
        rfl
    rw [found, List.length_append]
    rfl

end

/-! ## Literals of all forms -/

namespace LiteralForm

/-- A literal is its opening quote and what closes it. -/
theorem spells_iff_of_closes_iff (form : LiteralForm) {c : Char} {rest : List Char}
    {closing : Option Nat}
    (closes : ∀ {length}, closing = some length ↔
      ∃ piece, form.Closes piece ∧ piece <+: rest ∧ piece.length = length) :
    (if c = form.quote then closing.map (· + 1) else none) = some length ↔
      ∃ piece, form.Spells piece ∧ piece <+: c :: rest ∧ piece.length = length := by
  constructor
  · intro found
    split at found
    next opens =>
      obtain ⟨less, closed, rfl⟩ := Option.map_eq_some_iff.mp found
      obtain ⟨piece, closesPiece, front, rfl⟩ := closes.mp closed
      exact ⟨_, ⟨piece, closesPiece, rfl⟩, List.cons_prefix_cons.mpr ⟨opens.symm, front⟩, rfl⟩
    next => cases found
  · rintro ⟨_, ⟨piece, closesPiece, rfl⟩, front, rfl⟩
    obtain ⟨opens, front⟩ := List.cons_prefix_cons.mp front
    rw [if_pos opens.symm, closes.mpr ⟨piece, closesPiece, front, rfl⟩]
    rfl

/-- A literal of a form is read exactly where the text starts with one. -/
theorem read?_eq_some_iff (form : LiteralForm) : form.read? text = some length ↔
    ∃ piece, form.Spells piece ∧ piece <+: text ∧ piece.length = length := by
  cases text with
  | nil =>
    constructor
    · intro found
      cases found
    · rintro ⟨_, ⟨rest, _, rfl⟩, front, _⟩
      cases List.prefix_nil.mp front
  | cons c rest =>
    cases form with
    | doubleQuoted => exact spells_iff_of_closes_iff .doubleQuoted (literalLength?_eq_some_iff (by decide))
    | singleQuoted => exact spells_iff_of_closes_iff .singleQuoted (literalLength?_eq_some_iff (by decide))
    | character => exact spells_iff_of_closes_iff .character characterLength?_eq_some_iff
    | template => exact spells_iff_of_closes_iff .template (literalLength?_eq_some_iff (by decide))
    | rawString =>
      rw [← spells_iff_of_closes_iff .rawString find?_quote_eq_some_iff, Option.map_map]
      rfl

end LiteralForm

end Marginalia
