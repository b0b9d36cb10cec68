import Marginalia.Proofs.Json.Grammar

/-!
# How deep the values of a text are nested

The brackets of a JSON text tell how many lists and tables are open at once, except for those inside
strings.  What spells a value has all its brackets in pairs, so it is as deep as its deepest part and
one level more.
-/

namespace Marginalia.Json

/-- Where a place of a text lies: outside of all strings, inside of one, or in one behind a
    backslash. -/
inductive Mode where
  | outside
  | inside
  | escaped
deriving DecidableEq

def Mode.behind : Mode → Char → Mode
  | .outside, c => if c = '"' then .inside else .outside
  | .inside, c => if c = '"' then .outside else if c = '\\' then .escaped else .inside
  | .escaped, _ => .inside

/-- The largest number of lists and tables that are open at once from some place of a text on, where
    some are open already. -/
def nestingFrom (opened : Nat) (mode : Mode) : List Char → Nat
  | [] => opened
  | c :: rest =>
    if mode = .outside ∧ (c = '[' ∨ c = '\x7b') then nestingFrom (opened + 1) .outside rest
    else if mode = .outside ∧ (c = ']' ∨ c = '\x7d') then
      max opened (nestingFrom (opened - 1) .outside rest)
    else nestingFrom opened (mode.behind c) rest

/-- The largest number of lists and tables that are open at once in a text. -/
def nesting (text : List Char) : Nat :=
  nestingFrom 0 .outside text

theorem le_nestingFrom (opened : Nat) (mode : Mode) (text : List Char) :
    opened ≤ nestingFrom opened mode text := by
  induction text generalizing opened mode with
  | nil => exact Nat.le_refl _
  | cons c rest ih =>
    rw [nestingFrom]
    split
    · exact (Nat.le_succ _).trans (ih _ _)
    · split
      · exact Nat.le_max_left _ _
      · exact ih _ _

/-! ## Texts with all brackets in pairs -/

/-- A text closes what it opens, and has at most `depth` lists and tables open at once. -/
def IsBalanced (text : List Char) (depth : Nat) : Prop :=
  ∀ opened rest, nestingFrom opened .outside (text ++ rest) =
    max (opened + depth) (nestingFrom opened .outside rest)

theorem IsBalanced.nesting_eq {text : List Char} {depth : Nat} (balanced : IsBalanced text depth) :
    nesting text = depth := by
  have whole := balanced 0 []
  rw [List.append_nil] at whole
  simp [nesting, whole, nestingFrom]

/-- A text that leaves everything as it is. -/
theorem IsBalanced.of_eq {text : List Char}
    (same : ∀ opened rest,
      nestingFrom opened .outside (text ++ rest) = nestingFrom opened .outside rest) : IsBalanced text 0 := by
  intro opened rest
  rw [same, Nat.add_zero, Nat.max_eq_right (le_nestingFrom _ _ _)]

theorem IsBalanced.append {front back : List Char} {depth other : Nat}
    (balanced : IsBalanced front depth) (behind : IsBalanced back other) :
    IsBalanced (front ++ back) (max depth other) := by
  intro opened rest
  rw [List.append_assoc, balanced, behind]
  omega

theorem IsBalanced.enclose {inner : List Char} {depth : Nat} (balanced : IsBalanced inner depth)
    {opening closing : Char} (opens : opening = '[' ∨ opening = '\x7b')
    (closes : closing = ']' ∨ closing = '\x7d') :
    IsBalanced (opening :: (inner ++ [closing])) (depth + 1) := by
  intro opened rest
  have closed : nestingFrom (opened + 1) .outside (closing :: rest) =
      max (opened + 1) (nestingFrom opened .outside rest) := by
    rw [nestingFrom, if_neg (by rcases closes with rfl | rfl <;> decide), if_pos ⟨rfl, closes⟩,
      Nat.add_sub_cancel]
  rw [List.cons_append, List.append_assoc, List.singleton_append, nestingFrom, if_pos ⟨rfl, opens⟩,
    balanced, closed]
  omega

/-- Neither a bracket nor a quote. -/
def IsFlat (c : Char) : Prop :=
  c ≠ '[' ∧ c ≠ '\x7b' ∧ c ≠ ']' ∧ c ≠ '\x7d' ∧ c ≠ '"'
deriving Decidable

theorem IsBalanced.of_flat {text : List Char} (flat : ∀ c ∈ text, IsFlat c) : IsBalanced text 0 := by
  refine .of_eq fun opened rest => ?_
  induction text with
  | nil => rfl
  | cons c more ih =>
    obtain ⟨list, table, listEnd, tableEnd, quote⟩ := flat c List.mem_cons_self
    have outside : Mode.outside.behind c = .outside := if_neg quote
    rw [List.cons_append, nestingFrom, if_neg (by simp [list, table]),
      if_neg (by simp [listEnd, tableEnd]), outside,
      ih fun d member => flat d (List.mem_cons_of_mem _ member)]

theorem isFlat_of_isSpace {c : Char} (blank : isSpace c = true) : IsFlat c := by
  simp only [isSpace, Bool.or_eq_true, decide_eq_true_eq] at blank
  rcases blank with ((rfl | rfl) | rfl) | rfl <;> decide

theorem IsGap.isBalanced {gap : List Char} (blank : IsGap gap) : IsBalanced gap 0 :=
  .of_flat fun c member => isFlat_of_isSpace (blank c member)

/-! ## Strings -/

theorem isSome_hexValue?_of_mem {digits : List Char} {value number : Nat}
    (spelled : digits.foldlM (fun value c => (Text.hexValue? c).map (16 * value + ·)) value = some number)
    {c : Char} (member : c ∈ digits) : (Text.hexValue? c).isSome = true := by
  induction digits generalizing value with
  | nil => cases member
  | cons first rest ih =>
    rw [List.foldlM_cons] at spelled
    obtain ⟨next, isNext, spelled⟩ := Option.bind_eq_some_iff.mp spelled
    obtain ⟨digit, isDigit, -⟩ := Option.map_eq_some_iff.mp isNext
    rcases List.mem_cons.mp member with rfl | later
    · rw [isDigit]
      rfl
    · exact ih spelled later

/-- A character that changes nothing inside a string. -/
theorem nestingFrom_inside {c : Char} (noQuote : c ≠ '"') (noEscape : c ≠ '\\') (opened : Nat)
    (rest : List Char) : nestingFrom opened .inside (c :: rest) = nestingFrom opened .inside rest := by
  simp [nestingFrom, Mode.behind, noQuote, noEscape]

theorem nestingFrom_hex {digits : List Char} {number : Nat}
    (spelled : Text.hexNumber? digits = some number) (opened : Nat) (rest : List Char) :
    nestingFrom opened .inside (digits ++ rest) = nestingFrom opened .inside rest := by
  have known : ∀ c ∈ digits, (Text.hexValue? c).isSome = true :=
    fun _ member => isSome_hexValue?_of_mem spelled member
  clear spelled
  induction digits with
  | nil => rfl
  | cons c digits ih =>
    obtain ⟨isHex, known⟩ := List.forall_mem_cons.mp known
    have noQuote : c ≠ '"' := by
      rintro rfl
      cases isHex
    have noEscape : c ≠ '\\' := by
      rintro rfl
      cases isHex
    rw [List.cons_append, nestingFrom_inside noQuote noEscape, ih known]

theorem nestingFrom_escape {escape : List Char} {c : Option Char} (spelled : SpellsEscape escape c)
    (opened : Nat) (rest : List Char) :
    nestingFrom opened .escaped (escape ++ rest) = nestingFrom opened .inside rest := by
  cases spelled with
  | simple => rfl
  | unit four number => exact nestingFrom_hex number opened rest
  | @pair highDigits lowDigits high low _ highNumber _ _ lowNumber _ =>
    show nestingFrom opened .inside (highDigits ++ '\\' :: 'u' :: lowDigits ++ rest) = _
    rw [List.append_assoc, nestingFrom_hex highNumber]
    exact nestingFrom_hex lowNumber opened rest

theorem nestingFrom_body {inside : List Char} {body : List (Option Char)}
    (spelled : SpellsBody inside body) (opened : Nat) (rest : List Char) :
    nestingFrom opened .inside (inside ++ '"' :: rest) = nestingFrom opened .outside rest := by
  induction spelled with
  | nil => rfl
  | plain noQuote noEscape _ _ ih => rw [List.cons_append, nestingFrom_inside noQuote noEscape, ih]
  | @escape escape inside c body spelled _ _ ih =>
    show nestingFrom opened .escaped (escape ++ inside ++ '"' :: rest) = _
    rw [List.append_assoc, nestingFrom_escape spelled, ih]

theorem SpellsString.isBalanced {literal : List Char} {body : List (Option Char)}
    (spelled : SpellsString literal body) : IsBalanced literal 0 := by
  cases spelled with
  | @quoted inside _ spelled =>
    refine .of_eq fun opened rest => ?_
    show nestingFrom opened .inside (inside ++ ['"'] ++ rest) = _
    rw [List.append_assoc, List.singleton_append, nestingFrom_body spelled]

/-! ## Values -/

theorem isFlat_of_mem_words {word : List Char × Value} (member : word ∈ words) :
    ∀ c ∈ word.1, IsFlat c := by
  have flat : ∀ word ∈ words, word.1.all (fun c => decide (IsFlat c)) = true := by decide
  exact fun c inside => of_decide_eq_true (List.all_eq_true.mp (flat word member) c inside)

theorem isFlat_of_isDigit {c : Char} (isDigit : c.isDigit = true) : IsFlat c := by
  refine ⟨?_, ?_, ?_, ?_, ?_⟩ <;> (rintro rfl; cases isDigit)

theorem SpellsPower.isFlat {power : List Char} {power? : Option (Bool × List Char)}
    (spelled : SpellsPower power power?) : ∀ c ∈ power, IsFlat c := by
  have mark {c : Char} (isMark : c = 'e' ∨ c = 'E') : IsFlat c := by
    rcases isMark with rfl | rfl <;> decide
  have sign {c : Char} (isSign : c = '+' ∨ c = '-') : IsFlat c := by
    rcases isSign with rfl | rfl <;> decide
  cases spelled with
  | missing => exact fun c member => absurd member List.not_mem_nil
  | plain isMark _ areDigits =>
    exact List.forall_mem_cons.mpr ⟨mark isMark, fun c member => isFlat_of_isDigit (areDigits c member)⟩
  | signed isMark isSign _ areDigits =>
    exact List.forall_mem_cons.mpr ⟨mark isMark, List.forall_mem_cons.mpr ⟨sign isSign,
      fun c member => isFlat_of_isDigit (areDigits c member)⟩⟩

theorem SpellsNumeral.isFlat {spelled : List Char} {numeral : Numeral}
    (written : SpellsNumeral spelled numeral) : ∀ c ∈ spelled, IsFlat c := by
  obtain ⟨power, spelledPower, rfl⟩ := written.text
  have minus : ∀ c ∈ (if numeral.negative then ['-'] else []), IsFlat c := by
    intro c member
    split at member
    · rw [List.mem_singleton.mp member]
      decide
    · cases member
  have fraction : ∀ c ∈ (if numeral.fraction.isEmpty then [] else '.' :: numeral.fraction), IsFlat c := by
    intro c member
    split at member
    · cases member
    · rcases List.mem_cons.mp member with rfl | inside
      · decide
      · exact isFlat_of_isDigit (written.fraction c inside)
  rw [Numeral.mantissa]
  exact List.forall_mem_append.mpr ⟨List.forall_mem_append.mpr ⟨minus, List.forall_mem_append.mpr
    ⟨fun c member => isFlat_of_isDigit (written.whole c member), fraction⟩⟩, spelledPower.isFlat⟩

/-- The depth of the deepest of some parts. -/
def deepest {α : Type} (depth : α → Nat) (parts : List α) : Nat :=
  (parts.map depth).foldr max 0

theorem lt_deepest_iff {α : Type} {depth : α → Nat} {parts : List α} {bound : Nat} :
    bound < deepest depth parts ↔ ∃ part ∈ parts, bound < depth part := by
  induction parts with
  | nil => simp [deepest]
  | cons first rest ih =>
    have either : bound < deepest depth (first :: rest) ↔
        bound < depth first ∨ bound < deepest depth rest := by
      show bound < max (depth first) (deepest depth rest) ↔ _
      omega
    rw [either, ih, List.exists_mem_cons_iff]

theorem isBalanced_intercalate {α : Type} {text : α → List Char} {depth : α → Nat} {parts : List α}
    (balanced : ∀ part ∈ parts, IsBalanced (text part) (depth part)) :
    IsBalanced ([','].intercalate (parts.map text)) (deepest depth parts) := by
  induction parts with
  | nil => exact .of_flat fun c member => absurd member List.not_mem_nil
  | cons first rest ih =>
    obtain ⟨atFirst, later⟩ := List.forall_mem_cons.mp balanced
    cases rest with
    | nil => simpa [deepest] using atFirst
    | cons next rest =>
      have comma : IsBalanced [','] 0 := .of_flat (List.forall_mem_singleton.mpr (by decide))
      have split : deepest depth (first :: next :: rest) =
          max (max (depth first) 0) (deepest depth (next :: rest)) := by
        rw [Nat.max_zero]
        rfl
      rw [List.map_cons, List.map_cons, List.intercalate_cons_cons, split]
      exact (atFirst.append comma).append (ih later)

/-- Whatever stands around an item leaves it as deep as it is. -/
theorem Item.isBalanced {item : Item} {depth : Nat} (spaced : item.IsSpaced)
    (balanced : IsBalanced item.written depth) : IsBalanced item.text depth := by
  have whole := spaced.before.isBalanced.append (balanced.append spaced.behind.isBalanced)
  simpa [Item.text] using whole

theorem Member.isBalanced {member : Member} {depth : Nat} (spaced : member.IsSpaced)
    (balanced : IsBalanced member.item.written depth) : IsBalanced member.text depth := by
  obtain ⟨body, key, -⟩ := spaced.literal
  have colon : IsBalanced [':'] 0 := .of_flat (List.forall_mem_singleton.mpr (by decide))
  have whole := spaced.before.isBalanced.append (key.isBalanced.append
    (spaced.gap.isBalanced.append (colon.append (Item.isBalanced spaced.item balanced))))
  simpa [Member.text] using whole

/-- What spells a value has its brackets in pairs. -/
theorem Spells.isBalanced {written : List Char} {value : Value} (spells : Spells written value) :
    IsBalanced written (nesting written) := by
  have of_some {text : List Char} {depth : Nat} (balanced : IsBalanced text depth) :
      IsBalanced text (nesting text) := by rwa [balanced.nesting_eq]
  induction spells with
  | word member => exact of_some (.of_flat (isFlat_of_mem_words member))
  | number written => exact of_some (.of_flat written.isFlat)
  | string spelled => exact of_some spelled.isBalanced
  | emptyList blank => exact of_some (blank.isBalanced.enclose (.inl rfl) (.inl rfl))
  | emptyTable blank => exact of_some (blank.isBalanced.enclose (.inr rfl) (.inr rfl))
  | list _ spaced _ ih =>
    exact of_some ((isBalanced_intercalate fun item among =>
      Item.isBalanced (spaced item among) (ih item among)).enclose (.inl rfl) (.inl rfl))
  | table _ spaced _ ih =>
    exact of_some ((isBalanced_intercalate fun member among =>
      Member.isBalanced (spaced member among) (ih member among)).enclose (.inr rfl) (.inr rfl))

theorem nesting_listText {items : List Item} (written : ∀ item ∈ items, item.IsWritten) :
    nesting (listText items) = deepest (fun item => nesting item.written) items + 1 :=
  ((isBalanced_intercalate fun item among => Item.isBalanced (written item among).spaced
    (written item among).spelled.isBalanced).enclose (.inl rfl) (.inl rfl)).nesting_eq

theorem nesting_tableText {members : List Member} (written : ∀ member ∈ members, member.IsWritten) :
    nesting (tableText members) = deepest (fun member => nesting member.item.written) members + 1 :=
  ((isBalanced_intercalate fun member among => Member.isBalanced (written member among).spaced
    (written member among).spelled.isBalanced).enclose (.inr rfl) (.inr rfl)).nesting_eq

end Marginalia.Json
