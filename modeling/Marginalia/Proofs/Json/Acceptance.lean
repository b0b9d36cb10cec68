import Marginalia.Proofs.Data.Along
import Marginalia.Proofs.Json.Nesting
import Marginalia.Proofs.Json.Reading
import Marginalia.Proofs.Json.Token

/-!
# What the reader does not refuse

The machine goes over whatever spells a value, and has the value behind it, unless more lists and tables
are open at once than it can hold.  So a text that spells a value is read as that value exactly if its
values are not nested too deep.
-/

namespace Marginalia.Json

/-! ## Going over a piece -/

/-- From a state in front of a piece, the machine comes to a state behind it, unless the piece is too
    deep. -/
structure Leads (state : State) (piece rest : List Char) (deep : Prop) (next : State) : Prop where
  passes : ¬ deep → ∀ offset, Text.runFrom step offset 0 state (piece ++ rest) =
    Text.runFrom step (offset + piece.length) 0 next rest
  stops : deep → ∀ offset, ∃ container,
    Text.runFrom step offset 0 state (piece ++ rest) = .error (.tooDeep container)

section Leads

variable {state middle next : State} {piece first second rest gap : List Char} {deep deeper : Prop}
  {c : Char}

theorem Leads.of_step (nonempty : piece ≠ [])
    (took : ∀ offset, step offset state (piece ++ rest) = .ok (next, piece.length)) :
    Leads state piece rest False next :=
  ⟨fun _ offset => Text.runFrom_of_step nonempty (took offset), False.elim⟩

theorem Leads.of_char (took : ∀ offset, step offset state (c :: rest) = .ok (next, 1)) :
    Leads state [c] rest False next :=
  .of_step (List.cons_ne_nil _ _) took

/-- Of two pieces the first that is too deep ends the run. -/
theorem Leads.andThen (ahead : Leads state first (second ++ rest) deep middle)
    (behind : ¬ deep → Leads middle second rest deeper next) :
    Leads state (first ++ second) rest (deep ∨ deeper) next := by
  constructor
  · intro fits offset
    obtain ⟨fitsAhead, fitsBehind⟩ := not_or.mp fits
    rw [List.append_assoc, ahead.passes fitsAhead, (behind fitsAhead).passes fitsBehind,
      List.length_append, Nat.add_assoc]
  · intro tooDeep offset
    rw [List.append_assoc]
    by_cases atFirst : deep
    · exact ahead.stops atFirst offset
    · rw [ahead.passes atFirst]
      exact (behind atFirst).stops (tooDeep.resolve_left atFirst) _

theorem Leads.trans (ahead : Leads state first (second ++ rest) deep middle)
    (behind : Leads middle second rest deeper next) :
    Leads state (first ++ second) rest (deep ∨ deeper) next :=
  ahead.andThen fun _ => behind

theorem Leads.congr (leads : Leads state piece rest deep next) (same : deep ↔ deeper) :
    Leads state piece rest deeper next :=
  propext same ▸ leads

theorem step_space (blank : isSpace c = true) (offset : Nat) (state : State) (rest : List Char) :
    step offset state (c :: rest) = .ok (state, 1) :=
  if_pos blank

theorem IsGap.leads (blank : IsGap gap) (state : State) (rest : List Char) :
    Leads state gap rest False state := by
  induction gap with
  | nil => exact ⟨fun _ _ => rfl, False.elim⟩
  | cons c gap ih =>
    obtain ⟨isBlank, blank⟩ := List.forall_mem_cons.mp blank
    have first : Leads state [c] (gap ++ rest) False state :=
      .of_char fun offset => step_space isBlank offset state _
    exact (first.trans (ih blank)).congr (or_self_iff)

/-- Two states that read the same behind a gap run on alike. -/
theorem runFrom_congr (blank : IsGap gap)
    (same : ∀ offset, step offset state (c :: rest) = step offset next (c :: rest)) (offset : Nat) :
    Text.runFrom step offset 0 state (gap ++ c :: rest) =
      Text.runFrom step offset 0 next (gap ++ c :: rest) := by
  rw [((blank.leads state _).passes not_false) offset, ((blank.leads next _).passes not_false) offset,
    Text.runFrom, Text.runFrom, same]

/-- The machine may be in another state in front of a piece, if it reads the same there. -/
theorem Leads.of_congr {more : List Char} (leads : Leads next (gap ++ c :: more) rest deep middle)
    (blank : IsGap gap)
    (same : ∀ offset text, step offset state (c :: text) = step offset next (c :: text)) :
    Leads state (gap ++ c :: more) rest deep middle := by
  have alike := runFrom_congr blank fun offset => same offset (more ++ rest)
  simp only [← List.cons_append, ← List.append_assoc] at alike
  exact ⟨fun fits offset => alike offset ▸ leads.passes fits offset,
    fun tooDeep offset => alike offset ▸ leads.stops tooDeep offset⟩

end Leads

/-! ## Values without parts -/

/-- What a value may start with. -/
def StartsValue (c : Char) : Prop :=
  isSpace c = false ∧ c ≠ ']' ∧ c ≠ '\uFEFF'
deriving Decidable

theorem startsValue_of_isDigit {c : Char} (isDigit : c.isDigit = true) : StartsValue c := by
  refine ⟨Bool.eq_false_iff.mpr fun blank => ?_, ?_, ?_⟩
  · simp only [isSpace, Bool.or_eq_true, decide_eq_true_eq] at blank
    rcases blank with ((rfl | rfl) | rfl) | rfl <;> cases isDigit
  · rintro rfl
    cases isDigit
  · rintro rfl
    cases isDigit

theorem Spells.exists_cons {written : List Char} {value : Value} (spells : Spells written value) :
    ∃ c rest, written = c :: rest ∧ StartsValue c := by
  cases spells with
  | word member =>
    have starts : ∀ word ∈ words, word.1.head?.any (fun c => decide (StartsValue c)) = true := by decide
    obtain ⟨c, first, isStart⟩ := (Option.any_eq_true _ _).mp (starts _ member)
    obtain ⟨rest, rfl⟩ := List.head?_eq_some_iff.mp first
    exact ⟨c, rest, rfl, of_decide_eq_true isStart⟩
  | number written =>
    obtain ⟨c, rest, rfl, ⟨rfl, -⟩ | isDigit⟩ := written.exists_cons
    · exact ⟨'-', rest, rfl, by decide⟩
    · exact ⟨c, rest, rfl, startsValue_of_isDigit isDigit⟩
  | string spelled =>
    cases spelled
    exact ⟨_, _, rfl, by decide⟩
  | emptyList | list | emptyTable | table => exact ⟨_, _, rfl, by decide⟩

/-- The machine takes a text for a value, in front of whatever may follow one. -/
def IsTaken (written : List Char) (value : Value) : Prop :=
  ∀ frames rest, frames.length ≤ depthLimit → IsBehind rest →
    Leads ⟨frames, .value⟩ written rest (depthLimit < frames.length + nesting written)
      ⟨frames, .behind value⟩

theorem step_value {c : Char} (starts : StartsValue c) (offset : Nat) (frames : List Frame)
    (rest : List Char) :
    step offset ⟨frames, .value⟩ (c :: rest) = readValue offset frames (c :: rest) :=
  if_neg (by simp [starts.1])

/-- A value without parts is taken if it is read. -/
theorem IsTaken.of_readValue {written : List Char} {value : Value} (spells : Spells written value)
    (balanced : IsBalanced written 0)
    (read : ∀ offset frames rest, IsBehind rest →
      readValue offset frames (written ++ rest) = .ok (⟨frames, .behind value⟩, written.length)) :
    IsTaken written value := by
  intro frames rest room behind
  obtain ⟨c, more, rfl, starts⟩ := spells.exists_cons
  have leads : Leads ⟨frames, .value⟩ (c :: more) rest False ⟨frames, .behind value⟩ :=
    .of_step spells.ne_nil fun offset => (step_value starts offset frames _).trans
      (read offset frames rest behind)
  refine leads.congr ?_
  rw [balanced.nesting_eq]
  exact ⟨False.elim, fun tooDeep => absurd room (Nat.not_le.mpr tooDeep)⟩

theorem readValue_string {literal : List Char} {body : List (Option Char)}
    (spelled : SpellsString literal body) (offset : Nat) (frames : List Frame) (rest : List Char) :
    readValue offset frames (literal ++ rest) =
      .ok (⟨frames, .behind (valueOf body)⟩, literal.length) := by
  have read := readString_of_spells spelled rest
  cases spelled
  rw [List.cons_append] at read ⊢
  rw [readValue, read]

/-- What is neither a list, a table nor a string is looked for among the words and numbers. -/
theorem readValue_other {c : Char} (noList : c ≠ '[') (noTable : c ≠ '\x7b') (noString : c ≠ '"')
    (offset : Nat) (frames : List Frame) (rest : List Char) :
    readValue offset frames (c :: rest) =
      match readWord? (c :: rest) with
      | some (value, length) => .ok (⟨frames, .behind value⟩, length)
      | none =>
        match readNumeral? (c :: rest) with
        | some numeral => numeral.value.map fun value => (⟨frames, .behind value⟩, numeral.length)
        | none => .error (.malformed .expectedValue offset) := by
  unfold readValue
  split
  next same => exact absurd (List.cons.inj same).1 noList
  next same => exact absurd (List.cons.inj same).1 noTable
  next same => exact absurd (List.cons.inj same).1 noString
  next => rfl

theorem readValue_word {spelled : List Char} {value : Value} (member : (spelled, value) ∈ words)
    (offset : Nat) (frames : List Frame) (rest : List Char) :
    readValue offset frames (spelled ++ rest) = .ok (⟨frames, .behind value⟩, spelled.length) := by
  obtain ⟨c, more, rfl, -⟩ := (Spells.word member).exists_cons
  obtain ⟨noList, noTable, -, -, noString⟩ := isFlat_of_mem_words member c List.mem_cons_self
  have read := readWord?_of_mem member rest
  rw [List.cons_append] at read ⊢
  rw [readValue_other noList noTable noString, read]

theorem readValue_number {spelled rest : List Char} {numeral : Numeral} {value : Value}
    (written : SpellsNumeral spelled numeral) (counts : numeral.value = .ok value)
    (behind : IsBehind rest) (offset : Nat) (frames : List Frame) :
    readValue offset frames (spelled ++ rest) = .ok (⟨frames, .behind value⟩, spelled.length) := by
  have noWord := readWord?_of_numeral written rest
  have read := readNumeral?_of_spells written behind
  have length : numeral.length = spelled.length := written.length
  obtain ⟨c, more, rfl, starts⟩ := written.exists_cons
  have flat : IsFlat c := written.isFlat c List.mem_cons_self
  obtain ⟨noList, noTable, -, -, noString⟩ := flat
  rw [List.cons_append] at noWord read ⊢
  rw [readValue_other noList noTable noString, noWord, read, ← length]
  simp only [counts]
  rfl

/-! ## Items and members -/

theorem IsBehind.of_gap {gap rest : List Char} (blank : IsGap gap) (behind : IsBehind rest) :
    IsBehind (gap ++ rest) := by
  cases gap with
  | nil => exact behind
  | cons c gap =>
    intro d first
    cases first
    exact .inl (blank c List.mem_cons_self)

theorem IsBehind.cons {c : Char} {rest : List Char} (ends : c = ',' ∨ c = ']' ∨ c = '\x7d') :
    IsBehind (c :: rest) := by
  intro d first
  cases first
  exact .inr ends

section Parts

variable {outer : List Frame} {rest : List Char}

theorem Item.IsSpaced.leads {item : Item} (spaced : item.IsSpaced)
    (taken : IsTaken item.written item.value) (frames : List Frame) (room : frames.length ≤ depthLimit)
    (behind : IsBehind rest) :
    Leads ⟨frames, .value⟩ item.text rest (depthLimit < frames.length + nesting item.written)
      ⟨frames, .behind item.value⟩ := by
  have value := taken frames _ room (.of_gap spaced.behind behind)
  have whole := (spaced.before.leads _ _).trans (value.trans (spaced.behind.leads _ rest))
  rw [false_or, or_false] at whole
  exact whole

/-- The items of a list up to its closing bracket. -/
theorem leads_items {items : List Item} (rest : List Char) (nonempty : items ≠ []) (front : List Value)
    (spaced : ∀ item ∈ items, item.IsSpaced)
    (taken : ∀ item ∈ items, IsTaken item.written item.value) (room : outer.length < depthLimit) :
    Leads ⟨.list front.reverse :: outer, .value⟩ ([','].intercalate (items.map Item.text) ++ [']'])
      rest (∃ item ∈ items, depthLimit < outer.length + 1 + nesting item.written)
      ⟨outer, .behind (.list (front ++ items.map Item.value))⟩ := by
  -- The frame holds the values in front of the next item, the last one first.
  induction items generalizing front with
  | nil => exact absurd rfl nonempty
  | cons item more ih =>
    obtain ⟨itemSpaced, spaced⟩ := List.forall_mem_cons.mp spaced
    obtain ⟨itemTaken, taken⟩ := List.forall_mem_cons.mp taken
    have filed : item.value :: front.reverse = (front ++ [item.value]).reverse := by simp
    cases more with
    | nil =>
      have close : Leads ⟨.list front.reverse :: outer, .behind item.value⟩ [']'] rest False
          ⟨outer, .behind (.list (front ++ [item.value]))⟩ :=
        .of_char fun offset => by
          show Except.ok (_, 1) = _
          rw [filed, List.reverse_reverse]
      have whole := (itemSpaced.leads itemTaken (_ :: outer) room (.cons (.inr (.inl rfl)))).trans close
      simpa using whole
    | cons next more =>
      have comma (text : List Char) : Leads ⟨.list front.reverse :: outer, .behind item.value⟩ [','] text
          False ⟨.list (front ++ [item.value]).reverse :: outer, .value⟩ :=
        .of_char fun offset => by
          rw [← filed]
          rfl
      have later := ih (List.cons_ne_nil _ _) (front ++ [item.value]) spaced taken
      have whole := (itemSpaced.leads itemTaken (_ :: outer) room (.cons (.inl rfl))).trans
        ((comma _).trans later)
      simpa [List.intercalate_cons_cons, List.append_assoc] using whole

theorem Member.IsSpaced.leads {member : Member} (spaced : member.IsSpaced)
    (taken : IsTaken member.item.written member.item.value) (room : outer.length < depthLimit)
    (entries : List (String × Value)) (behind : IsBehind rest) :
    Leads ⟨.table entries :: outer, .key⟩ member.text rest
      (depthLimit < outer.length + 1 + nesting member.item.written)
      ⟨.keyed entries member.key :: outer, .behind member.item.value⟩ := by
  obtain ⟨body, spelled, key⟩ := spaced.literal
  have literal (text : List Char) : Leads ⟨.table entries :: outer, .key⟩ member.literal text False
      ⟨.keyed entries member.key :: outer, .colon⟩ := by
    have read := readString_of_spells spelled text
    obtain ⟨inside, quoted⟩ := spelled.exists_cons
    rw [quoted] at read ⊢
    refine .of_step (List.cons_ne_nil _ _) fun offset => ?_
    rw [List.cons_append] at read ⊢
    rw [step, if_neg (by decide)]
    show readKey offset _ _ = _
    rw [readKey, read, key]
  have colon (text : List Char) : Leads ⟨.keyed entries member.key :: outer, .colon⟩ [':'] text False
      ⟨.keyed entries member.key :: outer, .value⟩ := .of_char fun _ => rfl
  have whole := (spaced.before.leads _ _).trans ((literal _).trans ((spaced.gap.leads _ _).trans
    ((colon _).trans (spaced.item.leads taken (_ :: outer) room behind))))
  simpa [Member.text] using whole

/-- The members of a table up to its closing bracket. -/
theorem leads_members {members : List Member} (rest : List Char) (nonempty : members ≠ [])
    (front : List Member)
    (spaced : ∀ member ∈ members, member.IsSpaced)
    (taken : ∀ member ∈ members, IsTaken member.item.written member.item.value)
    (room : outer.length < depthLimit) :
    Leads ⟨.table (entriesOf front) :: outer, .key⟩
      ([','].intercalate (members.map Member.text) ++ ['\x7d']) rest
      (∃ member ∈ members, depthLimit < outer.length + 1 + nesting member.item.written)
      ⟨outer, .behind (.table (entriesOf (front ++ members)))⟩ := by
  induction members generalizing front with
  | nil => exact absurd rfl nonempty
  | cons member more ih =>
    obtain ⟨memberSpaced, spaced⟩ := List.forall_mem_cons.mp spaced
    obtain ⟨memberTaken, taken⟩ := List.forall_mem_cons.mp taken
    cases more with
    | nil =>
      have close : Leads ⟨.keyed (entriesOf front) member.key :: outer, .behind member.item.value⟩
          ['\x7d'] rest False ⟨outer, .behind (.table (entriesOf (front ++ [member])))⟩ :=
        .of_char fun offset => by
          rw [entriesOf_concat]
          rfl
      have whole := (memberSpaced.leads memberTaken room _ (.cons (.inr (.inr rfl)))).trans close
      simpa using whole
    | cons next more =>
      have comma (text : List Char) :
          Leads ⟨.keyed (entriesOf front) member.key :: outer, .behind member.item.value⟩ [','] text
            False ⟨.table (entriesOf (front ++ [member])) :: outer, .key⟩ :=
        .of_char fun offset => by
          rw [entriesOf_concat]
          rfl
      have later := ih (List.cons_ne_nil _ _) (front ++ [member]) spaced taken
      have whole := (memberSpaced.leads memberTaken room _ (.cons (.inl rfl))).trans
        ((comma _).trans later)
      simpa [List.intercalate_cons_cons, List.append_assoc] using whole

end Parts

/-! ## Values -/

section Brackets

variable {frames : List Frame} {rest : List Char}

theorem leads_open {c : Char} {next : State} (container : Container)
    (reads : ∀ offset text, step offset ⟨frames, .value⟩ (c :: text) = openContainer frames container)
    (opens : openContainer frames container =
      if depthLimit ≤ frames.length then .error (.tooDeep container) else .ok (next, 1)) :
    Leads ⟨frames, .value⟩ [c] rest (depthLimit ≤ frames.length) next := by
  constructor
  · intro room offset
    refine Text.runFrom_of_step (List.cons_ne_nil _ _) ?_
    exact (reads offset rest).trans (opens.trans (if_neg room))
  · intro full offset
    rw [List.singleton_append, Text.runFrom, reads, opens, if_pos full]
    exact ⟨container, rfl⟩

theorem leads_openList : Leads ⟨frames, .value⟩ ['['] rest (depthLimit ≤ frames.length)
    ⟨.list [] :: frames, .firstItem⟩ :=
  leads_open .list (fun _ _ => rfl) rfl

theorem leads_openTable : Leads ⟨frames, .value⟩ ['\x7b'] rest (depthLimit ≤ frames.length)
    ⟨.table [] :: frames, .firstKey⟩ :=
  leads_open .table (fun _ _ => rfl) rfl

/-- One level more is too deep if there is no room for it, or if something inside is too deep. -/
theorem tooDeep_iff {α : Type} {depth : α → Nat} {parts : List α} {opened : Nat} :
    (depthLimit ≤ opened ∨ ∃ part ∈ parts, depthLimit < opened + 1 + depth part) ↔
      depthLimit < opened + (deepest depth parts + 1) := by
  by_cases full : depthLimit ≤ opened
  · simp only [full, true_or, true_iff]
    omega
  · have shift (inside : Nat) : depthLimit < opened + 1 + inside ↔
        depthLimit - (opened + 1) < inside := by omega
    simp only [full, false_or, shift, ← lt_deepest_iff]
    omega

end Brackets

theorem isTaken_list {items : List Item} (nonempty : items ≠ [])
    (written : ∀ item ∈ items, item.IsWritten)
    (taken : ∀ item ∈ items, IsTaken item.written item.value) :
    IsTaken (listText items) (.list (items.map Item.value)) := by
  intro frames rest _ _
  have spaced : ∀ item ∈ items, item.IsSpaced := fun item among => (written item among).spaced
  -- The first item is read in another state than the later ones, in which the list could also end.
  have inside (room : ¬ depthLimit ≤ frames.length) :
      Leads ⟨.list [] :: frames, .firstItem⟩ ([','].intercalate (items.map Item.text) ++ [']']) rest
        (∃ item ∈ items, depthLimit < frames.length + 1 + nesting item.written)
        ⟨frames, .behind (.list (items.map Item.value))⟩ := by
    obtain ⟨first, more, rfl⟩ := List.exists_cons_of_ne_nil nonempty
    have firstWritten := written first List.mem_cons_self
    obtain ⟨c, tail, start, starts⟩ := firstWritten.spelled.exists_cons
    obtain ⟨later, pieces⟩ := exists_intercalate_cons [','] first.text (more.map Item.text)
    have whole : [','].intercalate ((first :: more).map Item.text) ++ [']'] =
        first.before ++ c :: (tail ++ (first.behind ++ (later ++ [']']))) := by
      rw [List.map_cons, pieces]
      simp [Item.text, start]
    have leads := leads_items rest nonempty [] spaced taken (Nat.lt_of_not_le room)
    rw [whole] at leads ⊢
    refine leads.of_congr firstWritten.spaced.before fun offset text => ?_
    simp [step, starts.1, starts.2.1]
  refine (leads_openList.andThen inside).congr ?_
  rw [tooDeep_iff, ← nesting_listText written]

theorem isTaken_table {members : List Member} (nonempty : members ≠ [])
    (written : ∀ member ∈ members, member.IsWritten)
    (taken : ∀ member ∈ members, IsTaken member.item.written member.item.value) :
    IsTaken (tableText members) (.table (entriesOf members)) := by
  intro frames rest _ _
  have spaced : ∀ member ∈ members, member.IsSpaced := fun member among => (written member among).spaced
  -- Here, too, the first member is read in a state in which the table could also end.
  have inside (room : ¬ depthLimit ≤ frames.length) :
      Leads ⟨.table [] :: frames, .firstKey⟩
        ([','].intercalate (members.map Member.text) ++ ['\x7d']) rest
        (∃ member ∈ members, depthLimit < frames.length + 1 + nesting member.item.written)
        ⟨frames, .behind (.table (entriesOf members))⟩ := by
    obtain ⟨first, more, rfl⟩ := List.exists_cons_of_ne_nil nonempty
    have firstSpaced := spaced first List.mem_cons_self
    obtain ⟨body, spelled, -⟩ := firstSpaced.literal
    obtain ⟨tail, start⟩ := spelled.exists_cons
    obtain ⟨later, pieces⟩ := exists_intercalate_cons [','] first.text (more.map Member.text)
    have whole : [','].intercalate ((first :: more).map Member.text) ++ ['\x7d'] =
        first.before ++ '"' :: (tail ++ (first.gap ++ ':' :: first.item.text ++ (later ++ ['\x7d']))) := by
      rw [List.map_cons, pieces]
      simp [Member.text, start]
    have leads := leads_members rest nonempty [] spaced taken (Nat.lt_of_not_le room)
    rw [whole] at leads ⊢
    exact leads.of_congr firstSpaced.before fun offset text => rfl
  refine (leads_openTable.andThen inside).congr ?_
  rw [tooDeep_iff, ← nesting_tableText written]

/-- Whatever spells a value is taken for it. -/
theorem Spells.isTaken {written : List Char} {value : Value} (spells : Spells written value) :
    IsTaken written value := by
  induction spells with
  | word member =>
    exact .of_readValue (.word member) (.of_flat (isFlat_of_mem_words member)) fun offset frames rest _ =>
      readValue_word member offset frames rest
  | number written counts =>
    exact .of_readValue (.number written counts) (.of_flat written.isFlat)
      fun offset frames _ behind => readValue_number written counts behind offset frames
  | string spelled =>
    exact .of_readValue (.string spelled) spelled.isBalanced fun offset frames rest _ =>
      readValue_string spelled offset frames rest
  | emptyList blank =>
    intro frames rest _ _
    have close : Leads ⟨.list [] :: frames, .firstItem⟩ [']'] rest False ⟨frames, .behind (.list [])⟩ :=
      .of_char fun _ => rfl
    refine (leads_openList.trans ((blank.leads _ _).trans close)).congr ?_
    rw [(blank.isBalanced.enclose (.inl rfl) (.inl rfl)).nesting_eq, or_false, or_false,
      Nat.zero_add, Nat.lt_succ_iff]
  | emptyTable blank =>
    intro frames rest _ _
    have close : Leads ⟨.table [] :: frames, .firstKey⟩ ['\x7d'] rest False
        ⟨frames, .behind (.table [])⟩ := .of_char fun _ => rfl
    refine (leads_openTable.trans ((blank.leads _ _).trans close)).congr ?_
    rw [(blank.isBalanced.enclose (.inr rfl) (.inr rfl)).nesting_eq, or_false, or_false,
      Nat.zero_add, Nat.lt_succ_iff]
  | list nonempty spaced spelled ih =>
    exact isTaken_list nonempty (fun item among => ⟨spaced item among, spelled item among⟩) ih
  | table nonempty spaced spelled ih =>
    exact isTaken_table nonempty (fun member among => ⟨spaced member among, spelled member among⟩) ih

/-! ## Whole texts -/

/-- A text that spells a value, with white space around it. -/
def IsText (text : List Char) (value : Value) : Prop :=
  ∃ before written gap, text = before ++ (written ++ gap) ∧ IsGap before ∧ IsGap gap ∧
    Spells written value

theorem runFrom_nil (offset : Nat) (state : State) : Text.runFrom step offset 0 state [] = .ok state :=
  rfl

/-- The machine goes over a whole text. -/
theorem IsText.leads {text : List Char} {value : Value} (isText : IsText text value) :
    Leads ⟨[], .value⟩ text [] (depthLimit < nesting text) ⟨[], .behind value⟩ := by
  obtain ⟨before, written, gap, rfl, ahead, blank, spells⟩ := isText
  have depth := (ahead.isBalanced.append (spells.isBalanced.append blank.isBalanced)).nesting_eq
  have behind : IsBehind (gap ++ []) := .of_gap blank fun c first => by cases first
  have value := spells.isTaken [] _ (Nat.zero_le _) behind
  refine ((ahead.leads _ _).trans (value.trans (blank.leads _ _))).congr ?_
  simp [depth]

theorem IsText.read_eq {text : List Char} {value : Value} (isText : IsText text value) :
    read text = (Text.run step ⟨[], .value⟩ text).bind fun state => state.finish text.length := by
  obtain ⟨before, written, gap, rfl, ahead, -, spells⟩ := isText
  obtain ⟨c, rest, rfl, starts⟩ := spells.exists_cons
  have noMark : (before ++ (c :: rest ++ gap)).head? ≠ some '\uFEFF' := by
    cases before with
    | nil => simpa using starts.2.2
    | cons d before =>
      intro mark
      cases mark
      exact absurd (ahead _ List.mem_cons_self) (by decide)
  rw [read, if_neg noMark]
  rfl

/-- A text is read as the value that it spells exactly if its values are not nested too deep. -/
theorem read_eq_ok_iff {text : List Char} {value : Value} :
    read text = .ok value ↔ IsText text value ∧ nesting text ≤ depthLimit := by
  constructor
  · intro found
    have isText : IsText text value := spells_of_read found
    refine ⟨isText, Nat.le_of_not_lt fun tooDeep => ?_⟩
    obtain ⟨container, stops⟩ := isText.leads.stops tooDeep 0
    rw [isText.read_eq, Text.run, ← List.append_nil text, stops] at found
    cases found
  · rintro ⟨isText, fits⟩
    have passes := isText.leads.passes (Nat.not_lt.mpr fits) 0
    rw [List.append_nil, runFrom_nil] at passes
    rw [isText.read_eq, Text.run, passes]
    rfl

theorem IsText.exists_tooDeep {text : List Char} {value : Value} (isText : IsText text value)
    (deep : depthLimit < nesting text) : ∃ container, read text = .error (.tooDeep container) := by
  obtain ⟨container, stops⟩ := isText.leads.stops deep 0
  rw [List.append_nil] at stops
  rw [isText.read_eq, Text.run, stops]
  exact ⟨container, rfl⟩

end Marginalia.Json
