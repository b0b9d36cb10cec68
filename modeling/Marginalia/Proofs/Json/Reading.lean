import Marginalia.Proofs.Json.Literal

/-!
# What the reader accepts

The machine keeps what the text in front of its place spells: the items and members of everything that
is still open, and what is read next to them.  Each step keeps it, so a value that is read from a text
is spelled by that text, up to white space around it.
-/

namespace Marginalia.Json

/-! ## What is open -/

/-- What is open, and the text up to the last bracket, comma or colon. -/
inductive Opened : List Frame → List Char → Prop where
  | nothing : Opened [] []
  | list {frames : List Frame} {done gap : List Char} {items : List Item} (outer : Opened frames done)
      (blank : IsGap gap) (written : ∀ item ∈ items, item.IsWritten) :
      Opened (.list (items.map Item.value).reverse :: frames)
        (done ++ (gap ++ '[' :: withCommas (items.map Item.text)))
  | table {frames : List Frame} {done gap : List Char} {members : List Member}
      (outer : Opened frames done) (blank : IsGap gap)
      (written : ∀ member ∈ members, member.IsWritten) :
      Opened (.table (entriesOf members) :: frames)
        (done ++ (gap ++ '\x7b' :: withCommas (members.map Member.text)))
  | keyed {frames : List Frame} {done before literal gap : List Char} {body : List (Option Char)}
      {entries : List (String × Value)} (inside : Opened (.table entries :: frames) done)
      (ahead : IsGap before) (spelled : SpellsString literal body) (blank : IsGap gap) :
      Opened (.keyed entries (contentOf body) :: frames) (done ++ (before ++ (literal ++ (gap ++ [':']))))

/-- The state of the machine behind a text. -/
inductive Reads : State → List Char → Prop where
  | value {frames : List Frame} {done gap : List Char} (opened : Opened frames done)
      (blank : IsGap gap) : Reads ⟨frames, .value⟩ (done ++ gap)
  | firstItem {frames : List Frame} {done before gap : List Char} (opened : Opened frames done)
      (ahead : IsGap before) (blank : IsGap gap) :
      Reads ⟨.list [] :: frames, .firstItem⟩ (done ++ (before ++ '[' :: gap))
  | firstKey {frames : List Frame} {done before gap : List Char} (opened : Opened frames done)
      (ahead : IsGap before) (blank : IsGap gap) :
      Reads ⟨.table [] :: frames, .firstKey⟩ (done ++ (before ++ '\x7b' :: gap))
  | key {frames : List Frame} {done gap : List Char} {entries : List (String × Value)}
      (opened : Opened (.table entries :: frames) done) (blank : IsGap gap) :
      Reads ⟨.table entries :: frames, .key⟩ (done ++ gap)
  | colon {frames : List Frame} {done before literal gap : List Char} {body : List (Option Char)}
      {entries : List (String × Value)} (opened : Opened (.table entries :: frames) done)
      (ahead : IsGap before) (spelled : SpellsString literal body) (blank : IsGap gap) :
      Reads ⟨.keyed entries (contentOf body) :: frames, .colon⟩ (done ++ (before ++ (literal ++ gap)))
  | behind {frames : List Frame} {done before written gap : List Char} {value : Value}
      (opened : Opened frames done) (ahead : IsGap before) (spelled : Spells written value)
      (blank : IsGap gap) : Reads ⟨frames, .behind value⟩ (done ++ (before ++ (written ++ gap)))

/-- Behind `done`, the machine goes over the first `length` characters of the text. -/
def Advances (done text : List Char) (next : State) (length : Nat) : Prop :=
  ∃ piece tail, text = piece ++ tail ∧ length = piece.length ∧ piece ≠ [] ∧ Reads next (done ++ piece)

theorem Advances.of_char {done rest : List Char} {c : Char} {next : State}
    (reads : Reads next (done ++ [c])) : Advances done (c :: rest) next 1 :=
  ⟨[c], rest, rfl, rfl, List.cons_ne_nil _ _, reads⟩

/-! ## One step -/

section Step

variable {offset length : Nat} {done gap text : List Char} {frames : List Frame} {state next : State}

/-- White space changes nothing. -/
theorem Reads.concat_space {c : Char} (reads : Reads state done) (isBlank : isSpace c = true) :
    Reads state (done ++ [c]) := by
  cases reads with
  | value opened blank => simpa using Reads.value opened (blank.concat isBlank)
  | firstItem opened ahead blank => simpa using Reads.firstItem opened ahead (blank.concat isBlank)
  | firstKey opened ahead blank => simpa using Reads.firstKey opened ahead (blank.concat isBlank)
  | key opened blank => simpa using Reads.key opened (blank.concat isBlank)
  | colon opened ahead spelled blank =>
    simpa using Reads.colon opened ahead spelled (blank.concat isBlank)
  | behind opened ahead spelled blank =>
    simpa using Reads.behind opened ahead spelled (blank.concat isBlank)

/-- A value without parts is behind the machine at once. -/
theorem Advances.of_spells {written tail : List Char} {value : Value} (opened : Opened frames done)
    (blank : IsGap gap) (spelled : Spells written value) :
    Advances (done ++ gap) (written ++ tail) ⟨frames, .behind value⟩ written.length := by
  refine ⟨written, tail, rfl, rfl, spelled.ne_nil, ?_⟩
  simpa using Reads.behind opened blank spelled IsGap.nil

theorem advances_openContainer {container : Container} {c : Char} {rest : List Char}
    (opened : Opened frames done) (blank : IsGap gap)
    (bracket : c = match container with | .list => '[' | .table => '\x7b')
    (found : openContainer frames container = .ok (next, length)) :
    Advances (done ++ gap) (c :: rest) next length := by
  unfold openContainer at found
  split at found
  next => cases found
  next =>
  cases container with
  | list =>
    cases found
    exact .of_char (by simpa [bracket] using Reads.firstItem opened blank IsGap.nil)
  | table =>
    cases found
    exact .of_char (by simpa [bracket] using Reads.firstKey opened blank IsGap.nil)

theorem advances_readValue (opened : Opened frames done) (blank : IsGap gap)
    (found : readValue offset frames text = .ok (next, length)) :
    Advances (done ++ gap) text next length := by
  unfold readValue at found
  split at found
  next rest => exact advances_openContainer opened blank rfl found
  next rest => exact advances_openContainer opened blank rfl found
  next rest =>
    split at found
    next body stop read =>
      cases found
      obtain ⟨literal, tail, whole, rfl, spelled⟩ := spellsString_of_readString read
      rw [whole]
      exact .of_spells opened blank (.string spelled)
    next => cases found
  next =>
    split at found
    next value stop read =>
      cases found
      obtain ⟨spelled, tail, rfl, rfl, member⟩ := word_of_readWord? read
      exact .of_spells opened blank (.word member)
    next =>
    split at found
    next numeral read =>
      obtain ⟨spelled, tail, rfl, spells⟩ := spellsNumeral_of_readNumeral? read
      cases counts : numeral.value with
      | error problem =>
        rw [counts] at found
        cases found
      | ok value =>
        rw [counts] at found
        cases found
        rw [spells.length]
        exact .of_spells opened blank (.number spells counts)
    next => cases found

theorem advances_readKey {entries : List (String × Value)}
    (opened : Opened (.table entries :: frames) done) (blank : IsGap gap)
    (found : readKey offset (.table entries :: frames) text = .ok (next, length)) :
    Advances (done ++ gap) text next length := by
  unfold readKey at found
  split at found
  next rest entries outer same =>
    cases same
    split at found
    next body stop read =>
      cases found
      obtain ⟨literal, tail, whole, rfl, spelled⟩ := spellsString_of_readString read
      rw [whole]
      refine ⟨literal, tail, rfl, rfl, by cases spelled; exact List.cons_ne_nil _ _, ?_⟩
      simpa using Reads.colon opened blank spelled IsGap.nil
    next => cases found
  next => cases found

/-- A comma or a bracket behind a value files the value where it stands. -/
theorem reads_readBehind {before written : List Char} {c : Char} {value : Value}
    (opened : Opened frames done) (ahead : IsGap before) (spelled : Spells written value)
    (blank : IsGap gap) (found : readBehind offset value frames c = .ok next) :
    Reads next (done ++ (before ++ (written ++ gap)) ++ [c]) := by
  let item : Item := ⟨before, written, gap, value⟩
  have itemSpaced : item.IsSpaced := ⟨ahead, blank⟩
  cases opened with
  | nothing => cases found
  | @list frames done outside items outer blankOutside others =>
    have all : ∀ other ∈ items ++ [item], other.IsWritten :=
      List.forall_mem_append.mpr ⟨others, List.forall_mem_singleton.mpr ⟨itemSpaced, spelled⟩⟩
    rw [readBehind] at found
    split at found
    next comma =>
      cases found
      simpa [withCommas_concat, Item.text, item, comma] using
        Reads.value (Opened.list outer blankOutside all) IsGap.nil
    next =>
    split at found
    next bracket =>
      cases found
      simpa [intercalate_concat, listText, Item.text, item, bracket] using
        Reads.behind outer blankOutside (.of_items (by simp) all) IsGap.nil
    next => cases found
  | table => cases found
  | @keyed frames done front literal inner body entries inside blankFront key blankInner =>
    cases inside with
    | @table _ done outside members outer blankOutside others =>
    let member : Member := ⟨front, literal, inner, contentOf body, item⟩
    have memberSpaced : member.IsSpaced := ⟨blankFront, ⟨body, key, rfl⟩, blankInner, itemSpaced⟩
    have all : ∀ other ∈ members ++ [member], other.IsWritten :=
      List.forall_mem_append.mpr ⟨others, List.forall_mem_singleton.mpr ⟨memberSpaced, spelled⟩⟩
    rw [readBehind, ← entriesOf_concat members member] at found
    split at found
    next comma =>
      cases found
      simpa [withCommas_concat, Member.text, member, Item.text, item, comma] using
        Reads.key (Opened.table outer blankOutside all) IsGap.nil
    next =>
    split at found
    next bracket =>
      cases found
      simpa [intercalate_concat, tableText, Member.text, member, Item.text, item, bracket] using
        Reads.behind outer blankOutside (.of_members (by simp) all) IsGap.nil
    next => cases found

/-- Each step of the machine keeps what the text in front of its place spells. -/
theorem advances_step {rest : List Char} {c : Char} (reads : Reads state done)
    (found : step offset state (c :: rest) = .ok (next, length)) :
    Advances done (c :: rest) next length := by
  rw [step] at found
  split at found
  next blank =>
    cases found
    exact .of_char (reads.concat_space blank)
  next =>
  cases reads with
  | value opened blank => exact advances_readValue opened blank found
  | @firstItem frames done before gap opened ahead blank =>
    dsimp only at found
    split at found
    next bracket =>
      cases found
      exact .of_char (by simpa [bracket] using Reads.behind opened ahead (.emptyList blank) IsGap.nil)
    next =>
      have none : ∀ item ∈ ([] : List Item), item.IsWritten := by simp
      simpa [withCommas] using advances_readValue (Opened.list opened ahead none) blank found
  | firstKey opened ahead blank =>
    dsimp only at found
    split at found
    next bracket =>
      cases found
      exact .of_char (by simpa [bracket] using Reads.behind opened ahead (.emptyTable blank) IsGap.nil)
    next =>
      have none : ∀ member ∈ ([] : List Member), member.IsWritten := by simp
      simpa [withCommas] using advances_readKey (Opened.table opened ahead none) blank found
  | key opened blank => exact advances_readKey opened blank found
  | colon opened ahead spelled blank =>
    dsimp only at found
    split at found
    next colon =>
      cases found
      exact .of_char (by
        simpa [colon] using Reads.value (.keyed opened ahead spelled blank) IsGap.nil)
    next => cases found
  | @behind frames done before written gap value opened ahead spelled blank =>
    cases behind : readBehind offset value frames c with
    | error problem =>
      simp only [behind] at found
      cases found
    | ok after =>
      simp only [behind] at found
      cases found
      exact .of_char (reads_readBehind opened ahead spelled blank behind)

end Step

/-! ## The whole text -/

theorem reads_run {text : List Char} {final : State}
    (ends : Text.run step ⟨[], .value⟩ text = .ok final) : Reads final text := by
  have starts : Reads ⟨[], .value⟩ ([] ++ text.take 0) := .value .nothing IsGap.nil
  exact Text.keeps_runFrom (fun _ _ _ _ _ _ _ reads took => advances_step reads took) starts ends

/-- A text that is read spells the value, with white space around it. -/
theorem spells_of_read {text : List Char} {value : Value} (found : read text = .ok value) :
    ∃ before written gap, text = before ++ (written ++ gap) ∧ IsGap before ∧ IsGap gap ∧
      Spells written value := by
  rw [read] at found
  split at found
  next => cases found
  next =>
  obtain ⟨final, ran, found⟩ := exists_of_bind_eq_ok found
  have reads := reads_run ran
  cases reads with
  | @behind frames done before written gap value opened ahead spelled blank =>
    dsimp only [State.finish] at found
    split at found
    next closed =>
      cases found
      obtain rfl := List.isEmpty_iff.mp closed
      cases opened
      exact ⟨before, written, gap, rfl, ahead, blank, spelled⟩
    next => cases found
  | value | firstItem | firstKey | key | colon => cases found

end Marginalia.Json
