import Marginalia.Text.Scan
import Mathlib.Data.List.Pairwise

/-!
# Tokens of a scan

How a scan goes on behind a place where nothing is read and behind a token, and what is known of
each token: the reader recognises it in the rest of the text at the place where it starts.  Tokens
lie one behind the other, and together they cover every place where the reader recognises something.
-/

namespace Marginalia.Text

variable {σ α : Type} {read : List σ → Option (Nat × α)}

theorem hitsFrom_busy (read : List σ → Option (Nat × α)) (place busy : Nat) (text : List σ) :
    hitsFrom read place busy text = hitsFrom read (place + busy) 0 (text.drop busy) := by
  induction text generalizing place busy with
  | nil => simp [hitsFrom]
  | cons c rest ih =>
    cases busy with
    | zero => simp
    | succ busy =>
      rw [hitsFrom, ih, List.drop_succ_cons]
      congr 1
      omega

theorem hitsFrom_of_none {c : σ} {rest : List σ} (place : Nat)
    (nothing : read (c :: rest) = none) :
    hitsFrom read place 0 (c :: rest) = hitsFrom read (place + 1) 0 rest := by
  rw [hitsFrom, nothing]

theorem hitsFrom_of_some {text : List σ} {length : Nat} {token : α} (place : Nat)
    (nonempty : text ≠ []) (positive : 0 < length) (found : read text = some (length, token)) :
    hitsFrom read place 0 text =
      ⟨place, length, token⟩ :: hitsFrom read (place + length) 0 (text.drop length) := by
  obtain ⟨c, rest, rfl⟩ := List.exists_cons_of_ne_nil nonempty
  obtain ⟨behind, rfl⟩ := Nat.exists_eq_succ_of_ne_zero (Nat.ne_of_gt positive)
  rw [hitsFrom, found, List.drop_succ_cons]
  dsimp only
  rw [hitsFrom_busy]
  congr 2
  simp only [Nat.succ_eq_add_one]
  omega

/-- The token, further on in a text by a distance. -/
def Hit.shift (distance : Nat) (hit : Hit α) : Hit α :=
  { hit with start := hit.start + distance }

/-- A scan that counts from a later offset finds the same tokens, moved. -/
theorem hitsFrom_shift (read : List σ → Option (Nat × α)) (place busy distance : Nat)
    (text : List σ) :
    hitsFrom read (place + distance) busy text =
      (hitsFrom read place busy text).map (Hit.shift distance) := by
  induction text generalizing place busy with
  | nil => rfl
  | cons c rest ih =>
    have further := ih (place + 1)
    rw [Nat.add_right_comm] at further
    cases busy with
    | succ busy => exact further busy
    | zero =>
      rw [hitsFrom, hitsFrom]
      cases read (c :: rest) with
      | none => exact further 0
      | some answer => simp only [further, List.map_cons, Hit.shift]

/-- Which tokens a scan finds does not depend on the offset that it counts from. -/
theorem map_token_hitsFrom (read : List σ → Option (Nat × α)) (place other : Nat) {busy : Nat}
    (text : List σ) :
    (hitsFrom read place busy text).map Hit.token =
      (hitsFrom read other busy text).map Hit.token := by
  have fromStart (place : Nat) : (hitsFrom read place busy text).map Hit.token =
      (hitsFrom read 0 busy text).map Hit.token := by
    rw [← Nat.zero_add place, hitsFrom_shift, List.map_map]
    rfl
  rw [fromStart place, fromStart other]

/-- A token stands where the reader recognises it. -/
theorem read_of_mem_hitsFrom {place busy : Nat} {text : List σ} {hit : Hit α}
    (member : hit ∈ hitsFrom read place busy text) :
    ∃ skipped, hit.start = place + skipped ∧ skipped < text.length ∧
      read (text.drop skipped) = some (hit.length, hit.token) := by
  induction text generalizing place busy with
  | nil => simp [hitsFrom] at member
  | cons c rest ih =>
    -- What is found in the rest is found one place further in the whole.
    have further : ∀ {busy : Nat}, hit ∈ hitsFrom read (place + 1) busy rest →
        ∃ skipped, hit.start = place + skipped ∧ skipped < (c :: rest).length ∧
          read ((c :: rest).drop skipped) = some (hit.length, hit.token) := by
      intro busy later
      obtain ⟨skipped, start, bound, found⟩ := ih later
      exact ⟨skipped + 1, by omega, by simpa using bound, found⟩
    cases busy with
    | succ busy => exact further member
    | zero =>
      rw [hitsFrom] at member
      cases found : read (c :: rest) with
      | none => exact further (by simpa only [found] using member)
      | some answer =>
        obtain ⟨length, token⟩ := answer
        simp only [found, List.mem_cons] at member
        rcases member with rfl | later
        · exact ⟨0, rfl, by simp, found⟩
        · exact further later

theorem read_of_mem_hits {text : List σ} {hit : Hit α} (member : hit ∈ hits read text) :
    hit.start < text.length ∧ read (text.drop hit.start) = some (hit.length, hit.token) := by
  obtain ⟨skipped, start, bound, found⟩ := read_of_mem_hitsFrom member
  rw [Nat.zero_add] at start
  exact start ▸ ⟨bound, found⟩

/-! ## Around a text -/

/-- A piece at no place of which anything is read is passed over. -/
theorem hitsFrom_append_of_none {front : List σ}
    (nothing : ∀ c ∈ front, ∀ behind, read (c :: behind) = none) (place : Nat) (rest : List σ) :
    hitsFrom read place 0 (front ++ rest) = hitsFrom read (place + front.length) 0 rest := by
  induction front generalizing place with
  | nil => rfl
  | cons c front ih =>
    obtain ⟨here, behind⟩ := List.forall_mem_cons.mp nothing
    rw [List.cons_append, hitsFrom_of_none place (here _), ih behind, List.length_cons,
      Nat.add_assoc, Nat.add_comm 1]

/-- A tail that has no tokens, and that no reading in front of it takes notice of, adds nothing. -/
theorem hitsFrom_append {tail : List σ}
    (nothing : ∀ c ∈ tail, ∀ behind, read (c :: behind) = none)
    (kept : ∀ text, read (text ++ tail) = read text)
    (inside : ∀ {text length token}, read text = some (length, token) → length ≤ text.length)
    (place : Nat) {busy : Nat} {text : List σ} (free : busy ≤ text.length) :
    hitsFrom read place busy (text ++ tail) = hitsFrom read place busy text := by
  induction text generalizing place busy with
  | nil =>
    obtain rfl := Nat.le_zero.mp free
    have none := hitsFrom_append_of_none nothing place []
    rwa [List.append_nil] at none
  | cons c rest ih =>
    rw [List.length_cons] at free
    cases busy with
    | succ busy => exact ih (place + 1) (Nat.le_of_succ_le_succ free)
    | zero =>
      rw [List.cons_append, hitsFrom, hitsFrom, ← List.cons_append, kept]
      cases found : read (c :: rest) with
      | none => exact ih (place + 1) (Nat.zero_le _)
      | some answer =>
        -- The token ends in front of the tail, and so does what it covers of the rest.
        have covered : answer.1 ≤ rest.length + 1 := inside found
        exact congrArg _ (ih (place + 1) (Nat.sub_le_of_le_add covered))

/-- The tokens of a text are found again, moved, where the text stands between two that have none. -/
theorem hits_append_append {front tail : List σ}
    (frontNothing : ∀ c ∈ front, ∀ behind, read (c :: behind) = none)
    (nothing : ∀ c ∈ tail, ∀ behind, read (c :: behind) = none)
    (kept : ∀ text, read (text ++ tail) = read text)
    (inside : ∀ {text length token}, read text = some (length, token) → length ≤ text.length)
    (text : List σ) :
    hits read (front ++ text ++ tail) = (hits read text).map (Hit.shift front.length) := by
  rw [hits, hits, List.append_assoc, hitsFrom_append_of_none frontNothing, hitsFrom_shift,
    hitsFrom_append nothing kept inside 0 (Nat.zero_le _)]

/-! ## Where the tokens lie -/

/-- No token starts in front of the characters that the one before covers. -/
theorem le_start_of_mem_hitsFrom {place busy : Nat} {text : List σ} {hit : Hit α}
    (member : hit ∈ hitsFrom read place busy text) : place + busy ≤ hit.start := by
  rw [hitsFrom_busy] at member
  obtain ⟨skipped, start, _, _⟩ := read_of_mem_hitsFrom member
  omega

/-- Each token starts behind the start and not before the end of those in front of it. -/
theorem pairwise_hitsFrom (read : List σ → Option (Nat × α)) (place busy : Nat) (text : List σ) :
    (hitsFrom read place busy text).Pairwise fun front back =>
      front.start < back.start ∧ front.stop ≤ back.start := by
  induction text generalizing place busy with
  | nil => exact List.Pairwise.nil
  | cons c rest ih =>
    cases busy with
    | succ busy => exact ih (place + 1) busy
    | zero =>
      rw [hitsFrom]
      cases read (c :: rest) with
      | none => exact ih (place + 1) 0
      | some answer =>
        obtain ⟨length, token⟩ := answer
        refine List.Pairwise.cons (fun back member => ?_) (ih (place + 1) (length - 1))
        have behind := le_start_of_mem_hitsFrom member
        simp only [Hit.stop]
        omega

/-- Two tokens that are not the same lie apart. -/
theorem apart_of_mem_hits {text : List σ} {hit other : Hit α} (member : hit ∈ hits read text)
    (otherMember : other ∈ hits read text) (different : hit ≠ other) :
    hit.stop ≤ other.start ∨ other.stop ≤ hit.start := by
  let Apart (front back : Hit α) : Prop := front.stop ≤ back.start ∨ back.stop ≤ front.start
  have symmetric : Std.Symm Apart := ⟨fun _ _ => Or.symm⟩
  have ordered : (hits read text).Pairwise Apart :=
    (pairwise_hitsFrom read 0 0 text).imp fun both => .inl both.2
  exact ordered.forall member otherMember different

/-- Wherever the reader recognises something, the scan has a token: one that starts there, or one
    before that has not ended. -/
theorem covered_of_read (positive : ∀ {text answer}, read text = some answer → 0 < answer.1)
    {place busy offset : Nat} {text : List σ} (inside : offset < text.length)
    (free : busy ≤ offset) (found : (read (text.drop offset)).isSome = true) :
    ∃ hit ∈ hitsFrom read place busy text,
      hit.start ≤ place + offset ∧ place + offset < hit.stop := by
  induction text generalizing place busy offset with
  | nil => exact absurd inside (Nat.not_lt_zero offset)
  | cons c rest ih =>
    -- What is recognised behind the first character is covered by the scan of the rest.
    have further : ∀ {busy : Nat}, busy < offset → ∃ hit ∈ hitsFrom read (place + 1) busy rest,
        hit.start ≤ place + offset ∧ place + offset < hit.stop := by
      intro busy before
      obtain ⟨less, rfl⟩ := Nat.exists_eq_succ_of_ne_zero (Nat.ne_of_gt (Nat.zero_lt_of_lt before))
      have covered := @ih (place + 1) busy less (Nat.lt_of_succ_lt_succ inside)
        (Nat.le_of_lt_succ before) found
      rwa [Nat.add_right_comm] at covered
    cases busy with
    | succ busy => exact further free
    | zero =>
      rw [hitsFrom]
      cases recognised : read (c :: rest) with
      | none =>
        refine further (Nat.pos_of_ne_zero fun atStart => ?_)
        rw [atStart, List.drop_zero, recognised] at found
        cases found
      | some answer =>
        obtain ⟨length, token⟩ := answer
        have long : 0 < length := positive recognised
        by_cases within : offset < length
        · refine ⟨⟨place, length, token⟩, List.mem_cons_self, Nat.le_add_right place offset, ?_⟩
          exact Nat.add_lt_add_left within place
        · obtain ⟨hit, member, covers⟩ := @further (length - 1) (by omega)
          exact ⟨hit, List.mem_cons_of_mem _ member, covers⟩

end Marginalia.Text
