/-!
# Reading with a machine

A machine reads a text from left to right.  Each of its steps sees the state, the offset and the text
from there on, and either refuses or says what the state becomes and how many characters it read.
-/

namespace Marginalia.Text

/-- Runs a machine over a text to its end.  `busy` counts the characters that the step before has
    read already. -/
def runFrom {σ ε : Type} (step : Nat → σ → List Char → Except ε (σ × Nat)) :
    (offset busy : Nat) → σ → List Char → Except ε σ
  | _, _, state, [] => .ok state
  | offset, busy + 1, state, _ :: rest => runFrom step (offset + 1) busy state rest
  | offset, 0, state, c :: rest =>
    match step offset state (c :: rest) with
    | .error problem => .error problem
    | .ok (next, length) => runFrom step (offset + 1) (length - 1) next rest

/-- The state in which a machine ends its reading of a text. -/
def run {σ ε : Type} (step : Nat → σ → List Char → Except ε (σ × Nat)) (start : σ)
    (text : List Char) : Except ε σ :=
  runFrom step 0 0 start text

theorem runFrom_busy {σ ε : Type} (step : Nat → σ → List Char → Except ε (σ × Nat))
    (offset busy : Nat) (state : σ) (text : List Char) :
    runFrom step offset busy state text = runFrom step (offset + busy) 0 state (text.drop busy) := by
  induction text generalizing offset busy with
  | nil => rw [List.drop_nil, runFrom, runFrom]
  | cons c rest ih =>
    cases busy with
    | zero => rfl
    | succ busy => rw [runFrom, ih, List.drop_succ_cons, Nat.add_assoc, Nat.add_comm 1]

/-- A step that reads a piece of the text takes the run behind that piece. -/
theorem runFrom_of_step {σ ε : Type} {step : Nat → σ → List Char → Except ε (σ × Nat)} {offset : Nat}
    {state next : σ} {piece rest : List Char} (nonempty : piece ≠ [])
    (took : step offset state (piece ++ rest) = .ok (next, piece.length)) :
    runFrom step offset 0 state (piece ++ rest) =
      runFrom step (offset + piece.length) 0 next rest := by
  obtain ⟨first, more, rfl⟩ := List.exists_cons_of_ne_nil nonempty
  rw [List.cons_append] at took ⊢
  rw [runFrom, took]
  show runFrom step (offset + 1) more.length next (more ++ rest) = _
  rw [runFrom_busy, List.drop_left, List.length_cons, Nat.add_assoc, Nat.add_comm 1]

/-- What each step keeps about the state and the text in front of its place, a whole run keeps. -/
theorem keeps_runFrom {σ ε : Type} {step : Nat → σ → List Char → Except ε (σ × Nat)}
    {Keeps : σ → List Char → Prop}
    (advances : ∀ (offset : Nat) (state next : σ) (done : List Char) (c : Char) (rest : List Char)
      (length : Nat), Keeps state done → step offset state (c :: rest) = .ok (next, length) →
      ∃ piece tail, c :: rest = piece ++ tail ∧ length = piece.length ∧ piece ≠ [] ∧
        Keeps next (done ++ piece))
    {offset busy : Nat} {state final : σ} {done text : List Char}
    (kept : Keeps state (done ++ text.take busy))
    (ends : runFrom step offset busy state text = .ok final) : Keeps final (done ++ text) := by
  induction text generalizing offset busy state done with
  | nil =>
    cases ends
    rwa [List.take_nil] at kept
  | cons c rest ih =>
    -- The first character moves over to what is done; `busy` of the others were read with it.
    rw [List.append_cons]
    cases busy with
    | succ busy => exact ih (by rwa [List.take_succ_cons, List.append_cons] at kept) ends
    | zero =>
      rw [List.take_zero, List.append_nil] at kept
      rw [runFrom] at ends
      split at ends
      next => cases ends
      next next length took =>
      obtain ⟨piece, tail, whole, rfl, nonempty, kept⟩ := advances _ _ _ _ _ _ _ kept took
      obtain ⟨first, more, rfl⟩ := List.exists_cons_of_ne_nil nonempty
      rw [List.cons_append, List.cons.injEq] at whole
      obtain ⟨rfl, rfl⟩ := whole
      refine ih ?_ ends
      rwa [List.length_cons, Nat.add_sub_cancel, List.take_left, ← List.append_cons]

end Marginalia.Text
