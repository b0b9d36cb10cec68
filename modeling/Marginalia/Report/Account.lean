/-!
# Accounts

An outcome together with what was noted on the way to it.  What fails ends an account; the notes
before it remain.  The notes of two accounts one after the other are those of the first and then those
of the second, and the outcome does not depend on them.
-/

namespace Marginalia

/-- What two steps one after the other come to, the second comes to with what the first came to. -/
theorem exists_of_bind_eq_ok {ε α β : Type} {first : Except ε α} {next : α → Except ε β} {result : β}
    (ends : (first >>= next) = .ok result) : ∃ value, first = .ok value ∧ next value = .ok result := by
  cases first with
  | error problem => cases ends
  | ok value => exact ⟨value, rfl, ends⟩

/-- What was noted on the way, in order, and the outcome: a value, or the flaw that keeps it from
    coming about. -/
structure Account (note flaw α : Type) where
  notes : List note
  outcome : Except flaw α

namespace Account

variable {note flaw α β γ : Type}

/-- A value without notes. -/
def value (result : α) : Account note flaw α := ⟨[], .ok result⟩

/-- What comes next with the value of an account. -/
def andThen (account : Account note flaw α) (next : α → Account note flaw β) :
    Account note flaw β :=
  match account.outcome with
  | .ok result =>
    let rest := next result
    ⟨account.notes ++ rest.notes, rest.outcome⟩
  | .error failure => ⟨account.notes, .error failure⟩

instance : Monad (Account note flaw) where
  pure := value
  bind := andThen

/-- Some notes, in order. -/
def noteAll (notes : List note) : Account note flaw Unit := ⟨notes, .ok ()⟩

/-- An account that ends with a flaw. -/
def fail (failure : flaw) : Account note flaw α := ⟨[], .error failure⟩

/-- An outcome without notes. -/
def ofExcept (outcome : Except flaw α) : Account note flaw α := ⟨[], outcome⟩

@[simp] theorem outcome_pure (result : α) :
    (pure result : Account note flaw α).outcome = .ok result := rfl

@[simp] theorem notes_pure (result : α) : (pure result : Account note flaw α).notes = [] := rfl

@[simp] theorem outcome_noteAll (notes : List note) :
    (noteAll notes : Account note flaw Unit).outcome = .ok () := rfl

@[simp] theorem notes_noteAll (notes : List note) :
    (noteAll notes : Account note flaw Unit).notes = notes := rfl

@[simp] theorem outcome_fail (failure : flaw) :
    (fail failure : Account note flaw α).outcome = .error failure := rfl

@[simp] theorem notes_fail (failure : flaw) : (fail failure : Account note flaw α).notes = [] := rfl

@[simp] theorem outcome_ofExcept (outcome : Except flaw α) :
    (ofExcept outcome : Account note flaw α).outcome = outcome := rfl

@[simp] theorem notes_ofExcept (outcome : Except flaw α) :
    (ofExcept outcome : Account note flaw α).notes = [] := rfl

theorem outcome_bind (account : Account note flaw α) (next : α → Account note flaw β) :
    (account >>= next).outcome = account.outcome >>= fun result => (next result).outcome := by
  obtain ⟨notes, outcome⟩ := account
  cases outcome <;> rfl

/-- Two accounts one after the other succeed exactly if both do. -/
theorem outcome_bind_eq_ok_iff {account : Account note flaw α} {next : α → Account note flaw β}
    {result : β} : (account >>= next).outcome = .ok result ↔
      ∃ middle, account.outcome = .ok middle ∧ (next middle).outcome = .ok result := by
  rw [outcome_bind]
  cases account.outcome with
  | error failure =>
    constructor
    · intro succeeds
      cases succeeds
    · rintro ⟨middle, succeeds, _⟩
      cases succeeds
  | ok middle =>
    constructor
    · intro succeeds
      exact ⟨middle, rfl, succeeds⟩
    · rintro ⟨_, same, succeeds⟩
      cases same
      exact succeeds

theorem outcome_map (change : α → β) (account : Account note flaw α) :
    (change <$> account).outcome = change <$> account.outcome := by
  obtain ⟨notes, outcome⟩ := account
  cases outcome <;> rfl

theorem notes_bind_ok {account : Account note flaw α} {result : α}
    (succeeds : account.outcome = .ok result) (next : α → Account note flaw β) :
    (account >>= next).notes = account.notes ++ (next result).notes := by
  obtain ⟨notes, outcome⟩ := account
  subst succeeds
  rfl

theorem notes_bind_error {account : Account note flaw α} {failure : flaw}
    (fails : account.outcome = .error failure) (next : α → Account note flaw β) :
    (account >>= next).notes = account.notes := by
  obtain ⟨notes, outcome⟩ := account
  subst fails
  rfl

instance : LawfulMonad (Account note flaw) := LawfulMonad.mk' (Account note flaw)
  (by
    intro α account
    obtain ⟨notes, outcome⟩ := account
    cases outcome <;> simp [Functor.map, andThen, value])
  (by intros; rfl)
  (by
    intro α β γ account next last
    obtain ⟨notes, outcome⟩ := account
    cases outcome with
    | error => rfl
    | ok result =>
      simp only [Bind.bind, andThen]
      cases (next result).outcome <;> simp)

end Account

end Marginalia
