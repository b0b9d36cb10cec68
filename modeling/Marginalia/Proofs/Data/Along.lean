import Marginalia.Report.Account
import Mathlib.Data.List.Basic
import Mathlib.Data.List.Induction

/-!
# Along a list

A step that may fail, taken with one entry of a list after the other: it comes to an end exactly if it
does so with each of them.  What pieces with a separator between them hold, and what is left of a list
without repetitions.
-/

namespace Marginalia

section Steps

variable {ε α β : Type} {step : α → Except ε β} {list : List α} {results : List β}

theorem exists_mapM_eq_ok_iff :
    (∃ results, list.mapM step = .ok results) ↔ ∀ entry ∈ list, ∃ result, step entry = .ok result := by
  induction list with
  | nil => exact iff_of_true ⟨[], rfl⟩ (by simp)
  | cons entry list ih =>
    rw [List.forall_mem_cons, ← ih, List.mapM_cons]
    constructor
    · rintro ⟨results, ends⟩
      obtain ⟨result, here, ends⟩ := exists_of_bind_eq_ok ends
      obtain ⟨others, later, -⟩ := exists_of_bind_eq_ok ends
      exact ⟨⟨result, here⟩, others, later⟩
    · rintro ⟨⟨result, here⟩, others, later⟩
      exact ⟨result :: others, by rw [here, later]; rfl⟩

theorem mem_of_mapM (ends : list.mapM step = .ok results) {result : β} :
    result ∈ results ↔ ∃ entry ∈ list, step entry = .ok result := by
  induction list generalizing results with
  | nil =>
    cases ends
    simp
  | cons entry list ih =>
    rw [List.mapM_cons] at ends
    obtain ⟨first, here, ends⟩ := exists_of_bind_eq_ok ends
    obtain ⟨others, later, ends⟩ := exists_of_bind_eq_ok ends
    cases ends
    rw [List.mem_cons, ih later, List.exists_mem_cons_iff, here, Except.ok.injEq, eq_comm]

theorem forM_eq_ok_iff {check : α → Except ε PUnit} :
    list.forM check = .ok ⟨⟩ ↔ ∀ entry ∈ list, check entry = .ok ⟨⟩ := by
  induction list with
  | nil => exact iff_of_true rfl (by simp)
  | cons entry list ih =>
    rw [List.forall_mem_cons, ← ih]
    show (check entry >>= fun _ => list.forM check) = _ ↔ _
    cases check entry with
    | error problem => exact iff_of_false (by rintro ⟨⟩) (by rintro ⟨⟨⟩, -⟩)
    | ok => exact (and_iff_right rfl).symm

/-- Whether a test comes to an end and is passed. -/
def passes (test : α → Except ε Bool) (entry : α) : Bool :=
  (test entry).toOption = some true

theorem passes_eq_true_iff {test : α → Except ε Bool} {entry : α} :
    passes test entry = true ↔ test entry = .ok true := by
  rw [passes]
  cases test entry <;> simp [Except.toOption]

theorem findM?_of_forall {test : α → Except ε Bool}
    (all : ∀ entry ∈ list, ∃ passed, test entry = .ok passed) :
    list.findM? test = .ok (list.find? (passes test)) := by
  induction list with
  | nil => rfl
  | cons entry list ih =>
    obtain ⟨⟨passed, here⟩, later⟩ := List.forall_mem_cons.mp all
    have kind : passes test entry = passed := by rw [passes, here]; cases passed <;> rfl
    rw [List.findM?, here, List.find?_cons, kind]
    cases passed
    · exact ih later
    · rfl

end Steps

section Pieces

variable {α : Type}

theorem exists_intercalate_cons (sep first : List α) (more : List (List α)) :
    ∃ rest, sep.intercalate (first :: more) = first ++ rest := by
  cases more with
  | nil => exact ⟨[], by rw [List.intercalate_singleton, List.append_nil]⟩
  | cons next more => exact ⟨_, by rw [List.intercalate_cons_cons, List.append_assoc]⟩

theorem exists_intercalate_concat (sep last : List α) (front : List (List α)) :
    ∃ rest, sep.intercalate (front ++ [last]) = rest ++ last := by
  induction front with
  | nil => exact ⟨[], List.intercalate_singleton⟩
  | cons first front ih =>
    obtain ⟨rest, whole⟩ := ih
    rw [List.cons_append, List.intercalate_cons_of_ne_nil (by simp), whole, ← List.append_assoc]
    exact ⟨_, rfl⟩

theorem mem_intercalate {sep : List α} {parts : List (List α)} {c : α}
    (member : c ∈ sep.intercalate parts) : c ∈ sep ∨ ∃ part ∈ parts, c ∈ part := by
  induction parts with
  | nil => cases member
  | cons part parts ih =>
    cases parts with
    | nil =>
      rw [List.intercalate_singleton] at member
      exact .inr ⟨part, List.mem_cons_self, member⟩
    | cons next parts =>
      rw [List.intercalate_cons_cons, List.mem_append, List.mem_append] at member
      rcases member with (inPart | inSep) | later
      · exact .inr ⟨part, List.mem_cons_self, inPart⟩
      · exact .inl inSep
      · rcases ih later with inSep | ⟨other, otherMember, inOther⟩
        · exact .inl inSep
        · exact .inr ⟨other, List.mem_cons_of_mem _ otherMember, inOther⟩

theorem subset_intercalate (sep : List α) {parts : List (List α)} {part : List α}
    (member : part ∈ parts) : part ⊆ sep.intercalate parts := by
  intro c inPart
  induction parts with
  | nil => cases member
  | cons first parts ih =>
    cases parts with
    | nil =>
      rw [List.intercalate_singleton]
      exact List.mem_singleton.mp member ▸ inPart
    | cons next parts =>
      rw [List.intercalate_cons_cons, List.mem_append, List.mem_append]
      rcases List.mem_cons.mp member with rfl | later
      · exact .inl (.inl inPart)
      · exact .inr (ih later)

end Pieces

/-- What is left of a list without repetitions stands in the order of first occurrences. -/
theorem pairwise_eraseDups {α : Type} [BEq α] [LawfulBEq α] (list : List α) :
    list.eraseDups.Pairwise fun front back => list.idxOf front < list.idxOf back := by
  -- From the end: an entry that is new there occurs behind all those before it.
  induction list using List.reverseRecOn with
  | nil => simp
  | append_singleton list last ih =>
    have kept : list.eraseDups.Pairwise fun front back =>
        (list ++ [last]).idxOf front < (list ++ [last]).idxOf back := by
      apply ih.imp_of_mem
      intro front back frontMember backMember before
      rw [List.mem_eraseDups] at frontMember backMember
      rwa [List.idxOf_append_of_mem frontMember, List.idxOf_append_of_mem backMember]
    rw [List.eraseDups_append]
    by_cases again : last ∈ list
    · have nothing : [last].removeAll list = [] := by simp [List.removeAll, again]
      rwa [nothing, List.eraseDups_nil, List.append_nil]
    · have new : ([last].removeAll list).eraseDups = [last] := by
        simp [List.removeAll, again, List.eraseDups_cons]
      rw [new]
      apply List.pairwise_append.mpr
      refine ⟨kept, List.pairwise_singleton _ _, ?_⟩
      intro front member back isLast
      rw [List.mem_eraseDups] at member
      rw [List.mem_singleton.mp isLast, List.idxOf_append_of_mem member,
        List.idxOf_append_of_notMem again]
      have bound := List.idxOf_lt_length_of_mem member
      omega

theorem nodup_eraseDups {α : Type} [BEq α] [LawfulBEq α] (list : List α) : list.eraseDups.Nodup := by
  apply (pairwise_eraseDups list).imp
  rintro front _ before rfl
  exact Nat.lt_irrefl _ before

end Marginalia
