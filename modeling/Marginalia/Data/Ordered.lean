/-!
# Dictionaries in order

Lists of entries that serve as dictionaries: each key stands at the place where it appeared first, and
keeps its last value.
-/

namespace Marginalia.Ordered

variable {α : Type}

/-- The entries with the value of a key replaced, or added at the end when the key is new. -/
def put (key : String) (value : α) : List (String × α) → List (String × α)
  | [] => [(key, value)]
  | (other, old) :: rest =>
    if key = other then (key, value) :: rest else (other, old) :: put key value rest

/-- The entries without those of a key. -/
def erase (key : String) (entries : List (String × α)) : List (String × α) :=
  entries.filter fun entry => entry.1 ≠ key

/-- What is found under a key: the value of the first entry, or what is found behind it. -/
theorem lookup_entry (key other : String) (value : α) (entries : List (String × α)) :
    ((key, value) :: entries).lookup other =
      if other = key then some value else entries.lookup other := by
  by_cases same : other = key
  · simp [same]
  · rw [List.lookup_cons, beq_false_of_ne same, if_neg same]

/-- Putting a value changes what is found under its key and nothing else. -/
theorem lookup_put (key other : String) (value : α) (entries : List (String × α)) :
    (put key value entries).lookup other =
      if other = key then some value else entries.lookup other := by
  induction entries with
  | nil => simp only [put, lookup_entry]
  | cons entry rest inductionHypothesis =>
    obtain ⟨head, old⟩ := entry
    by_cases found : key = head
    · subst found
      by_cases same : other = key <;> simp [put, lookup_entry, same]
    · by_cases atHead : other = head
      · subst atHead
        simp [put, found, Ne.symm found]
      · simp only [put, found, lookup_entry, atHead, inductionHypothesis, if_false]

/-- A new key is added behind the others; a known one stays where it is. -/
theorem keys_put (key : String) (value : α) (entries : List (String × α)) :
    (put key value entries).map Prod.fst =
      if key ∈ entries.map Prod.fst then entries.map Prod.fst
      else entries.map Prod.fst ++ [key] := by
  induction entries with
  | nil => simp [put]
  | cons entry rest inductionHypothesis =>
    obtain ⟨head, old⟩ := entry
    by_cases found : key = head
    · simp [put, found]
    · simp only [put, found, if_false, List.map_cons, inductionHypothesis, List.mem_cons, false_or]
      split <;> simp

/-- A new key comes behind the others with its value. -/
theorem put_of_notMem {key : String} {entries : List (String × α)} (value : α)
    (unknown : key ∉ entries.map Prod.fst) : put key value entries = entries ++ [(key, value)] := by
  induction entries with
  | nil => rfl
  | cons entry rest inductionHypothesis =>
    rw [List.map_cons, List.mem_cons, not_or] at unknown
    rw [put, if_neg unknown.1, inductionHypothesis unknown.2, List.cons_append]

variable {key other : String} {value : α} {entries : List (String × α)}

theorem lookup_erase (key other : String) (entries : List (String × α)) :
    (erase key entries).lookup other = if other = key then none else entries.lookup other := by
  induction entries with
  | nil => simp [erase]
  | cons entry rest ih =>
    obtain ⟨head, old⟩ := entry
    rw [erase] at ih ⊢
    by_cases erased : head = key
    · subst erased
      rw [List.filter_cons_of_neg (by simp), ih, lookup_entry]
      by_cases same : other = head <;> simp [same]
    · rw [List.filter_cons_of_pos (by simpa using erased), lookup_entry, lookup_entry, ih]
      by_cases same : other = head
      · subst same
        rw [if_pos rfl, if_neg erased, if_pos rfl]
      · rw [if_neg same, if_neg same]

theorem lookup_of_mem (distinct : (entries.map Prod.fst).Nodup) (member : (key, value) ∈ entries) :
    entries.lookup key = some value := by
  induction entries with
  | nil => cases member
  | cons entry rest ih =>
    obtain ⟨absent, distinct⟩ := List.nodup_cons.mp distinct
    rcases List.mem_cons.mp member with rfl | behind
    · exact List.lookup_cons_self
    · have different : key ≠ entry.1 := by
        intro same
        exact absent (List.mem_map.mpr ⟨(key, value), behind, same⟩)
      rw [lookup_entry, if_neg different]
      exact ih distinct behind

theorem isSome_lookup_iff :
    (entries.lookup key).isSome = true ↔ key ∈ entries.map Prod.fst := by
  induction entries with
  | nil => simp
  | cons entry rest ih =>
    rw [lookup_entry, List.map_cons, List.mem_cons, ← ih]
    by_cases same : key = entry.1 <;> simp [same]

/-- Of the entries with a key there is one, which is found under it. -/
theorem filter_key (distinct : (entries.map Prod.fst).Nodup) (key : String) :
    entries.filter (fun entry => entry.1 = key) = ((entries.lookup key).map (key, ·)).toList := by
  induction entries with
  | nil => rfl
  | cons entry rest ih =>
    obtain ⟨other, value⟩ := entry
    obtain ⟨absent, distinct⟩ := List.nodup_cons.mp distinct
    by_cases same : other = key
    · subst same
      have nothing : rest.filter (fun entry => entry.1 = other) = [] := by
        rw [List.filter_eq_nil_iff]
        intro entry member isKey
        exact absent (List.mem_map.mpr ⟨entry, member, of_decide_eq_true isKey⟩)
      rw [List.filter_cons_of_pos (by simp), nothing, List.lookup_cons_self]
      rfl
    · rw [List.filter_cons_of_neg (by simpa using same), ih distinct, lookup_entry,
        if_neg (Ne.symm same)]

end Marginalia.Ordered
