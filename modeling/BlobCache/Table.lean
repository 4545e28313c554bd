/-!
# Tables

A finite map kept as its rows in order of insertion. No key has two rows (`Table.nodup`), so a table
can be listed as well as looked up: `mem_rows_iff` says that the two views agree. Setting a key
moves its row to the end.

Each operation has its law through `get?`: `get?_set_self`, `get?_set_ne`, `get?_erase_self`,
`get?_erase_ne`.
-/

namespace BlobCache

/-- A finite map from `κ` to `α`. -/
structure Table (κ α : Type) where
  /-- The bindings, oldest first. -/
  rows : List (κ × α)
  /-- No key is bound twice. -/
  nodup : (rows.map Prod.fst).Nodup

namespace Table

variable {κ α : Type} [DecidableEq κ]

/-- The table without rows. -/
def empty : Table κ α := ⟨[], List.nodup_nil⟩

instance : Inhabited (Table κ α) := ⟨empty⟩

/-- What a key is bound to. -/
def get? (t : Table κ α) (key : κ) : Option α := (t.rows.find? fun row => row.1 = key).map Prod.snd

/-- Whether a key is bound. -/
def contains (t : Table κ α) (key : κ) : Bool := (t.get? key).isSome

/-- Keeps the rows that pass a test. -/
def filter (t : Table κ α) (keep : κ × α → Bool) : Table κ α :=
  ⟨t.rows.filter keep, t.nodup.sublist (List.filter_sublist.map Prod.fst)⟩

/-- Removes the row of a key. -/
def erase (t : Table κ α) (key : κ) : Table κ α := t.filter fun row => row.1 ≠ key

/-- Binds a key, in place of any older binding. -/
def set (t : Table κ α) (key : κ) (value : α) : Table κ α where
  rows := (t.erase key).rows ++ [(key, value)]
  nodup := by
    rw [List.map_append, List.nodup_append]
    refine ⟨(t.erase key).nodup, by simp, ?_⟩
    intro a ha b hb
    simp only [erase, filter, List.mem_map, List.mem_filter, decide_eq_true_eq] at ha
    obtain ⟨row, ⟨_, hne⟩, rfl⟩ := ha
    simp only [List.map_cons, List.map_nil, List.mem_singleton] at hb
    exact hb ▸ hne

/-- Changes what a key is bound to, if it is bound. -/
def modify (t : Table κ α) (key : κ) (change : α → α) : Table κ α where
  rows := t.rows.map fun row => (row.1, if row.1 = key then change row.2 else row.2)
  nodup := by simpa [List.map_map, Function.comp_def] using t.nodup

/-! ## Laws of look-up -/

/-- Where no key occurs twice, looking for a key finds the row with it. -/
theorem find?_eq_some_iff_of_nodup {rows : List (κ × α)} (h : (rows.map Prod.fst).Nodup)
    {key : κ} {value : α} :
    (rows.find? fun row => row.1 = key) = some (key, value) ↔ (key, value) ∈ rows := by
  induction rows with
  | nil => simp
  | cons row rest ih =>
    obtain ⟨k, v⟩ := row
    simp only [List.map_cons, List.nodup_cons, List.mem_map] at h
    by_cases hk : k = key
    · subst hk
      simp only [List.find?_cons, decide_true, Option.some.injEq, Prod.mk.injEq, true_and,
        List.mem_cons]
      constructor
      · exact fun hv => Or.inl hv.symm
      · rintro (hv | hmem)
        · exact hv.symm
        · exact absurd ⟨(k, value), hmem, rfl⟩ h.1
    · have hne : key ≠ k := fun e => hk e.symm
      simp [hk, hne, ih h.2]

/-- The rows are exactly the bindings that look-up finds. -/
theorem mem_rows_iff {t : Table κ α} {key : κ} {value : α} :
    (key, value) ∈ t.rows ↔ t.get? key = some value := by
  rw [← find?_eq_some_iff_of_nodup t.nodup]
  unfold get?
  cases hf : t.rows.find? fun row => row.1 = key with
  | none => simp
  | some row =>
    obtain ⟨k, v⟩ := row
    have hk := List.find?_some hf
    simp only [decide_eq_true_eq] at hk
    subst hk
    simp

/-- The empty table has no entries. -/
@[simp] theorem get?_empty (key : κ) : (empty : Table κ α).get? key = none := rfl

/-- Filtering keeps the value of a key if it keeps the row. -/
@[simp] theorem get?_filter (t : Table κ α) (keep : κ × α → Bool) (key : κ) :
    (t.filter keep).get? key = (t.get? key).filter fun value => keep (key, value) := by
  apply Option.ext
  intro value
  rw [← mem_rows_iff, Option.filter_eq_some_iff, ← mem_rows_iff]
  simp [filter]

/-- An erased key has no value. -/
@[simp] theorem get?_erase_self (t : Table κ α) (key : κ) : (t.erase key).get? key = none := by
  simp [erase]

/-- Erasing a key leaves all others as they are. -/
theorem get?_erase_ne (t : Table κ α) {key other : κ} (h : other ≠ key) :
    (t.erase key).get? other = t.get? other := by
  cases hv : t.get? other <;> simp [erase, h, hv]

/-- A key has the value that it was set to. -/
@[simp] theorem get?_set_self (t : Table κ α) (key : κ) (value : α) :
    (t.set key value).get? key = some value := by
  rw [← mem_rows_iff]
  simp [set]

/-- Setting a key leaves all others as they are. -/
theorem get?_set_ne (t : Table κ α) {key other : κ} (h : other ≠ key) (value : α) :
    (t.set key value).get? other = t.get? other := by
  apply Option.ext
  intro v
  rw [← mem_rows_iff, ← get?_erase_ne t h, ← mem_rows_iff]
  simp [set, h]

/-- Modifying a key changes its own value, if it has one, and no other. -/
@[simp] theorem get?_modify (t : Table κ α) (key other : κ) (change : α → α) :
    (t.modify key change).get? other =
      if other = key then (t.get? other).map change else t.get? other := by
  apply Option.ext
  intro v
  rw [← mem_rows_iff]
  simp only [modify, List.mem_map, Prod.mk.injEq]
  constructor
  · rintro ⟨⟨k, w⟩, hmem, rfl, rfl⟩
    rw [mem_rows_iff] at hmem
    by_cases hk : k = key
    · subst hk; simp [hmem]
    · simp [hk, hmem]
  · intro h
    by_cases hk : other = key
    · simp only [hk, if_true, Option.map_eq_some_iff] at h
      obtain ⟨w, hw, rfl⟩ := h
      exact ⟨(key, w), mem_rows_iff.mpr hw, hk.symm, by simp⟩
    · simp only [hk, if_false] at h
      exact ⟨(other, v), mem_rows_iff.mpr h, rfl, by simp [hk]⟩

end Table

end BlobCache
