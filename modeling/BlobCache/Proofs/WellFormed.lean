import BlobCache.FileSystem.Handles
import BlobCache.Proofs.Names
import Mathlib.Data.List.Basic

/-!
# Well-formed file systems

Identities are drawn from one counter, so what is bound to an identity is always below the counter,
and a fresh identity has no name, no content and no handle yet. This is what keeps two files, or the
lock of one open file and that of another, from being confused. `FileSystem.WellFormed` states it,
together with what a file can be called.

The rest of the module is about tables and the number of names that a file has.
-/

namespace BlobCache

/-! ## More laws of tables -/

namespace Table

/-- A table is its rows. -/
theorem eq_of_rows {κ α : Type} {a b : Table κ α} (h : a.rows = b.rows) : a = b := by
  cases a
  cases b
  cases h
  rfl

variable {κ α : Type} [DecidableEq κ]

/-- The row of a key that is not bound is none of the table. -/
theorem key_ne_of_unbound {t : Table κ α} {key : κ} (h : t.get? key = none) {row : κ × α}
    (hrow : row ∈ t.rows) : row.1 ≠ key := by
  intro e
  have hget : t.get? row.1 = some row.2 := mem_rows_iff.mp hrow
  rw [e, h] at hget
  cases hget

/-- To erase a key that is not bound does nothing. -/
theorem erase_of_unbound {t : Table κ α} {key : κ} (h : t.get? key = none) : t.erase key = t := by
  refine eq_of_rows (List.filter_eq_self.mpr fun row hrow => ?_)
  simpa using key_ne_of_unbound h hrow

/-- A binding that was made and removed again leaves no trace. -/
theorem erase_set_of_unbound {t : Table κ α} {key : κ} (h : t.get? key = none) (value : α) :
    (t.set key value).erase key = t := by
  have hrows : (t.erase key).rows = t.rows := by rw [erase_of_unbound h]
  refine eq_of_rows ?_
  show List.filter _ ((t.erase key).rows ++ [(key, value)]) = t.rows
  rw [List.filter_append, hrows]
  have : (t.erase key).rows = t.rows := hrows
  simpa [erase, filter] using this

/-- To modify a binding that was just made is to make another one. -/
theorem modify_set_self {t : Table κ α} {key : κ} (value : α) (change : α → α) :
    (t.set key value).modify key change = t.set key (change value) := by
  refine eq_of_rows ?_
  show List.map _ ((t.erase key).rows ++ [(key, value)]) = (t.erase key).rows ++ _
  rw [List.map_append]
  congr 1
  · refine (List.map_congr_left fun row hrow => ?_).trans (List.map_id _)
    have hne : row.1 ≠ key := by simpa [erase, filter] using (List.mem_filter.mp hrow).2
    rw [if_neg hne]
    rfl
  · simp

/-- An erased key has no value, and all others have theirs. -/
theorem get?_erase (t : Table κ α) (key other : κ) :
    (t.erase key).get? other = if other = key then none else t.get? other := by
  by_cases h : other = key
  · rw [h, get?_erase_self, if_pos rfl]
  · rw [get?_erase_ne t h, if_neg h]

/-- A key that was set has its value, and all others have theirs. -/
theorem get?_set (t : Table κ α) (key other : κ) (value : α) :
    (t.set key value).get? other = if other = key then some value else t.get? other := by
  by_cases h : other = key
  · rw [h, get?_set_self, if_pos rfl]
  · rw [get?_set_ne t h, if_neg h]

end Table

namespace FileSystem

/-! ## The number of names -/

/-- To take a name away gives no file a further one. -/
theorem linkCount_unbind_le (fs : FileSystem) (location : Location) (node : Node) :
    (fs.unbind location).linkCount node ≤ fs.linkCount node :=
  List.Sublist.countP_le List.filter_sublist

/-- To bind a name gives its file one more name at most, and no other file any. -/
theorem linkCount_bind_le (fs : FileSystem) (location : Location) (new node : Node) :
    (fs.bind location new).linkCount node ≤
      fs.linkCount node + if new = node then 1 else 0 := by
  have h := linkCount_unbind_le fs location node
  unfold linkCount unbind at h
  unfold linkCount bind
  simp only [Table.set, List.countP_append, List.countP_singleton, decide_eq_true_eq]
  simp only at h
  omega

/-- Nothing but a node that stands somewhere has names. -/
theorem linkCount_eq_zero {fs : FileSystem} {node : Node}
    (h : ∀ location, fs.tree.get? location ≠ some node) : fs.linkCount node = 0 := by
  refine List.countP_eq_zero.mpr fun row hrow => ?_
  intro e
  have hnode : row.2 = node := by simpa using e
  exact h row.1 (hnode ▸ Table.mem_rows_iff.mp hrow)

/-! ## Locks -/

/-- A lock on a file is that of a handle on it. -/
theorem mem_locksOn {fs : FileSystem} {id : FileId} {lock : Lock} :
    lock ∈ fs.locksOn id ↔
      ∃ handle file, fs.handles.get? handle = some file ∧ file.file = id ∧ file.lock = lock := by
  unfold locksOn
  rw [List.mem_filterMap]
  constructor
  · rintro ⟨⟨handle, file⟩, hrow, h⟩
    split at h
    · rename_i hfile
      exact ⟨handle, file, Table.mem_rows_iff.mp hrow, hfile, Option.some.inj h⟩
    · cases h
  · rintro ⟨handle, file, hget, hfile, rfl⟩
    exact ⟨(handle, file), Table.mem_rows_iff.mpr hget, if_pos hfile⟩

/-! ## Contents -/

/-- To set times leaves contents as they are. -/
@[simp] theorem contents_setAccessTime (fs : FileSystem) (id other : FileId) (time : Int) :
    (fs.setAccessTime id time).contents other = fs.contents other := by
  unfold contents setAccessTime modifyFile
  rw [Table.get?_modify]
  by_cases h : other = id
  · rw [if_pos h, Option.map_map]
    rfl
  · rw [if_neg h]

/-! ## Well-formedness -/

/-- Every identity in use is one that was given out, and every file has a name that a path can
spell. -/
structure WellFormed (fs : FileSystem) : Prop where
  /-- A file with a name has an identity that was given out. -/
  file_lt : ∀ location id, fs.tree.get? location = some (.file id) → id < fs.next
  /-- So has every handle. -/
  handle_lt : ∀ handle file, fs.handles.get? handle = some file → handle < fs.next
  /-- So has the file that a handle keeps open. -/
  open_lt : ∀ handle file, fs.handles.get? handle = some file → file.file < fs.next
  /-- A file is called by one component of a path that is not too long. -/
  named : ∀ (directory : Location) name id, fs.tree.get? (directory.child name) = some (.file id) →
    Path.IsName name ∧ name.length ≤ nameLimit

namespace WellFormed

variable {fs : FileSystem}

/-- The next identity is not that of an open file. -/
theorem handles_next (h : fs.WellFormed) : fs.handles.get? fs.next = none := by
  cases hget : fs.handles.get? fs.next with
  | none => rfl
  | some file => exact absurd (h.handle_lt _ _ hget) (Nat.lt_irrefl _)

/-- The next identity is not that of a file with a name. -/
theorem ne_file_next (h : fs.WellFormed) (location : Location) :
    fs.tree.get? location ≠ some (.file fs.next) :=
  fun hget => Nat.lt_irrefl _ (h.file_lt _ _ hget)

/-- The next identity has no names. -/
theorem linkCount_next (h : fs.WellFormed) : fs.linkCount (.file fs.next) = 0 :=
  linkCount_eq_zero h.ne_file_next

/-- A file that was not made yet is not open. -/
theorem locksOn_next (h : fs.WellFormed) : fs.locksOn fs.next = [] := by
  unfold locksOn
  rw [List.filterMap_eq_nil_iff]
  intro row hrow
  have hlt := h.open_lt row.1 row.2 (Table.mem_rows_iff.mp hrow)
  exact if_neg (Nat.ne_of_lt hlt)

end WellFormed

/-- An empty working directory is well formed. -/
theorem wellFormed_initial (name : Bytes) : (initial name).WellFormed where
  file_lt location id h := by
    rw [initial, Table.get?_set] at h
    split at h <;> simp at h
  handle_lt handle file h := by cases h
  open_lt handle file h := by cases h
  named directory child id h := by
    rw [initial, Table.get?_set] at h
    split at h <;> simp at h

/-! ## Identities that come and go -/

/-- The file system after a handle was made and closed again: only its identity is used up. -/
def spent (fs : FileSystem) : FileSystem := { fs with next := fs.next + 1 }

/-- A file that was just opened and is closed again leaves no trace but its identity. -/
theorem close_addHandle {fs : FileSystem} (h : fs.WellFormed) (file : OpenFile) :
    (fs.addHandle file).2.close fs.next = fs.spent := by
  unfold addHandle close spent
  simp only [Table.erase_set_of_unbound h.handles_next]

/-- To give out an identity leaves contents as they are. -/
@[simp] theorem contents_spent (fs : FileSystem) (id : FileId) :
    fs.spent.contents id = fs.contents id := rfl

/-- To give out an identity keeps a file system well formed. -/
theorem WellFormed.spent {fs : FileSystem} (h : fs.WellFormed) : fs.spent.WellFormed where
  file_lt location id hget := Nat.lt_succ_of_lt (h.file_lt location id hget)
  handle_lt handle file hget := Nat.lt_succ_of_lt (h.handle_lt handle file hget)
  open_lt handle file hget := Nat.lt_succ_of_lt (h.open_lt handle file hget)
  named := h.named

end FileSystem

end BlobCache
