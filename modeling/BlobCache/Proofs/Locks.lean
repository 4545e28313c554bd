import BlobCache.Proofs.Changes

/-!
# Locks

A lock belongs to an open file, so the locks in force can be read off the table of open files
(`FileSystem.lockOf`). Two things are said of it here.

* `FileSystem.Lawful`: on each file, whether it still has a name or not, there are shared locks only
  or one exclusive lock alone. Every change keeps it (`Change.lawful`), because a lock that is added
  was granted.
* `handles_…`: whatever is done to files by their paths leaves the table as it is.
-/

namespace BlobCache

namespace Table

variable {κ α : Type} [DecidableEq κ]

/-- A new binding comes last. -/
theorem rows_set_of_unbound {t : Table κ α} {key : κ} (h : t.get? key = none) (value : α) :
    (t.set key value).rows = t.rows ++ [(key, value)] := by
  show (t.erase key).rows ++ _ = _
  rw [erase_of_unbound h]

/-- A change that changes nothing does nothing. -/
theorem modify_id (t : Table κ α) (key : κ) : t.modify key id = t := by
  refine eq_of_rows ((List.map_congr_left fun row _ => ?_).trans (List.map_id _))
  rw [id, ite_self]
  rfl

end Table

namespace FileSystem

variable {free : Freedom} {fs fs' : FileSystem} {path : Path}

/-! ## The lock of an open file -/

/-- The file that is open under a handle, and the lock that is held on it. -/
def lockOf (fs : FileSystem) (handle : HandleId) : Option (FileId × Lock) :=
  (fs.handles.get? handle).map fun file => (file.file, file.lock)

/-- An open file has the lock that it was opened with. -/
theorem lockOf_eq_some_iff {handle : HandleId} {id : FileId} {lock : Lock} :
    fs.lockOf handle = some (id, lock) ↔
      ∃ file, fs.handles.get? handle = some file ∧ file.file = id ∧ file.lock = lock := by
  unfold lockOf
  simp only [Option.map_eq_some_iff, Prod.mk.injEq]

/-- What is not open has no lock. -/
theorem lockOf_eq_none_iff {handle : HandleId} :
    fs.lockOf handle = none ↔ fs.handles.get? handle = none := Option.map_eq_none_iff

/-- Locks depend on the open files only. -/
theorem lockOf_congr (h : fs'.handles = fs.handles) (handle : HandleId) :
    fs'.lockOf handle = fs.lockOf handle := by
  unfold lockOf
  rw [h]

/-- A file that is opened has its lock, and all others have theirs. -/
theorem lockOf_set {files : Table HandleId OpenFile} {new : HandleId} {file : OpenFile}
    (h : fs'.handles = files.set new file) (hfiles : fs.handles = files) (handle : HandleId) :
    fs'.lockOf handle = if handle = new then some (file.file, file.lock) else fs.lockOf handle := by
  unfold lockOf
  rw [h, hfiles, Table.get?_set]
  split <;> rfl

/-- A file that is closed has no lock any more, and all others have theirs. -/
theorem lockOf_close (fs : FileSystem) (closed handle : HandleId) :
    (fs.close closed).lockOf handle = if closed = handle then none else fs.lockOf handle := by
  unfold lockOf close
  rw [Table.get?_erase]
  by_cases h : handle = closed
  · rw [if_pos h, if_pos h.symm]
    rfl
  · rw [if_neg h, if_neg (Ne.symm h)]

/-- A change of an open file that leaves alone what is locked and how. -/
def KeepsLock (change : OpenFile → OpenFile) : Prop :=
  ∀ file, (change file).file = file.file ∧ (change file).lock = file.lock

/-- What is done with an open file leaves its lock. -/
theorem lockOf_modify {files : Table HandleId OpenFile} {used : HandleId}
    {change : OpenFile → OpenFile}
    (hchange : KeepsLock change)
    (h : fs'.handles = files.modify used change) (hfiles : fs.handles = files)
    (handle : HandleId) : fs'.lockOf handle = fs.lockOf handle := by
  unfold lockOf
  rw [h, hfiles, Table.get?_modify]
  split
  · simp only [Option.map_map, Function.comp_def, (hchange _).1, (hchange _).2]
  · rfl

/-! ## The locks on a file -/

/-- On each file there are shared locks only, or one exclusive lock alone. -/
def Lawful (fs : FileSystem) : Prop :=
  ∀ id, (∀ lock ∈ fs.locksOn id, lock = .shared) ∨ fs.locksOn id = [.exclusive]

/-- At the start no locks are in force. -/
theorem lawful_initial (name : Bytes) : (initial name).Lawful :=
  fun _ => Or.inl fun _ hmem => by cases hmem

/-- To open a file adds its lock to those in force. -/
theorem locksOn_addHandle (hfree : fs.handles.get? fs.next = none) (file : OpenFile) (id : FileId) :
    (fs.addHandle file).2.locksOn id =
      fs.locksOn id ++ if file.file = id then [file.lock] else [] := by
  unfold locksOn addHandle
  rw [Table.rows_set_of_unbound hfree, List.filterMap_append]
  by_cases h : file.file = id <;> simp [h]

/-- What is done with an open file leaves the locks in force. -/
theorem locksOn_modifyHandle (handle : HandleId) {change : OpenFile → OpenFile}
    (hchange : KeepsLock change)
    (id : FileId) : (fs.modifyHandle handle change).locksOn id = fs.locksOn id := by
  unfold locksOn modifyHandle Table.modify
  rw [List.filterMap_map]
  refine List.filterMap_congr fun row _ => ?_
  simp only [Function.comp_apply]
  split
  · simp only [(hchange _).1, (hchange _).2]
  · rfl

/-- A change takes locks away, or it adds one that was granted. -/
theorem Change.locksOn_cases (h : Change free fs fs') (hwf : fs.WellFormed) (id : FileId) :
    (fs'.locksOn id).Sublist (fs.locksOn id) ∨
      ∃ lock, fs.lockable id lock = true ∧ fs'.locksOn id = fs.locksOn id ++ [lock] := by
  have hsame : ∀ locks, locks = fs.locksOn id → locks.Sublist (fs.locksOn id) ∨
      ∃ lock, fs.lockable id lock = true ∧ locks = fs.locksOn id ++ [lock] :=
    fun _ h => Or.inl (h ▸ List.Sublist.refl _)
  cases h with
  | @openFile place opened lock path hget hlock =>
      have hlocks : (fs.addHandle (fs.opened path lock opened)).2.locksOn id =
          fs.locksOn id ++ if opened = id then [lock] else [] :=
        locksOn_addHandle hwf.handles_next _ id
      rw [hlocks]
      by_cases hid : opened = id
      · exact Or.inr ⟨lock, hid ▸ hlock, by rw [if_pos hid]⟩
      · exact hsame _ (by rw [if_neg hid, List.append_nil])
  | @create directory name path hfree hname hlength =>
      -- the handle comes after the identity of the new file
      have hunused : fs.handles.get? (fs.next + 1) = none := by
        rcases hget : fs.handles.get? (fs.next + 1) with _ | file
        · rfl
        · exact absurd (hwf.handle_lt _ _ hget) (Nat.not_lt.mpr (Nat.le_succ _))
      have hlocks : (fs.drafting path (directory.child name) [] 0).locksOn id =
          fs.locksOn id ++ if fs.next = id then [Lock.exclusive] else [] := by
        rw [drafting_eq_addHandle]
        exact locksOn_addHandle hunused _ id
      rw [hlocks]
      by_cases hid : fs.next = id
      · rw [if_pos hid, ← hid, hwf.locksOn_next]
        exact Or.inr ⟨.exclusive, by rw [lockable, hwf.locksOn_next]; rfl, rfl⟩
      · exact hsame _ (by rw [if_neg hid, List.append_nil])
  | map hhandle hget length =>
      refine hsame _ (locksOn_modifyHandle _ ?_ id)
      exact fun _ => ⟨rfl, rfl⟩
  | advance hhandle count =>
      refine hsame _ (locksOn_modifyHandle _ ?_ id)
      exact fun _ => ⟨rfl, rfl⟩
  | close hhandle => exact Or.inl (List.filter_sublist.filterMap _)
  | _ => exact hsame _ rfl

/-- Who asks for a lock that is not granted gets none, so the locks on a file agree. -/
theorem Change.lawful (h : Change free fs fs') (hwf : fs.WellFormed) (hlawful : fs.Lawful) :
    fs'.Lawful := by
  intro id
  rcases h.locksOn_cases hwf id with hless | ⟨lock, hlock, hmore⟩
  · rcases hlawful id with hshared | halone
    · exact Or.inl fun lock hmem => hshared lock (hless.subset hmem)
    · rw [halone] at hless
      rcases List.sublist_singleton.mp hless with hnone | hsame
      · exact Or.inl fun lock hmem => by rw [hnone] at hmem; cases hmem
      · exact Or.inr hsame
  · rw [hmore]
    cases lock with
    | shared =>
        refine Or.inl fun other hmem => ?_
        rcases List.mem_append.mp hmem with hold | hnew
        · exact lockable_shared_iff.mp hlock other hold
        · exact List.mem_singleton.mp hnew
    | exclusive => exact Or.inr (by rw [lockable_exclusive_iff.mp hlock]; rfl)

/-- Changes keep locks lawful. -/
theorem Changes.lawful (h : fs.Changes free fs') (hwf : fs.WellFormed) (hlawful : fs.Lawful) :
    fs'.Lawful := by
  induction h with
  | refl => exact hlawful
  | tail hchanges hchange ih => exact hchange.lawful (Changes.wellFormed hchanges hwf) ih

/-! ## What leaves open files alone -/

/-- To unlink a path opens and closes nothing. -/
theorem handles_unlink {removed : FileSystem} (h : fs.unlink path = .ok removed) :
    removed.handles = fs.handles := by
  obtain ⟨parent, name, node, -, -, -, rfl⟩ := unlink_eq_ok_iff.mp h
  rfl

/-- Nor does removing an entry. -/
theorem handles_removeEntry (fs : FileSystem) (path : Path) :
    (fs.removeEntry path).2.handles = fs.handles := by
  unfold removeEntry
  rcases hunlink : fs.unlink path with cause | removed
  · rfl
  · exact handles_unlink hunlink

/-- Nor does making directories. -/
theorem handles_makeDirectories (fs : FileSystem) (path : Path) :
    (fs.makeDirectories path).2.handles = fs.handles :=
  makeDirectories_induction (P := fun fs' => fs'.handles = fs.handles) (fun _ _ h _ => h) rfl path

/-- Nor does setting times. -/
theorem handles_touch {time : Int} {touched : FileSystem} (h : fs.touch path time = .ok touched) :
    touched.handles = fs.handles := by
  unfold touch at h
  rcases hnode : fs.nodeAt path with cause | ⟨place, _ | _ | id⟩ <;> rw [hnode] at h <;> cases h <;>
    rfl

/-- Nor does emptying a file. -/
theorem handles_truncate (hlegible : fs.Legible) {id : FileId} {opened : FileSystem}
    (h : fs.truncate path = .ok (id, opened)) : opened.handles = fs.handles := by
  rcases truncate_cases hlegible h with ⟨place, -, -, rfl⟩ | ⟨parent, name, -, -, -, -, -, rfl⟩ <;>
    rfl

/-- Nor does writing at the end of a file. -/
theorem handles_append {data : Bytes} {written : FileSystem}
    (h : fs.append path data = .ok written) : written.handles = fs.handles := by
  unfold append at h
  rcases hfile : fs.fileAt path with cause | id <;> rw [hfile] at h <;> cases h
  rfl

/-- Nor does replacing a file. -/
theorem handles_replace (hlegible : fs.Legible) (path : Path) (bytes : Bytes)
    (time : Option Int) : (fs.replace path bytes time).2.handles = fs.handles := by
  have hcleared : ((fs.unlink path).toOption.getD fs).handles = fs.handles ∧
      ((fs.unlink path).toOption.getD fs).Legible := by
    rcases hunlink : fs.unlink path with cause | removed
    · exact ⟨rfl, hlegible⟩
    · have hchange : Change .full fs removed := unlink_changes trivial hunlink
      exact ⟨handles_unlink hunlink, hchange.legible hlegible⟩
  unfold replace
  generalize (fs.unlink path).toOption.getD fs = cleared at hcleared
  simp only
  rcases htruncate : cleared.truncate path with cause | ⟨id, opened⟩
  · exact hcleared.1
  · exact (handles_truncate hcleared.2 htruncate).trans hcleared.1

/-- Nor does damaging it. -/
theorem handles_damage (hlegible : fs.Legible) (path : Path) (index : Nat) (mask : UInt8) :
    (fs.damage path index mask).2.handles = fs.handles := by
  unfold damage
  rcases fs.fileAt path with cause | id
  · rfl
  · simp only
    split
    · exact handles_replace hlegible path _ _
    · rfl

/-- Nor does making a symbolic link. -/
theorem handles_makeLink {target : Path} {made : FileSystem}
    (h : fs.makeLink path target = .ok made) : made.handles = fs.handles := by
  unfold makeLink at h
  rcases hcheck : checkPath target with cause | ⟨⟩ <;> rw [hcheck] at h
  · cases h
  rcases hplace : fs.vacancy path (some .noEntry) with cause | place <;> rw [hplace] at h
  · cases h
  · cases h
    rfl

/-- Nor does giving a file another name. -/
theorem handles_addName {target : Path} {made : FileSystem}
    (h : fs.addName path target = .ok made) : made.handles = fs.handles := by
  obtain ⟨directory, name, other, node, -, -, -, -, rfl⟩ := addName_sound h
  rfl

/-- Nor does removing a tree. -/
theorem handles_removeTree (fs : FileSystem) (path : Path) :
    (fs.removeTree path).2.handles = fs.handles := by
  unfold removeTree
  rcases fs.ownNodeAt path with cause | ⟨place, _ | _ | id⟩
  · rfl
  · simp only
    rcases hremoved : (fs.clearBelow place).removeDirectory path with cause | removed
    · split
      · rename_i h
        cases h
      · rfl
      · rfl
    · obtain ⟨other, rfl⟩ := removeDirectory_sound hremoved
      rfl
  · rfl
  · rfl

/-- Whatever others do leaves the open files alone. -/
theorem handles_meddling (hlegible : fs.Legible) (change : Session.Meddling) :
    (change.apply fs).2.handles = fs.handles := by
  have hsettle : ∀ result : Except Cause FileSystem,
      (∀ changed, result = .ok changed → changed.handles = fs.handles) →
      (Session.settle fs result).2.handles = fs.handles := by
    intro result h
    rcases result with cause | changed
    · rfl
    · exact h changed rfl
  cases change with
  | makeDirectories path => exact handles_makeDirectories fs path
  | unlink path => exact hsettle _ fun _ => handles_unlink
  | removeTree path => exact handles_removeTree fs path
  | write path bytes time => exact handles_replace hlegible path bytes time
  | damage path index mask => exact handles_damage hlegible path index mask
  | makeLink path target => exact hsettle _ fun _ => handles_makeLink
  | addName path target => exact hsettle _ fun _ => handles_addName
  | touch path time => exact hsettle _ fun _ => handles_touch

end FileSystem

end BlobCache
