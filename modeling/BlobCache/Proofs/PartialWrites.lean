import BlobCache.Proofs.Refusals
import BlobCache.Proofs.Storing

/-!
# Writing a new entry

A new entry is written in two parts, the blob and its checksum. Either write may be refused after
any number of its bytes have reached the file, and the second one always fails if the checksum has
no bytes. What has been written then is removed before the file is closed.

* `Faults.torn`: what is in the file when a write fails, and why it fails. It is nothing if and only
  if both writes go through (`torn_eq_none_iff`).
* `Cache.addEntry_torn`: an entry is added whole, or its name stands for nothing again.
* `Cache.addEntry_of_refused`: an entry whose file cannot be created is not written at all.
-/

namespace BlobCache

namespace Faults

/-- Refuses writes and nothing else. -/
def ofWrites (write : Nat → Option Nat) : Faults := { Faults.none with write := write }

/-- Both writes of an entry go through. -/
structure Spares (write : Nat → Option Nat) (digest : Digest) (blob : Bytes) : Prop where
  /-- The blob is written. -/
  first : write 0 = Option.none
  /-- The checksum is written. -/
  second : write 1 = Option.none
  /-- There is a checksum to write. -/
  sum_ne_nil : digest.of blob ≠ []

/-- What the file of an entry holds when the first write fails that does, and the cause. -/
def torn (write : Nat → Option Nat) (digest : Digest) (path : Path) (blob : Bytes) :
    Option (Bytes × StoreError) :=
  match write 0, write 1 with
  | some kept, _ => some (blob.take kept, refusal path)
  | Option.none, some kept => some (blob ++ (digest.of blob).take kept, refusal path)
  | Option.none, Option.none =>
    if digest.of blob = [] then some (blob, .emptyWrite path) else Option.none

variable {write : Nat → Option Nat} {digest : Digest} {path : Path} {blob : Bytes}

/-- An entry is not torn just if both writes go through. -/
theorem torn_eq_none_iff :
    torn write digest path blob = Option.none ↔ Spares write digest blob := by
  unfold torn
  constructor
  · intro h
    rcases hfirst : write 0 with _ | kept <;> rcases hsecond : write 1 with _ | kept' <;>
      rw [hfirst, hsecond] at h
    · exact ⟨hfirst, hsecond, fun hnil => by rw [if_pos hnil] at h; cases h⟩
    · cases h
    · cases h
    · cases h
  · rintro ⟨hfirst, hsecond, hsum⟩
    rw [hfirst, hsecond]
    exact if_neg hsum

end Faults

namespace Machine

section writing

variable (write : HandleId → Bytes → StateM Machine (Except StoreError Unit))

/-- Only writing is different: files are created as ever. -/
@[simp] theorem writing_create : (writing write).create = host.create := rfl

/-- They are removed as ever. -/
@[simp] theorem writing_remove : (writing write).remove = host.remove := rfl

/-- They are closed as ever. -/
@[simp] theorem writing_close : (writing write).close = host.close := rfl

/-- Events are reported as ever. -/
@[simp] theorem writing_report : (writing write).report = host.report := rfl

end writing

/-- How a host writes that refuses writes. -/
def tearing (write : Nat → Option Nat) :
    HandleId → Bytes → StateM Machine (Except StoreError Unit) :=
  (faultyHost (Faults.ofWrites write)).write

/-- A host that refuses nothing but writes is the machine with another way of writing. -/
theorem faultyHost_ofWrites (write : Nat → Option Nat) :
    faultyHost (Faults.ofWrites write) = writing (tearing write) := by
  have hnone : (faultyHost Faults.none).list = host.list := congrArg Host.list faultyHost_none
  have hlist : (faultyHost (Faults.ofWrites write)).list = host.list := hnone
  have hrest : { faultyHost (Faults.ofWrites write) with list := host.list } =
    writing (tearing write) := rfl
  rw [← hrest, ← hlist]

end Machine

namespace FileSystem

/-- The file system while a new file is open by some handle. -/
def draftingBy (fs : FileSystem) (place : Location) (content : Bytes) (file : OpenFile) :
    FileSystem :=
  { fs.storing place content with handles := fs.handles.set (fs.next + 1) file }

variable {fs : FileSystem} {path : Path} {place location : Location} {content : Bytes}
  {writes : Nat}

/-- A refused write puts some bytes behind those that are there, and the handle does not know. -/
theorem partialWrite_drafting (kept : Nat) (data : Bytes) :
    Faults.partialWrite kept (fs.next + 1) data (fs.drafting path place content writes) =
      (.error (Faults.refusal path),
        fs.draftingBy place (content ++ data.take kept) (fs.writer path content writes)) := by
  unfold Faults.partialWrite
  rw [get?_drafting]
  rcases Nat.eq_zero_or_pos kept with rfl | hpos
  · simp only [writer, Bool.not_true, Bool.or_false, decide_true, if_true, List.take_zero,
      List.append_nil]
    rfl
  · have hkept : kept ≠ 0 := Nat.ne_of_gt hpos
    simp only [writer, Bool.not_true, Bool.or_false, decide_eq_true_eq, hkept, if_false]
    unfold writeAt modifyFile drafting draftingBy storing planting spent
    simp only [Table.modify_set_self, splice_append, writer]

/-- Removing the name of a new file and closing it leaves a file that has none. -/
theorem discard_drafting (hwf : fs.WellFormed) (hlead : fs.Leads path location) {name : Bytes}
    (hname : Path.IsName name) (hfit : Fits path name)
    (hfree : fs.tree.get? (location.child name) = none) (file : OpenFile) :
    (fs.draftingBy (location.child name) content file).removeEntry (Path.join path name) =
        (.ok (), (fs.draftingBy (location.child name) content file).unbind (location.child name)) ∧
      ((fs.draftingBy (location.child name) content file).unbind (location.child name)).close
          (fs.next + 1) =
        (fs.storing (location.child name) content).unbind (location.child name) := by
  have hlead' : (fs.draftingBy (location.child name) content file).Leads path location :=
    (hlead.storing hfree content).mono rfl fun _ _ hget _ => hget
  have hunbound : fs.handles.get? (fs.next + 1) = none := by
    cases hget : fs.handles.get? (fs.next + 1) with
    | none => rfl
    | some other => exact absurd (hwf.handle_lt _ _ hget) (Nat.not_lt.mpr (Nat.le_succ _))
  refine ⟨removeEntry_join hlead' hname hfit (Table.get?_set_self _ _ _), ?_⟩
  unfold draftingBy unbind close storing planting spent
  simp only [Table.erase_set_of_unbound hunbound]

end FileSystem

namespace Cache

variable {write : Nat → Option Nat} {digest : Digest} {location : Location} {path : Path}
  {m : Machine} {key : Key} {blob : Bytes}

/-! ## Writing an entry -/

/-- A write to a new file puts its bytes behind those that are there, or the first of them. -/
theorem tearing_drafting (place : Location) (content data : Bytes) (writes : Nat) :
    Machine.tearing write (m.fs.next + 1) data
        (m.withFiles (m.fs.drafting path place content writes)) =
      match write writes with
      | none =>
        (((m.fs.drafting path place content writes).writeEntry (m.fs.next + 1) data).1,
          m.withFiles ((m.fs.drafting path place content writes).writeEntry (m.fs.next + 1) data).2)
      | some kept =>
        (.error (Faults.refusal path), m.withFiles (m.fs.draftingBy place
          (content ++ data.take kept) (m.fs.writer path content writes))) := by
  let drafted := m.withFiles (m.fs.drafting path place content writes)
  have hasked : Machine.askFiles
      (fun fs => ((fs.handles.get? (m.fs.next + 1)).map (·.writes)).getD 0) drafted =
        (writes, drafted) := by
    simp only [Machine.askFiles, drafted, Machine.fs_withFiles, FileSystem.get?_drafting]
    rfl
  have hofWrites : (Faults.ofWrites write).write = write := rfl
  unfold Machine.tearing Machine.faultyHost
  simp only [Machine.run_bind]
  rw [hasked, hofWrites]
  rcases write writes with _ | kept
  · rfl
  · have hpartial : Faults.partialWrite kept _ data (m.fs.drafting path place content writes) = _ :=
      FileSystem.partialWrite_drafting kept data
    show ((Faults.partialWrite _ _ _ _).1, drafted.withFiles (Faults.partialWrite _ _ _ _).2) = _
    rw [Machine.fs_withFiles, hpartial]
    rfl

/-- What is in the file when the parts of an entry have been written. -/
theorem writeEntry_torn (hne : blob ≠ []) (place : Location) :
    ∃ file, writeEntry (Machine.writing (Machine.tearing write)) digest (m.fs.next + 1) blob
        (m.withFiles (m.fs.drafting path place [] 0)) =
      match Faults.torn write digest path blob with
      | some (part, error) => (.error error, m.withFiles (m.fs.draftingBy place part file))
      | none =>
        (.ok (), m.withFiles (m.fs.drafting path place (Entry.encode digest blob) 2)) := by
  have hwrite : (Machine.writing (Machine.tearing write)).write = Machine.tearing write := rfl
  unfold writeEntry Faults.torn
  rw [Machine.run_bind, hwrite, tearing_drafting]
  rcases hzero : write 0 with _ | kept
  · simp only [FileSystem.writeEntry_drafting hne, List.nil_append]
    rw [tearing_drafting]
    rcases hone : write 1 with _ | kept
    · by_cases hsum : digest.of blob = []
      · simp only [hsum, FileSystem.writeEntry_drafting_nil]
        exact ⟨_, rfl⟩
      · simp only [if_neg hsum, FileSystem.writeEntry_drafting hsum]
        exact ⟨m.fs.writer path blob 0, rfl⟩
    · exact ⟨_, rfl⟩
  · exact ⟨_, rfl⟩

/-- An entry is added whole, or a write fails, and then its name is free again. -/
theorem addEntry_torn (hwf : m.fs.WellFormed) (hlead : m.fs.Leads path location)
    (hname : key.IsName) (hne : blob ≠ []) (hfit : FileSystem.Fits path key.fileName)
    (hfree : m.fs.tree.get? (location.child key.fileName) = none) (size : Nat) :
    addEntry (Machine.writing (Machine.tearing write)) digest path size key blob m =
      match Faults.torn write digest (entryPath path key) blob with
      | some (part, error) =>
        (.failed, (m.withFiles ((m.fs.storing (location.child key.fileName) part).unbind
          (location.child key.fileName))).noting (.notWritten key error))
      | none =>
        (.stored (blob.length + digest.size),
          (m.withFiles (m.fs.storing (location.child key.fileName)
            (Entry.encode digest blob))).noting
              (.stored key blob.length (size + (blob.length + digest.size)))) := by
  have hcreate : (Machine.writing (Machine.tearing write)).create (entryPath path key) m =
      (.ok (m.fs.next + 1),
        m.withFiles (m.fs.drafting (entryPath path key) (location.child key.fileName) [] 0)) := by
    have hunder : m.fs.under path location key.fileName = .ok none :=
      FileSystem.under_eq_ok_iff.mpr ⟨hfit, hfree⟩
    have hmade := FileSystem.createEntry_join hlead hname
    rw [hunder] at hmade
    show ((m.fs.createEntry _).1, m.withFiles (m.fs.createEntry _).2) = _
    rw [entryPath, hmade]
  obtain ⟨file, hwritten⟩ : ∃ file, writeEntry (Machine.writing (Machine.tearing write)) digest _ _
      (m.withFiles (m.fs.drafting (entryPath path key) _ [] 0)) = _ :=
    writeEntry_torn hne (location.child key.fileName)
  unfold addEntry
  rw [Machine.run_bind, hcreate]
  simp only [Machine.run_bind, hwritten]
  rcases Faults.torn write digest (entryPath path key) blob with _ | ⟨part, error⟩
  · simp only [Machine.run_bind, Machine.writing_report, Machine.writing_close,
      Machine.host_report, Machine.host_close, Machine.fs_noting, Machine.fs_withFiles,
      FileSystem.close_drafting hwf, Machine.withFiles_noting, Machine.withFiles_withFiles]
    rfl
  · obtain ⟨hremove, hclose⟩ : _ ∧ ((m.fs.draftingBy _ part file).unbind _).close _ = _ :=
      FileSystem.discard_drafting hwf hlead hname hfit hfree file
    simp only [Machine.run_bind, Machine.writing_report, Machine.writing_remove,
      Machine.writing_close, Machine.host_report, Machine.host_remove, Machine.host_close,
      Machine.fs_noting, Machine.fs_withFiles, entryPath, hremove, hclose,
      Machine.withFiles_noting, Machine.withFiles_withFiles]
    rfl

/-- An entry whose file cannot be created is not written at all, however the host writes. -/
theorem addEntry_of_refused (write : HandleId → Bytes → StateM Machine (Except StoreError Unit))
    {error : StoreError} (hmade : (m.fs.createEntry (entryPath path key)).1 = .error error)
    (size : Nat) :
    addEntry (Machine.writing write) digest path size key blob m =
      (outcomeOfRefusal error, m.noting (.notCreated key error)) := by
  have hcreate : (Machine.writing write).create (entryPath path key) m = (.error error, m) := by
    show ((m.fs.createEntry _).1, m.withFiles (m.fs.createEntry _).2) = _
    rw [hmade, FileSystem.createEntry_of_error hmade, Machine.withFiles_self]
  unfold addEntry
  rw [Machine.run_bind, hcreate]
  rfl

end Cache

end BlobCache
