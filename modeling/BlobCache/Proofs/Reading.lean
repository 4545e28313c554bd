import BlobCache.Cache.Access
import BlobCache.Machine.Basic
import BlobCache.Proofs.Directories
import BlobCache.Proofs.WellFormed

/-!
# Reading entries

What the cache finds when it opens and checks an entry is a matter of the file system alone. The
operations on a machine are brought into that form here.

* `FileSystem.granted`: the file that opening an entry under a lock gives, or why it is refused;
  `openEntry_eq` says that opening is admitting and making a handle.
* `Entry.check`: the verdict on the content of an entry. A content passes if and only if it is not
  empty and is a blob with its checksum (`Entry.check_eq_ok_iff`), and it is found damaged only if
  it is no such thing (`Entry.not_sealed_of_isCorrupt`).
* `Cache.readEntry_eq` and `Cache.get_eq`: reading and looking up on the machine.
-/

namespace BlobCache

/-! ## Steps of a machine -/

namespace Machine

variable {α β : Type}

/-- A program runs its parts one after the other. -/
@[simp] theorem run_bind (x : StateM Machine α) (f : α → StateM Machine β) (m : Machine) :
    (x >>= f) m = f (x m).1 (x m).2 := rfl

/-- To return a result leaves the machine as it is. -/
@[simp] theorem run_pure (a : α) (m : Machine) : (pure a : StateM Machine α) m = (a, m) := rfl

/-- The answer of a program can be changed without its machine. -/
@[simp] theorem run_map (f : α → β) (x : StateM Machine α) (m : Machine) :
    (f <$> x) m = (f (x m).1, (x m).2) := rfl

/-- The machine with other files. -/
def withFiles (m : Machine) (fs : FileSystem) : Machine := { m with fs := fs }

/-- The machine after an event was reported. -/
def noting (m : Machine) (event : Event) : Machine := { m with log := m.log ++ [event] }

/-- A machine with these files has them. -/
@[simp] theorem fs_withFiles (m : Machine) (fs : FileSystem) : (m.withFiles fs).fs = fs := rfl

/-- An event changes no file. -/
@[simp] theorem fs_noting (m : Machine) (event : Event) : (m.noting event).fs = m.fs := rfl

/-- An event is put at the end of the log. -/
@[simp] theorem log_noting (m : Machine) (event : Event) :
    (m.noting event).log = m.log ++ [event] := rfl

/-- A machine has its own files. -/
@[simp] theorem withFiles_self (m : Machine) : m.withFiles m.fs = m := rfl

/-- Of two replacements of the files the second one counts. -/
@[simp] theorem withFiles_withFiles (m : Machine) (fs fs' : FileSystem) :
    (m.withFiles fs).withFiles fs' = m.withFiles fs' := rfl

/-- It does not matter whether an event is noted first or files are replaced. -/
@[simp] theorem withFiles_noting (m : Machine) (fs : FileSystem) (event : Event) :
    (m.noting event).withFiles fs = (m.withFiles fs).noting event := rfl

/-- To report an event puts it at the end of the log. -/
@[simp] theorem host_report (event : Event) (m : Machine) :
    host.report event m = ((), m.noting event) := rfl

/-- To close a file closes it in the file system. -/
@[simp] theorem host_close (handle : HandleId) (m : Machine) :
    host.close handle m = ((), m.withFiles (m.fs.close handle)) := rfl

/-- To remove a path removes it in the file system. -/
@[simp] theorem host_remove (path : Path) (m : Machine) :
    host.remove path m = ((m.fs.removeEntry path).1, m.withFiles (m.fs.removeEntry path).2) := rfl

/-- To list a directory changes nothing. -/
@[simp] theorem host_list (path : Path) (m : Machine) :
    host.list path m = (m.fs.listEntries path, m) := rfl

/-- To ask for a size changes nothing. -/
@[simp] theorem host_size (handle : HandleId) (m : Machine) :
    host.size handle m = (((m.fs.handles.get? handle).map (·.size)).getD 0, m) := rfl

end Machine

namespace FileSystem

/-! ## Admission -/

/-- The file that opening an entry under a lock gives, or why it is refused. -/
def granted (fs : FileSystem) (path : Path) (lock : Lock) : Except StoreError FileId :=
  match fs.openNode path with
  | .error cause => .error (.io path cause)
  | .ok (.file id) =>
    if 1 < fs.linkCount (.file id) then .error (.notSingle path)
    else if fs.lockable id lock then .ok id
    else .error (.locked path (.system .wouldBlock))
  | .ok _ => .error (.notSingle path)

/-- The handle on an entry that was opened. -/
def opened (fs : FileSystem) (path : Path) (lock : Lock) (id : FileId) : OpenFile :=
  ⟨id, path, false, (fs.contents id).length, none, lock, 0⟩

/-- A file is opened just if it can be locked. -/
theorem openEntry_eq (fs : FileSystem) (path : Path) (lock : Lock) :
    fs.openEntry path lock =
      match fs.granted path lock with
      | .error error => (.error error, fs)
      | .ok id => (.ok fs.next, (fs.addHandle (fs.opened path lock id)).2) := by
  unfold openEntry granted
  rcases fs.openNode path with cause | _ | _ | id
  · rfl
  · rfl
  · rfl
  · simp only
    by_cases hlinks : 1 < fs.linkCount (.file id)
    · rw [if_pos hlinks, if_pos hlinks]
    · rw [if_neg hlinks, if_neg hlinks]
      by_cases hlock : fs.lockable id lock = true
      · rw [if_pos hlock, if_pos hlock]
        rfl
      · rw [if_neg hlock, if_neg hlock]

section admission

variable {fs : FileSystem} {path : Path} {location : Location} {name : Bytes}

/-- An entry is admitted if it is one file with one name and the lock is granted. -/
theorem granted_eq_ok_iff (h : fs.Leads path location) (hn : Path.IsName name) {lock : Lock}
    {id : FileId} :
    fs.granted (Path.join path name) lock = .ok id ↔
      Fits path name ∧ fs.tree.get? (location.child name) = some (.file id) ∧
        fs.linkCount (.file id) ≤ 1 ∧ fs.lockable id lock = true := by
  unfold granted
  rw [openNode_join h hn, under]
  by_cases hfit : Fits path name
  · rw [if_pos hfit]
    rcases hget : fs.tree.get? (location.child name) with _ | _ | _ | other
    · simp
    · simp
    · simp
    · by_cases hlinks : 1 < fs.linkCount (.file other)
      · simp only [if_pos hlinks, Option.some.injEq, Node.file.injEq]
        constructor
        · intro e
          cases e
        · rintro ⟨-, rfl, hle, -⟩
          omega
      · by_cases hlock : fs.lockable other lock = true
        · simp only [if_neg hlinks, if_pos hlock, Except.ok.injEq, Option.some.injEq,
            Node.file.injEq]
          constructor
          · rintro rfl
            exact ⟨hfit, rfl, by omega, hlock⟩
          · exact fun h => h.2.1
        · simp only [if_neg hlinks, if_neg hlock, Option.some.injEq, Node.file.injEq]
          constructor
          · intro e
            cases e
          · rintro ⟨-, rfl, -, hlock'⟩
            exact absurd hlock' hlock
  · simp [hfit]

/-- A file with one name and no locks is admitted under either lock. -/
theorem granted_of_unlocked (h : fs.Leads path location) (hn : Path.IsName name)
    (hfit : Fits path name) {id : FileId}
    (hget : fs.tree.get? (location.child name) = some (.file id))
    (hsingle : fs.linkCount (.file id) ≤ 1) (hlocks : fs.locksOn id = []) (lock : Lock) :
    fs.granted (Path.join path name) lock = .ok id := by
  refine (granted_eq_ok_iff h hn).mpr ⟨hfit, hget, hsingle, ?_⟩
  rw [lockable, hlocks]
  rfl

/-- Refusing to open an entry does not call it damaged. -/
theorem not_isCorrupt_of_granted {lock : Lock} {error : StoreError}
    (h : fs.granted path lock = .error error) : error.isCorrupt = false := by
  unfold granted at h
  rcases hopen : fs.openNode path with cause | _ | _ | id <;> rw [hopen] at h
  · cases h
    rfl
  · cases h
    rfl
  · cases h
    rfl
  · simp only at h
    split at h
    · cases h
      rfl
    · split at h
      · cases h
      · cases h
        rfl

/-- A file of the directory can be removed. -/
theorem removeEntry_join (h : fs.Leads path location) (hn : Path.IsName name)
    (hfit : Fits path name) {id : FileId}
    (hget : fs.tree.get? (location.child name) = some (.file id)) :
    fs.removeEntry (Path.join path name) = (.ok (), fs.unbind (location.child name)) := by
  unfold removeEntry
  rw [unlink_join h hn, under, if_pos hfit, hget]

/-- A path leads where it led after an identity was given out. -/
theorem Leads.spent (h : fs.Leads path location) : fs.spent.Leads path location :=
  h.mono rfl fun _ _ hget _ => hget

end admission

/-- The file system while an entry is held open for reading, with its content mapped. -/
def holding (fs : FileSystem) (path : Path) (id : FileId) : FileSystem :=
  { fs with
    handles := fs.handles.set fs.next
      { fs.opened path .shared id with mapped := some (fs.contents id).length }
    next := fs.next + 1 }

/-- The view of a whole file is its content. -/
theorem mappedView_full (fs : FileSystem) (id : FileId) :
    fs.mappedView id (fs.contents id).length = fs.contents id := by
  unfold mappedView
  simp

section opening

variable (fs : FileSystem) (path : Path) (id : FileId)

/-- A file that was just opened is open. -/
theorem get?_addHandle (file : OpenFile) :
    (fs.addHandle file).2.handles.get? fs.next = some file := Table.get?_set_self _ _ _

/-- Mapping an entry that was just opened gives its content. -/
theorem mapEntry_addHandle :
    (fs.addHandle (fs.opened path .shared id)).2.mapEntry fs.next =
      (.ok (fs.contents id), fs.holding path id) := by
  have hmapped : ((fs.addHandle (fs.opened path .shared id)).2.modifyHandle fs.next
      fun file => { file with mapped := some (fs.contents id).length }) = fs.holding path id := by
    unfold modifyHandle addHandle holding
    simp only [Table.modify_set_self]
  have hmap : (fs.addHandle (fs.opened path .shared id)).2.mapEntry fs.next =
      (.ok ((fs.holding path id).mappedView id (fs.contents id).length), fs.holding path id) := by
    rw [← hmapped]
    unfold mapEntry
    rw [get?_addHandle]
    rfl
  rw [hmap]
  exact congrArg (fun view => (Except.ok view, _)) (mappedView_full (fs.holding path id) id)

/-- To open a file and to close it again gives out an identity. -/
theorem close_holding {fs : FileSystem} (h : fs.WellFormed) :
    (fs.holding path id).close fs.next = fs.spent := by
  unfold holding close spent
  simp only [Table.erase_set_of_unbound h.handles_next]

end opening

end FileSystem

/-! ## The verdict on a content -/

namespace Entry

/-- The content is a blob with its checksum. -/
def Sealed (digest : Digest) (content : Bytes) : Prop := ∃ blob, content = encode digest blob

/-- Different blobs have different entries. -/
theorem encode_inj {digest : Digest} (hsized : digest.Sized) {a b : Bytes} :
    encode digest a = encode digest b ↔ a = b := by
  constructor
  · intro h
    have hlen : (digest.of a).length = (digest.of b).length :=
      (hsized [a]).trans (hsized [b]).symm
    exact (List.append_inj' h hlen).1
  · rintro rfl
    rfl

/-- An entry is split into the blob and its checksum. -/
theorem splitAt_encode {digest : Digest} (hsized : digest.Sized) (blob : Bytes) :
    splitAt digest (encode digest blob) = (blob, digest.of blob) := by
  have hlen : (digest.of blob).length = digest.size := hsized [blob]
  unfold splitAt encode
  simp [hlen]

/-- An entry takes its blob and a checksum. -/
theorem length_encode {digest : Digest} (hsized : digest.Sized) (blob : Bytes) :
    (encode digest blob).length = blob.length + digest.size := by
  rw [encode, List.length_append]
  exact congrArg _ (hsized [blob])

/-- What a content is split into makes up the content. -/
theorem append_splitAt (digest : Digest) (content : Bytes) :
    (splitAt digest content).1 ++ (splitAt digest content).2 = content :=
  List.take_append_drop _ _

/-- What checking an entry with this content finds: the length of the blob or what is wrong. -/
def check (digest : Digest) (path : Path) (content : Bytes) : Except StoreError Nat :=
  if content.length = 0 then .error (.emptyEntry path)
  else if content.length < digest.size then .error (.truncated path content.length)
  else if digest.of (splitAt digest content).1 = (splitAt digest content).2 then
    .ok (splitAt digest content).1.length
  else .error (.checksumMismatch path (Hex.encode (splitAt digest content).2)
    (Hex.encode (digest.of (splitAt digest content).1)))

/-- What passes is a blob with its checksum, and it passes whatever its path is. -/
theorem eq_encode_of_check {digest : Digest} {path : Path} {content : Bytes} {length : Nat}
    (h : check digest path content = .ok length) :
    content = encode digest (content.take length) ∧ (content.take length).length = length ∧
      ∀ other, check digest other content = .ok length := by
  unfold check at h ⊢
  split at h
  · cases h
  · rename_i hempty
    split at h
    · cases h
    · rename_i hshort
      split at h
      · rename_i hsum
        have hlength := Except.ok.inj h
        have htake : content.take length = (splitAt digest content).1 := by
          rw [← hlength]
          unfold splitAt
          simp
        rw [htake]
        refine ⟨?_, hlength, fun other => ?_⟩
        · rw [encode, hsum, append_splitAt]
        · rw [if_neg hempty, if_neg hshort, if_pos hsum, hlength]
      · cases h

/-- A content passes if and only if it is a blob with its checksum and not empty. -/
theorem check_eq_ok_iff {digest : Digest} (hsized : digest.Sized) {path : Path} {content : Bytes}
    {length : Nat} :
    check digest path content = .ok length ↔
      content ≠ [] ∧ ∃ blob, content = encode digest blob ∧ length = blob.length := by
  unfold check
  by_cases hempty : content.length = 0
  · simp [List.length_eq_zero_iff.mp hempty]
  · have hne : content ≠ [] := fun e => hempty (by rw [e, List.length_nil])
    rw [if_neg hempty]
    constructor
    · intro h
      split at h
      · cases h
      · by_cases hsum : digest.of (splitAt digest content).1 = (splitAt digest content).2
        · rw [if_pos hsum] at h
          refine ⟨hne, (splitAt digest content).1, ?_, (Except.ok.inj h).symm⟩
          rw [encode, hsum, append_splitAt]
        · rw [if_neg hsum] at h
          cases h
    · rintro ⟨-, blob, rfl, rfl⟩
      have hlen : ¬(encode digest blob).length < digest.size := by
        have : (digest.of blob).length = digest.size := hsized [blob]
        simp [encode, this]
      rw [if_neg hlen, splitAt_encode hsized, if_pos rfl]

/-- What is found damaged is no blob with its checksum. -/
theorem not_sealed_of_isCorrupt {digest : Digest} (hsized : digest.Sized) {path : Path}
    {content : Bytes} {error : StoreError} (h : check digest path content = .error error)
    (hcorrupt : error.isCorrupt = true) : ¬Sealed digest content := by
  rintro ⟨blob, hblob⟩
  by_cases hne : content = []
  · rw [hne, check] at h
    simp only [List.length_nil, if_true, Except.error.injEq] at h
    rw [← h] at hcorrupt
    cases hcorrupt
  · have hok : check digest path content = .ok blob.length :=
      (check_eq_ok_iff hsized).mpr ⟨hne, blob, hblob, rfl⟩
    rw [h] at hok
    cases hok

end Entry

namespace Cache

variable {m : Machine} {path : Path} {location : Location}

/-! ## Reading and looking up on a machine -/

/-- Reading an entry leaves it open if it passes, and uses up an identity if it does not. -/
theorem readEntry_eq (hwf : m.fs.WellFormed) (digest : Digest) (path : Path) :
    readEntry Machine.host digest path m =
      match m.fs.granted path .shared with
      | .error error => (.error error, m)
      | .ok id =>
        match Entry.check digest path (m.fs.contents id) with
        | .error error => (.error error, m.withFiles m.fs.spent)
        | .ok length => (.ok (.mapped m.fs.next length), m.withFiles (m.fs.holding path id)) := by
  have hopen : Machine.host.openShared path m =
      ((m.fs.openEntry path .shared).1, m.withFiles (m.fs.openEntry path .shared).2) := rfl
  unfold readEntry
  rw [Machine.run_bind, hopen, FileSystem.openEntry_eq]
  rcases hgranted : m.fs.granted path .shared with error | id
  · rfl
  · have hhandle := FileSystem.get?_addHandle m.fs (m.fs.opened path .shared id)
    have hclose := FileSystem.close_addHandle hwf (m.fs.opened path .shared id)
    have hmap : Machine.host.map m.fs.next
          (m.withFiles (m.fs.addHandle (m.fs.opened path .shared id)).2) =
        (.ok (m.fs.contents id), m.withFiles (m.fs.holding path id)) := by
      show ((FileSystem.mapEntry _ _).1, m.withFiles (FileSystem.mapEntry _ _).2) = _
      rw [Machine.fs_withFiles, FileSystem.mapEntry_addHandle]
    have hsize : (m.fs.opened path .shared id).size = (m.fs.contents id).length := rfl
    simp only [Machine.run_bind, Machine.host_size, Machine.fs_withFiles, hhandle, Option.map_some,
      Option.getD_some, hsize]
    unfold Entry.check
    by_cases hempty : (m.fs.contents id).length = 0
    · simp [hempty, hclose]
    · by_cases hshort : (m.fs.contents id).length < digest.size
      · simp [hempty, hshort, hclose]
      · simp only [if_neg hempty, if_neg hshort, Machine.run_bind, hmap]
        by_cases hsum : digest.of (Entry.splitAt digest (m.fs.contents id)).1 =
            (Entry.splitAt digest (m.fs.contents id)).2
        · simp [hsum]
        · simp [hsum, FileSystem.close_holding, hwf]

/-- Looking up an entry removes it if it is damaged and otherwise holds it or leaves it alone. -/
theorem get_eq (hwf : m.fs.WellFormed) (hlead : m.fs.Leads path location) {cache : Cache}
    (hdir : cache.state.directory? = some path) {key : Key} (hname : key.IsName) :
    get Machine.host cache key m =
      match m.fs.granted (entryPath path key) .shared with
      | .error error => (none, m.noting (.miss key error))
      | .ok id =>
        match Entry.check cache.digest (entryPath path key) (m.fs.contents id) with
        | .ok length =>
          (some (.mapped m.fs.next length),
            (m.withFiles (m.fs.holding (entryPath path key) id)).noting (.hit key length))
        | .error error =>
          if error.isCorrupt then
            (none, (m.withFiles (m.fs.spent.unbind (location.child key.fileName))).noting
              (.corruptMiss key error))
          else (none, (m.withFiles m.fs.spent).noting (.miss key error)) := by
  unfold get
  simp only [hdir, Key.not_isEmpty_of_isName hname, Bool.false_eq_true, if_false,
    Machine.run_bind, readEntry_eq hwf]
  rcases hgranted : m.fs.granted (entryPath path key) .shared with error | id
  · simp [FileSystem.not_isCorrupt_of_granted hgranted]
  · rcases hcheck : Entry.check cache.digest (entryPath path key) (m.fs.contents id) with
      error | length
    · obtain ⟨hfit, hget, -, -⟩ := (FileSystem.granted_eq_ok_iff hlead hname).mp hgranted
      have hremove : m.fs.spent.removeEntry (entryPath path key) =
          (.ok (), m.fs.spent.unbind (location.child key.fileName)) :=
        FileSystem.removeEntry_join hlead.spent hname hfit hget
      by_cases hcorrupt : error.isCorrupt = true
      · simp [hcheck, hcorrupt, hremove]
      · simp [hcheck, hcorrupt]
    · simp [hcheck, Blob.length]

/-- A disabled cache and the empty key find nothing and change nothing. -/
theorem get_of_disabled {cache : Cache} (hdir : cache.state.directory? = none) (key : Key) :
    get Machine.host cache key m = (none, m) := by
  unfold get
  rw [hdir]
  rfl

/-- The empty key is missed without a look at any file. -/
theorem get_empty (cache : Cache) : get Machine.host cache .empty m = (none, m) := by
  unfold get
  cases cache.state.directory? <;> rfl

end Cache

end BlobCache
