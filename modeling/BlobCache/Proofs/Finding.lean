import BlobCache.Proofs.Loading
import BlobCache.Proofs.Reachable

/-!
# What a look-up finds

A look-up is settled by the file under the path of the entry, and by nothing else.

* `FileSystem.Readable`: the path names one file with one name, and nobody holds it exclusively.
  It is the same as being granted a shared lock (`granted_shared_eq_ok_iff`).
* `Entry.Damaged`: the content is too short for a checksum or ends in another one. It is the same
  as being found damaged (`Entry.check_isCorrupt_iff`); an empty file is not.
* `Cache.get_exact`: a look-up hits a readable file whose content is a blob with its checksum,
  removes one that is readable and damaged, and leaves the tree alone in every other case.

Keys and paths may be any: that the name of the entry can be removed follows from the file having
been found under it.
-/

namespace BlobCache

namespace FileSystem

/-! ## Readable files -/

/-- One file with one name, which nobody holds exclusively, stands under the path itself. -/
structure Readable (fs : FileSystem) (path : Path) (place : Location) (id : FileId) : Prop where
  /-- The path names the file without following a link at its end. -/
  stands : fs.ownNodeAt path = .ok (place, .file id)
  /-- The file has one name. -/
  single : fs.linkCount (.file id) = 1
  /-- No handle holds it exclusively. -/
  unheld : Lock.exclusive ∉ fs.locksOn id

section readable

variable {fs : FileSystem} {path : Path} {place : Location} {id : FileId}

/-- What opens as a file is the file that the path has for its own. -/
theorem openNode_eq_file_iff :
    fs.openNode path = .ok (.file id) ↔ ∃ place, fs.ownNodeAt path = .ok (place, .file id) := by
  unfold openNode
  rcases hown : fs.ownNodeAt path with cause | ⟨place, _ | _ | other⟩ <;> simp

/-- A node that stands somewhere has a name. -/
theorem one_le_linkCount {node : Node} (h : fs.tree.get? place = some node) :
    1 ≤ fs.linkCount node :=
  List.countP_pos_iff.mpr ⟨(place, node), Table.mem_rows_iff.mpr h, by simp⟩

/-- A file that is found by its own name stands there. -/
theorem get?_of_ownNodeAt (h : fs.ownNodeAt path = .ok (place, .file id)) :
    fs.tree.get? place = some (.file id) := by
  obtain ⟨parent, name, -, hnode, rfl⟩ := ownNodeAt_eq_file_iff.mp h
  exact (nodeIn_eq_ok_iff.mp hnode).2

/-- No exclusive lock is in force where a shared one would be granted. -/
theorem lockable_shared_iff_unheld :
    fs.lockable id .shared = true ↔ Lock.exclusive ∉ fs.locksOn id := by
  rw [lockable_shared_iff]
  constructor
  · intro hshared hmem
    cases hshared _ hmem
  · intro hunheld lock hmem
    cases lock with
    | shared => rfl
    | exclusive => exact absurd hmem hunheld

/-- An entry is opened for reading if and only if it is readable. -/
theorem granted_shared_eq_ok_iff :
    fs.granted path .shared = .ok id ↔ ∃ place, fs.Readable path place id := by
  have hopen : fs.granted path .shared = .ok id ↔
      fs.openNode path = .ok (.file id) ∧ fs.linkCount (.file id) ≤ 1 ∧
        fs.lockable id .shared = true := by
    unfold granted
    rcases fs.openNode path with cause | _ | _ | other
    · simp
    · simp
    · simp
    · simp only [Except.ok.injEq, Node.file.injEq]
      split_ifs <;> grind
  rw [hopen, openNode_eq_file_iff, lockable_shared_iff_unheld]
  constructor
  · rintro ⟨⟨place, hstands⟩, hlinks, hunheld⟩
    have hone := one_le_linkCount (get?_of_ownNodeAt hstands)
    exact ⟨place, hstands, by omega, hunheld⟩
  · rintro ⟨place, hstands, hsingle, hunheld⟩
    exact ⟨⟨place, hstands⟩, by omega, hunheld⟩

/-- The file under a path is readable in one way at most. -/
theorem Readable.unique {other : Location} {id' : FileId} (h : fs.Readable path place id)
    (h' : fs.Readable path other id') : other = place ∧ id' = id := by
  have hboth := h'.stands.symm.trans h.stands
  simpa using hboth

/-- What can be read by its path can be removed by its path. -/
theorem Readable.removeEntry (h : fs.Readable path place id) :
    fs.spent.removeEntry path = (.ok (), fs.spent.unbind place) := by
  obtain ⟨parent, name, hlast, hnode, rfl⟩ := ownNodeAt_eq_file_iff.mp h.stands
  have hcurrent : fs.spent.current = fs.current := rfl
  have hlast' : fs.spent.resolveLast path = .ok (.named parent name false) :=
    resolveLast_mono hcurrent (fun _ _ hget _ => hget) hlast
  have hunlink : fs.spent.unlink path = .ok (fs.spent.unbind (parent.child name)) :=
    unlink_eq_ok_iff.mpr ⟨parent, name, .file id, hlast', hnode, by simp, rfl⟩
  unfold FileSystem.removeEntry
  rw [hunlink]

end readable

end FileSystem

/-! ## Damaged contents -/

namespace Entry

variable {digest : Digest} {content : Bytes}

/-- The content is too short for a checksum, or it ends in a checksum that is not that of the rest.
An empty file is not called damaged: someone may be about to write it. -/
def Damaged (digest : Digest) (content : Bytes) : Prop :=
  content ≠ [] ∧
    (content.length < digest.size ∨
      ∃ front back, content = front ++ back ∧ back.length = digest.size ∧
        back ≠ digest.of front)

/-- Where there is room for a checksum, the cut leaves one and nothing is cut short. -/
theorem length_splitAt (h : digest.size ≤ content.length) :
    (splitAt digest content).1.length + digest.size = content.length ∧
      (splitAt digest content).2.length = digest.size := by
  unfold splitAt
  rw [List.length_take, List.length_drop]
  omega

/-- The cut is where the checksum starts. -/
theorem splitAt_append {front back : Bytes} (h : back.length = digest.size) :
    splitAt digest (front ++ back) = (front, back) := by
  unfold splitAt
  simp only [List.length_append, h, Nat.add_sub_cancel, List.take_left, List.drop_left]

/-- A check finds damage if and only if there is some. -/
theorem check_isCorrupt_iff (path : Path) :
    (∃ error, check digest path content = .error error ∧ error.isCorrupt = true) ↔
      Damaged digest content := by
  unfold check Damaged
  by_cases hempty : content.length = 0
  · constructor
    · rintro ⟨error, herror, hcorrupt⟩
      rw [if_pos hempty] at herror
      cases herror
      cases hcorrupt
    · exact fun hdamaged => absurd (List.length_eq_zero_iff.mp hempty) hdamaged.1
  have hne : content ≠ [] := fun e => hempty (by rw [e, List.length_nil])
  rw [if_neg hempty]
  by_cases hshort : content.length < digest.size
  · simp [hshort, hne, StoreError.isCorrupt]
  rw [if_neg hshort]
  have hlength := (length_splitAt (Nat.le_of_not_lt hshort)).2
  constructor
  · rintro ⟨error, herror, -⟩
    refine ⟨hne, Or.inr ⟨_, _, (append_splitAt digest content).symm, hlength, fun hsum => ?_⟩⟩
    rw [if_pos hsum.symm] at herror
    cases herror
  · rintro ⟨-, hshort' | ⟨front, back, rfl, hback, hsum⟩⟩
    · exact absurd hshort' hshort
    · rw [splitAt_append hback, if_neg (Ne.symm hsum)]
      exact ⟨_, rfl, rfl⟩

/-- A content in front of a checksum of the right length that is not its own is damaged. -/
theorem damaged_append {front back : Bytes} (hsized : digest.Sized)
    (hback : back.length = digest.size) (hsum : back ≠ digest.of front) :
    Damaged digest (front ++ back) := by
  refine ⟨fun e => ?_, Or.inr ⟨front, back, rfl, hback, hsum⟩⟩
  -- both are empty, so the checksum has no bytes and there is only one
  have hnil : back = [] := (List.append_eq_nil_iff.mp e).2
  have hlength : (digest.of front).length = digest.size := hsized [front]
  refine hsum (hnil.trans (List.length_eq_zero_iff.mp ?_).symm)
  rw [hlength, ← hback, hnil, List.length_nil]

/-- What is damaged is no blob with its checksum. -/
theorem Damaged.not_sealed (h : Damaged digest content) (hsized : digest.Sized) :
    ¬Sealed digest content := by
  obtain ⟨error, hcheck, hcorrupt⟩ := (check_isCorrupt_iff []).mpr h
  exact not_sealed_of_isCorrupt hsized hcheck hcorrupt

end Entry

namespace Cache

variable {m : Machine} {cache : Cache} {path : Path} {key : Key} {place : Location} {id : FileId}

/-! ## Three ways a look-up can go -/

section ways

variable (hwf : m.fs.WellFormed) (hdir : cache.state.directory? = some path)
  (hkey : key.isEmpty = false)

include hwf hdir hkey

/-- A readable file whose content passes is held. -/
theorem get_of_ok (h : m.fs.Readable (entryPath path key) place id) {length : Nat}
    (hcheck : Entry.check cache.digest (entryPath path key) (m.fs.contents id) = .ok length) :
    get Machine.host cache key m =
      (some (.mapped m.fs.next length),
        (m.withFiles (m.fs.holding (entryPath path key) id)).noting (.hit key length)) := by
  have hgranted := FileSystem.granted_shared_eq_ok_iff.mpr ⟨place, h⟩
  unfold get
  simp [hdir, hkey, readEntry_eq hwf, hgranted, hcheck, Blob.length]

/-- The blob of a readable file that is a blob with its checksum is read from it. -/
theorem get_of_encode (hsized : cache.digest.Sized)
    (h : m.fs.Readable (entryPath path key) place id) {blob : Bytes}
    (hcontent : m.fs.contents id = Entry.encode cache.digest blob) (hne : m.fs.contents id ≠ []) :
    (get Machine.host cache key m).1 = some (.mapped m.fs.next blob.length) ∧
      (Blob.read Machine.host (.mapped m.fs.next blob.length)
        (get Machine.host cache key m).2).1 = blob := by
  have hget := get_of_ok hwf hdir hkey h ((Entry.check_eq_ok_iff hsized).mpr
    ⟨hne, blob, hcontent, rfl⟩)
  have hhandles : (get Machine.host cache key m).2.fs.handles =
      (m.fs.holding (entryPath path key) id).handles := by rw [hget]; rfl
  have hsame : (get Machine.host cache key m).2.fs.contents id = m.fs.contents id := by
    rw [hget]; rfl
  refine ⟨by rw [hget], ?_⟩
  rw [read_holding blob.length hhandles hsame, hcontent]
  exact List.take_left

/-- A readable file that is damaged is removed. -/
theorem get_of_damaged (h : m.fs.Readable (entryPath path key) place id)
    (hdamaged : Entry.Damaged cache.digest (m.fs.contents id)) :
    ∃ event, get Machine.host cache key m =
      (none, (m.withFiles (m.fs.spent.unbind place)).noting event) := by
  obtain ⟨error, hcheck, hcorrupt⟩ :=
    (Entry.check_isCorrupt_iff (entryPath path key)).mpr hdamaged
  have hgranted := FileSystem.granted_shared_eq_ok_iff.mpr ⟨place, h⟩
  refine ⟨.corruptMiss key error, ?_⟩
  unfold get
  simp [hdir, hkey, readEntry_eq hwf, hgranted, hcheck, hcorrupt, h.removeEntry]

/-- In every other case the look-up misses, and at most an identity is used up. -/
theorem get_of_neither
    (hhit : ∀ place id length, m.fs.Readable (entryPath path key) place id →
      Entry.check cache.digest (entryPath path key) (m.fs.contents id) ≠ .ok length)
    (hsound : ∀ place id, m.fs.Readable (entryPath path key) place id →
      ¬Entry.Damaged cache.digest (m.fs.contents id)) :
    ∃ fs event, (fs = m.fs ∨ fs = m.fs.spent) ∧
      get Machine.host cache key m = (none, (m.withFiles fs).noting event) := by
  unfold get
  simp only [hdir, hkey, Bool.false_eq_true, if_false, Machine.run_bind, readEntry_eq hwf]
  rcases hgranted : m.fs.granted (entryPath path key) .shared with error | id
  · refine ⟨m.fs, .miss key error, Or.inl rfl, ?_⟩
    simp [FileSystem.not_isCorrupt_of_granted hgranted]
  · obtain ⟨place, h⟩ := FileSystem.granted_shared_eq_ok_iff.mp hgranted
    rcases hcheck : Entry.check cache.digest (entryPath path key) (m.fs.contents id) with
      error | length
    · have hcorrupt : error.isCorrupt = false := by
        by_contra hcorrupt
        exact hsound place id h
          ((Entry.check_isCorrupt_iff _).mp ⟨error, hcheck, by simpa using hcorrupt⟩)
      refine ⟨m.fs.spent, .miss key error, Or.inr rfl, ?_⟩
      simp [hcheck, hcorrupt]
    · exact absurd hcheck (hhit place id length h)

end ways

/-! ## The meaning of a look-up -/

/-- The answer to a look-up, and what it leaves behind, in terms of the file under the path of the
entry. -/
structure Finds (cache : Cache) (path : Path) (key : Key) (m : Machine) : Prop where
  /-- It answers with the blob of a readable file that is a blob with its checksum, and with nothing
  else. The bytes of the blob are those in front of the checksum. -/
  hit_iff : ∀ content,
    (∃ blob, (get Machine.host cache key m).1 = some blob ∧ blob.length = content.length ∧
      (blob.read Machine.host (get Machine.host cache key m).2).1 = content) ↔
    ∃ place id, m.fs.Readable (entryPath path key) place id ∧ m.fs.contents id ≠ [] ∧
      m.fs.contents id = content ++ cache.digest.of content
  /-- Where it hits, there is room for the checksum behind the blob, and for nothing more. -/
  length_eq : ∀ blob, (get Machine.host cache key m).1 = some blob →
    ∃ place id, m.fs.Readable (entryPath path key) place id ∧
      blob.length + cache.digest.size = (m.fs.contents id).length
  /-- It removes a place if and only if a readable file stands there that is damaged. -/
  removes_iff : ∀ place,
    (get Machine.host cache key m).2.fs.tree.get? place ≠ m.fs.tree.get? place ↔
      ∃ id, m.fs.Readable (entryPath path key) place id ∧
        Entry.Damaged cache.digest (m.fs.contents id)
  /-- Then it misses, and nothing but this name is gone from the tree. -/
  removed : ∀ place id, m.fs.Readable (entryPath path key) place id →
    Entry.Damaged cache.digest (m.fs.contents id) →
    (get Machine.host cache key m).1 = none ∧
      (get Machine.host cache key m).2.fs.tree = m.fs.tree.erase place
  /-- Otherwise the tree is left as it was. -/
  kept : (∀ place id, m.fs.Readable (entryPath path key) place id →
    ¬Entry.Damaged cache.digest (m.fs.contents id)) →
    (get Machine.host cache key m).2.fs.tree = m.fs.tree
  /-- In no case does it write. -/
  files_eq : (get Machine.host cache key m).2.fs.files = m.fs.files

section finds

variable (hwf : m.fs.WellFormed) (hdir : cache.state.directory? = some path)
  (hkey : key.isEmpty = false)

include hwf hdir hkey

/-- An entry that passes its check is found and handed out. -/
theorem finds_of_ok (hsized : cache.digest.Sized)
    (h : m.fs.Readable (entryPath path key) place id) {length : Nat}
    (hcheck : Entry.check cache.digest (entryPath path key) (m.fs.contents id) = .ok length) :
    cache.Finds path key m := by
  obtain ⟨hne, found, hfound, rfl⟩ := (Entry.check_eq_ok_iff hsized).mp hcheck
  have hget := get_of_ok hwf hdir hkey h hcheck
  have hsound : ∀ place' id', m.fs.Readable (entryPath path key) place' id' →
      ¬Entry.Damaged cache.digest (m.fs.contents id') := by
    intro place' id' h' hdamaged
    obtain ⟨rfl, rfl⟩ := h.unique h'
    obtain ⟨error, herror, -⟩ := (Entry.check_isCorrupt_iff _).mpr hdamaged
    rw [hcheck] at herror
    cases herror
  have hread : (Blob.read Machine.host (.mapped m.fs.next found.length)
      (get Machine.host cache key m).2).1 = found :=
    (get_of_encode hwf hdir hkey hsized h hfound hne).2
  have htree : (get Machine.host cache key m).2.fs.tree = m.fs.tree := by rw [hget]; rfl
  refine ⟨fun content => ⟨?_, ?_⟩, ?_, fun place' => ⟨?_, ?_⟩, ?_, fun _ => htree, ?_⟩
  · rintro ⟨blob, hblob, -, rfl⟩
    rw [hget] at hblob
    cases hblob
    exact ⟨place, id, h, hne, by rw [hread]; exact hfound⟩
  · rintro ⟨place', id', h', -, hcontent⟩
    obtain ⟨rfl, rfl⟩ := h.unique h'
    have hsame : found = content := (Entry.encode_inj hsized).mp (hfound.symm.trans hcontent)
    subst hsame
    exact ⟨_, by rw [hget], rfl, hread⟩
  · intro blob hblob
    rw [hget] at hblob
    cases hblob
    exact ⟨place, id, h, by rw [hfound, Entry.length_encode hsized]; rfl⟩
  · intro hchanged
    exact absurd (by rw [htree]) hchanged
  · rintro ⟨id', h', hdamaged⟩
    exact absurd hdamaged (hsound place' id' h')
  · intro place' id' h' hdamaged
    exact absurd hdamaged (hsound place' id' h')
  · rw [hget]
    rfl

/-- A damaged entry is found, missed, and removed. -/
theorem finds_of_damaged (hsized : cache.digest.Sized)
    (h : m.fs.Readable (entryPath path key) place id)
    (hdamaged : Entry.Damaged cache.digest (m.fs.contents id)) : cache.Finds path key m := by
  obtain ⟨event, hget⟩ := get_of_damaged hwf hdir hkey h hdamaged
  have hbound := FileSystem.get?_of_ownNodeAt h.stands
  have htree : (get Machine.host cache key m).2.fs.tree = m.fs.tree.erase place := by
    rw [hget]; rfl
  refine ⟨fun content => ⟨?_, ?_⟩, ?_, fun place' => ⟨?_, ?_⟩, ?_, fun hsound => ?_, ?_⟩
  · rintro ⟨blob, hblob, -⟩
    rw [hget] at hblob
    cases hblob
  · rintro ⟨place', id', h', hne, hcontent⟩
    obtain ⟨rfl, rfl⟩ := h.unique h'
    exact absurd ⟨content, hcontent⟩ (hdamaged.not_sealed hsized)
  · intro blob hblob
    rw [hget] at hblob
    cases hblob
  · intro hchanged
    rw [htree, Table.get?_erase] at hchanged
    split at hchanged
    · rename_i hplace
      exact ⟨id, hplace ▸ h, hdamaged⟩
    · exact absurd rfl hchanged
  · rintro ⟨id', h', -⟩
    obtain ⟨rfl, rfl⟩ := h.unique h'
    rw [htree, Table.get?_erase_self, hbound]
    simp
  · intro place' id' h' _
    obtain ⟨rfl, rfl⟩ := h.unique h'
    exact ⟨by rw [hget], htree⟩
  · exact absurd hdamaged (hsound place id h)
  · rw [hget]
    rfl

/-- Where there is no readable entry that is sound or damaged, it is missed and everything stays. -/
theorem finds_of_neither (hsized : cache.digest.Sized)
    (hhit : ∀ place id length, m.fs.Readable (entryPath path key) place id →
      Entry.check cache.digest (entryPath path key) (m.fs.contents id) ≠ .ok length)
    (hsound : ∀ place id, m.fs.Readable (entryPath path key) place id →
      ¬Entry.Damaged cache.digest (m.fs.contents id)) : cache.Finds path key m := by
  obtain ⟨fs, event, hfs, hget⟩ := get_of_neither hwf hdir hkey hhit hsound
  have hmiss : ∀ blob, (get Machine.host cache key m).1 ≠ some blob := by
    intro blob hblob
    rw [hget] at hblob
    cases hblob
  have hkept : (get Machine.host cache key m).2.fs.tree = m.fs.tree ∧
      (get Machine.host cache key m).2.fs.files = m.fs.files := by
    rw [hget]
    rcases hfs with rfl | rfl <;> exact ⟨rfl, rfl⟩
  refine ⟨fun content => ⟨?_, ?_⟩, ?_, fun place' => ⟨?_, ?_⟩, ?_, fun _ => hkept.1, hkept.2⟩
  · rintro ⟨blob, hblob, -⟩
    exact absurd hblob (hmiss blob)
  · rintro ⟨place, id, h, hne, hcontent⟩
    exact absurd ((Entry.check_eq_ok_iff hsized).mpr ⟨hne, content, hcontent, rfl⟩)
      (hhit place id _ h)
  · intro blob hblob
    exact absurd hblob (hmiss blob)
  · intro hchanged
    exact absurd (by rw [hkept.1]) hchanged
  · rintro ⟨id, h, hdamaged⟩
    exact absurd hdamaged (hsound place' id h)
  · intro place id h hdamaged
    exact absurd hdamaged (hsound place id h)

/-- A look-up hits one readable file with one sound content, removes one that is damaged, and
changes no name otherwise. So it misses and removes an entry that was replaced after it was stored,
be it by the same blob with another digest part or by the same digest part behind a blob of another
digest. -/
theorem get_exact (hsized : cache.digest.Sized) :
    cache.Finds path key m ∧
      ∀ place id blob other, m.fs.Readable (entryPath path key) place id →
        (m.fs.contents id = blob ++ other ∧ other.length = cache.digest.size ∧
            other ≠ cache.digest.of blob ∨
          m.fs.contents id = other ++ cache.digest.of blob ∧
            cache.digest.of other ≠ cache.digest.of blob) →
        (get Machine.host cache key m).1 = none ∧
          (get Machine.host cache key m).2.fs.tree = m.fs.tree.erase place := by
  have hfinds : cache.Finds path key m := by
    by_cases hdamaged : ∃ place id, m.fs.Readable (entryPath path key) place id ∧
        Entry.Damaged cache.digest (m.fs.contents id)
    · obtain ⟨place, id, h, hdamaged⟩ := hdamaged
      exact finds_of_damaged hwf hdir hkey hsized h hdamaged
    by_cases hhit : ∃ place id length, m.fs.Readable (entryPath path key) place id ∧
        Entry.check cache.digest (entryPath path key) (m.fs.contents id) = .ok length
    · obtain ⟨place, id, length, h, hcheck⟩ := hhit
      exact finds_of_ok hwf hdir hkey hsized h hcheck
    · exact finds_of_neither hwf hdir hkey hsized
        (fun place id length h hcheck => hhit ⟨place, id, length, h, hcheck⟩)
        (fun place id h hd => hdamaged ⟨place, id, h, hd⟩)
  refine ⟨hfinds, fun place id blob other h hreplaced => hfinds.removed place id h ?_⟩
  rcases hreplaced with ⟨hcontent, hlength, hsum⟩ | ⟨hcontent, hsum⟩
  · exact hcontent ▸ Entry.damaged_append hsized hlength hsum
  · exact hcontent ▸ Entry.damaged_append hsized (hsized [blob]) (Ne.symm hsum)

end finds

/-- An entry is found as it was stored, and missed and removed once a byte of it was changed. -/
theorem get_before_and_after_damage :
    let cache : Cache := ⟨.enabled Path.dot 100, .weightedSum, 0⟩
    let place := (Location.top.child [0x77]).child (Key.fileName ⟨"a"⟩)
    let stored := Session.finish (.start [0x77])
      [.openCache "c" (.config ⟨some Path.dot, 100⟩) .weightedSum none .none,
        .onCache "c" (.set (.text "a") [1, 2, 3])]
    let damaged := Session.finish stored [.meddle (.damage (entryPath Path.dot ⟨"a"⟩) 0 1)]
    (∃ blob, (get Machine.host cache ⟨"a"⟩ stored.machine).1 = some blob ∧ blob.length = 3 ∧
      (blob.read Machine.host (get Machine.host cache ⟨"a"⟩ stored.machine).2).1 = [1, 2, 3]) ∧
    damaged.machine.fs.tree.get? place = some (.file 2) ∧
    (get Machine.host cache ⟨"a"⟩ damaged.machine).1 = none ∧
      (get Machine.host cache ⟨"a"⟩ damaged.machine).2.fs.tree =
        damaged.machine.fs.tree.erase place := by
  intro cache place stored damaged
  have horderly : stored.Orderly := Session.orderly_finish (.start _) _
  have hdamaged : damaged.Orderly := Session.orderly_finish horderly _
  have hkey : Key.isEmpty ⟨"a"⟩ = false := by decide +kernel
  have hbefore : cache.Finds Path.dot ⟨"a"⟩ stored.machine :=
    (get_exact horderly.wellFormed rfl hkey Digest.sized_weightedSum).1
  have hafter : cache.Finds Path.dot ⟨"a"⟩ damaged.machine :=
    (get_exact hdamaged.wellFormed rfl hkey Digest.sized_weightedSum).1
  have hstored : stored.machine.fs.Readable (entryPath Path.dot ⟨"a"⟩) place 0 :=
    ⟨by decide +kernel, by decide +kernel, by decide +kernel⟩
  have hspoilt : damaged.machine.fs.Readable (entryPath Path.dot ⟨"a"⟩) place 2 :=
    ⟨by decide +kernel, by decide +kernel, by decide +kernel⟩
  refine ⟨(hbefore.hit_iff [1, 2, 3]).mpr ⟨place, 0, hstored, ?_, ?_⟩, ?_,
    hafter.removed place 2 hspoilt ?_⟩
  · decide +kernel
  · decide +kernel
  · decide +kernel
  · have hcontent : damaged.machine.fs.contents 2 =
        [0, 2, 3] ++ cache.digest.of [1, 2, 3] := by decide +kernel
    rw [hcontent]
    exact Entry.damaged_append Digest.sized_weightedSum (Digest.sized_weightedSum [[1, 2, 3]])
      (by decide +kernel)

end Cache

end BlobCache
