import BlobCache.Proofs.Finding
import BlobCache.Proofs.Keeping

/-!
# Storing and reading back

A blob within the budget is stored under every free name that can be reached, and read back by every
cache on the directory (`Cache.set_stores_and_reads_back`). Making room has no say in this: a blob
is stored even if nothing could be evicted for it.

A look-up that misses an entry has removed it, unless it could not be opened or is empty. So a bad
entry does not keep its key from being stored under (`Cache.set_after_miss`). An empty file is no
bad entry but one that someone may be about to write, and it does keep it
(`Cache.set_blocked_by_empty_entry`).
-/

namespace BlobCache

namespace FileSystem

variable {fs : FileSystem} {path : Path} {location : Location} {name : Bytes} {id : FileId}

/-- A file that is found behind the path of a directory stands in it. -/
theorem of_ownNodeAt_join (hlead : fs.Leads path location) (hn : Path.IsName name)
    {place : Location} (h : fs.ownNodeAt (Path.join path name) = .ok (place, .file id)) :
    Fits path name ∧ fs.tree.get? (location.child name) = some (.file id) := by
  have hopen := openNode_eq_file_iff.mpr ⟨place, h⟩
  rw [openNode_join hlead hn] at hopen
  rcases hunder : fs.under path location name with cause | _ | _ | _ | other <;>
    simp only [hunder, reduceCtorEq, Except.ok.injEq, Node.file.injEq] at hopen
  exact hopen ▸ under_eq_ok_iff.mp hunder

end FileSystem

/-- Whatever is wrong with a content that is not empty is damage. -/
theorem Entry.isCorrupt_of_check {digest : Digest} {path : Path} {content : Bytes}
    {error : StoreError} (hne : content ≠ []) (h : check digest path content = .error error) :
    error.isCorrupt = true := by
  unfold check at h
  rw [if_neg fun e => hne (List.length_eq_zero_iff.mp e)] at h
  split at h
  · cases h
    rfl
  · split at h
    · cases h
    · cases h
      rfl

namespace Cache

variable {m : Machine} {cache : Cache} {path : Path} {location : Location} {budget : UInt64}
  {key : Key} {blob : Bytes} {place : Location} {id : FileId}

/-! ## A blob under a free name -/

/-- A blob was stored: its name stands for a new file, and every cache on the directory reads the
blob back from it. -/
structure Stored (cache : Cache) (location : Location) (key : Key) (blob : Bytes) (m m' : Machine) :
    Prop where
  /-- A file that was not there before stands under the name: it has the blob and its checksum as
  content, one name and no locks. -/
  file : ∃ id, m.fs.next ≤ id ∧
    m'.fs.tree.get? (location.child key.fileName) = some (.file id) ∧
    m'.fs.files.get? id =
      some ⟨Entry.encode cache.digest blob, 0o440, m.fs.now⟩ ∧
    m'.fs.linkCount (.file id) = 1 ∧ m'.fs.locksOn id = []
  /-- Every cache with this digest whose path leads to the directory finds the blob. -/
  read : ∀ (other : Cache) path, other.digest = cache.digest →
    other.state.directory? = some path → m.fs.Leads path location →
    FileSystem.Fits path key.fileName →
    ∃ handle, (get Machine.host other key m').1 = some (.mapped handle blob.length) ∧
      ((Blob.mapped handle blob.length).read Machine.host (get Machine.host other key m').2).1 =
        blob

/-- A blob gets an entry under a name that is free and can be reached. -/
theorem addEntry_of_free {digest : Digest} (hsized : digest.Sized) (hpos : 0 < digest.size)
    (hwf : m.fs.WellFormed) (hlead : m.fs.Leads path location) (hname : key.IsName)
    (hfit : FileSystem.Fits path key.fileName)
    (hfree : m.fs.tree.get? (location.child key.fileName) = none) (hne : blob ≠ []) (size : Nat) :
    addEntry Machine.host digest path size key blob m =
      (.stored (blob.length + digest.size),
        (m.withFiles (m.fs.storing (location.child key.fileName)
          (Entry.encode digest blob))).noting
            (.stored key blob.length (size + (blob.length + digest.size)))) := by
  have hsum : digest.of blob ≠ [] := by
    intro e
    have hlength : (digest.of blob).length = digest.size := hsized [blob]
    rw [e, List.length_nil] at hlength
    omega
  rw [addEntry_eq hwf hlead hname hne, FileSystem.under_eq_ok_iff.mpr ⟨hfit, hfree⟩]
  simp only [hsum, if_false]

/-- A blob within the budget gets a new file under every name that is free and can be reached,
whatever was evicted before. -/
theorem set_eq_storing (hstate : cache.state = .enabled path budget) (hsized : cache.digest.Sized)
    (hpos : 0 < cache.digest.size) (hwf : m.fs.WellFormed) (hlead : m.fs.Leads path location)
    (hname : key.IsName) (hfit : FileSystem.Fits path key.fileName)
    (hfree : m.fs.tree.get? (location.child key.fileName) = none) (hne : blob ≠ [])
    (hbudget : blob.length ≤ budget.toNat) :
    ∃ gone, (∀ entry ∈ gone, entry ∈ m.fs.entriesIn location) ∧
      (set Machine.host cache key blob m).1 = .stored (blob.length + cache.digest.size) ∧
      (set Machine.host cache key blob m).2.fs = (m.fs.without location gone).storing
        (location.child key.fileName) (Entry.encode cache.digest blob) := by
  obtain ⟨size, roomy, hroom, hfs, hwf', hlead'⟩ := makeRoom_leaves hwf hlead budget.toNat
    (blob.length + cache.digest.size)
  have hvacant : roomy.fs.tree.get? (location.child key.fileName) = none := by
    rw [hfs, FileSystem.get?_without, hfree, ite_self]
  refine ⟨makingWay m.fs path location budget.toNat (blob.length + cache.digest.size),
    fun _ => mem_entriesIn_of_mem_makingWay, ?_⟩
  rw [← hfs, set_of_fits hstate hname hne hbudget, hroom,
    addEntry_of_free hsized hpos hwf' hlead' hname hfit hvacant hne]
  exact ⟨rfl, rfl⟩

/-- What such a file is, and that it can be read. -/
theorem stored_of_storing (hsized : cache.digest.Sized) (hwf : m.fs.WellFormed)
    (hname : key.IsName) (hlength : key.fileName.length ≤ FileSystem.nameLimit)
    (hfree : m.fs.tree.get? (location.child key.fileName) = none) (hne : blob ≠ [])
    {gone : List Entry} (hgone : ∀ entry ∈ gone, entry ∈ m.fs.entriesIn location) {m' : Machine}
    (hfs : m'.fs = (m.fs.without location gone).storing (location.child key.fileName)
      (Entry.encode cache.digest blob)) : cache.Stored location key blob m m' := by
  have hwf₁ : (m.fs.without location gone).WellFormed := hwf.without location gone
  have hvacant : (m.fs.without location gone).tree.get? (location.child key.fileName) = none := by
    rw [FileSystem.get?_without, hfree, ite_self]
  have hwf' : m'.fs.WellFormed := hfs ▸ hwf₁.storing hname hlength _
  have hget : m'.fs.tree.get? (location.child key.fileName) =
      some (.file (m.fs.without location gone).next) := by
    rw [hfs]
    exact Table.get?_set_self _ _ _
  have hcontent : m'.fs.contents (m.fs.without location gone).next =
      Entry.encode cache.digest blob := by
    rw [hfs]
    exact FileSystem.contents_storing_self _ _ _
  have hsingle : m'.fs.linkCount (.file (m.fs.without location gone).next) = 1 := by
    refine Nat.le_antisymm ?_ (FileSystem.one_le_linkCount hget)
    rw [hfs]
    exact FileSystem.linkCount_storing_self hwf₁
  have hlocks : m'.fs.locksOn (m.fs.without location gone).next = [] := by
    rw [hfs]
    exact hwf₁.locksOn_next
  refine ⟨⟨_, Nat.le_add_right _ _, hget, ?_, hsingle, hlocks⟩, ?_⟩
  · rw [hfs]
    exact Table.get?_set_self _ _ _
  · intro other path' hdigest hdir hother hfit
    have hlead : m'.fs.Leads path' location := hfs ▸ (hother.without hgone).storing hvacant _
    obtain ⟨place, hreadable⟩ := FileSystem.granted_shared_eq_ok_iff.mp
      (FileSystem.granted_of_unlocked hlead hname hfit hget (Nat.le_of_eq hsingle) hlocks _)
    rw [← hdigest] at hsized hcontent
    obtain ⟨hhit, hread⟩ := get_of_encode hwf' hdir (Key.not_isEmpty_of_isName hname) hsized
      hreadable hcontent (by rw [hcontent]; simp [Entry.encode, hne])
    exact ⟨_, hhit, hread⟩

/-- Whatever the state of the directory is and however much could be evicted, a blob within the
budget is stored under a free name that can be reached, and read back at once. -/
theorem set_stores_and_reads_back (hstate : cache.state = .enabled path budget)
    (hsized : cache.digest.Sized) (hpos : 0 < cache.digest.size) (hwf : m.fs.WellFormed)
    (hlead : m.fs.Leads path location) (hname : key.IsName)
    (hfit : FileSystem.Fits path key.fileName)
    (hfree : m.fs.tree.get? (location.child key.fileName) = none) (hne : blob ≠ [])
    (hbudget : blob.length ≤ budget.toNat) :
    (set Machine.host cache key blob m).1 = .stored (blob.length + cache.digest.size) ∧
      cache.Stored location key blob m (set Machine.host cache key blob m).2 := by
  obtain ⟨gone, hgone, hstored, hfs⟩ := set_eq_storing hstate hsized hpos hwf hlead hname hfit
    hfree hne hbudget
  exact ⟨hstored, stored_of_storing hsized hwf hname hfit.2 hfree hne hgone hfs⟩

/-- In a budget of twenty bytes an entry of twelve is being read, and so nothing can be evicted. A
second blob of eight is stored all the same. -/
theorem set_stores_beside_entry_in_use :
    let cache : Cache := ⟨.enabled Path.dot 20, .weightedSum, 0⟩
    let here := Location.top.child [0x77]
    let reading := Session.finish (.start [0x77])
      [.openCache "c" (.config ⟨some Path.dot, 20⟩) .weightedSum none .none,
        .onCache "c" (.set (.text "a") [1, 2, 3, 4, 5, 6, 7, 8]),
        .onCache "c" (.get (.text "a") (some "held"))]
    let m := reading.machine
    (evict Machine.host Path.dot 4 m).1 = 0 ∧
      (set Machine.host cache ⟨"b"⟩ [8, 7, 6, 5, 4, 3, 2, 1] m).1 = .stored 12 ∧
      cache.Stored here ⟨"b"⟩ [8, 7, 6, 5, 4, 3, 2, 1] m
        (set Machine.host cache ⟨"b"⟩ [8, 7, 6, 5, 4, 3, 2, 1] m).2 := by
  intro cache here reading m
  have horderly : reading.Orderly := Session.orderly_finish (.start _) _
  refine ⟨by decide +kernel, set_stores_and_reads_back rfl Digest.sized_weightedSum
    (by decide +kernel) horderly.wellFormed ?_ ?_ ?_ ?_ ?_ ?_⟩ <;> decide +kernel

/-- By a path that is as long as a path may be no file can be created. -/
theorem set_fails_by_long_path :
    ¬∀ (cache : Cache) (path : Path) (budget : UInt64) (m : Machine) (location : Location)
        (key : Key) (blob : Bytes),
      cache.state = .enabled path budget → cache.digest.Sized → 0 < cache.digest.size →
      m.fs.WellFormed → m.fs.Leads path location → key.IsName →
      key.fileName.length ≤ FileSystem.nameLimit →
      m.fs.tree.get? (location.child key.fileName) = none → blob ≠ [] →
      blob.length ≤ budget.toNat →
      (set Machine.host cache key blob m).1 = .stored (blob.length + cache.digest.size) := by
  intro h
  have hstored := h ⟨.enabled longPath 100, .weightedSum, 0⟩ longPath 100
    (Session.start [0x77]).machine (Location.top.child [0x77]) ⟨"a"⟩ [1] rfl
    Digest.sized_weightedSum (by decide +kernel) (FileSystem.wellFormed_initial _)
    (by decide +kernel) (by decide +kernel) (by decide +kernel) (by decide +kernel)
    (by decide +kernel) (by decide +kernel)
  revert hstored
  decide +kernel

/-! ## A blob under the name of a bad entry -/

section bad

variable (hwf : m.fs.WellFormed) (hlead : m.fs.Leads path location)
  (hdir : cache.state.directory? = some path) (hname : key.IsName)
  (hgranted : m.fs.granted (entryPath path key) .shared = .ok id)

include hwf hlead hdir hname hgranted

/-- An entry that can be opened and is missed has been removed, unless it is empty. -/
theorem fs_of_missed (hne : m.fs.contents id ≠ [])
    (hmiss : (get Machine.host cache key m).1 = none) :
    (get Machine.host cache key m).2.fs =
      m.fs.spent.unbind (location.child key.fileName) := by
  rw [get_eq hwf hlead hdir hname, hgranted] at hmiss ⊢
  simp only at hmiss ⊢
  rcases hcheck : Entry.check cache.digest (entryPath path key) (m.fs.contents id) with
    error | length
  · simp only [Entry.isCorrupt_of_check hne hcheck, if_true]
    rfl
  · rw [hcheck] at hmiss
    cases hmiss

/-- An empty entry is missed and left alone. -/
theorem get_of_empty (hempty : m.fs.contents id = []) :
    (get Machine.host cache key m).1 = none ∧
      (get Machine.host cache key m).2.fs = m.fs.spent := by
  rw [get_eq hwf hlead hdir hname, hgranted]
  simp only [hempty]
  exact ⟨rfl, rfl⟩

end bad

/-- If there is room for a blob, nothing comes before adding an entry for it. -/
theorem set_of_room (hstate : cache.state = .enabled path budget) (hlead : m.fs.Leads path location)
    (hname : key.IsName) (hne : blob ≠ [])
    (hroom : m.fs.totalIn location + (blob.length + cache.digest.size) ≤ budget.toNat) :
    set Machine.host cache key blob m =
      addEntry Machine.host cache.digest path (m.fs.totalIn location) key blob m := by
  have hsize : Entry.totalSize (m.fs.entriesIn location) + (blob.length + cache.digest.size) ≤
      budget.toNat := hroom
  rw [set_of_fits hstate hname hne (by omega), makeRoom_eq hlead, if_pos hsize]
  rfl

/-- A blob is not stored over an entry for which no room has to be made. -/
theorem set_of_bound (hstate : cache.state = .enabled path budget) (hwf : m.fs.WellFormed)
    (hlead : m.fs.Leads path location) (hname : key.IsName)
    (hfit : FileSystem.Fits path key.fileName) {node : Node}
    (hget : m.fs.tree.get? (location.child key.fileName) = some node) (hne : blob ≠ [])
    (hroom : m.fs.totalIn location + (blob.length + cache.digest.size) ≤ budget.toNat) :
    (set Machine.host cache key blob m).1 = .skipped .alreadyCached ∧
      (set Machine.host cache key blob m).2.fs = m.fs := by
  rw [set_of_room hstate hlead hname hne hroom, addEntry_eq hwf hlead hname hne,
    FileSystem.under_eq_ok_iff.mpr ⟨hfit, hget⟩]
  exact ⟨rfl, rfl⟩

/-- An entry that is not empty and is missed has been removed, so a blob can be stored in its place
and is found from then on. An empty one is left alone, and it keeps its name from being used as long
as no room has to be made. -/
theorem set_after_miss (hstate : cache.state = .enabled path budget) (hsized : cache.digest.Sized)
    (hpos : 0 < cache.digest.size) (hwf : m.fs.WellFormed) (hlead : m.fs.Leads path location)
    (hname : key.IsName) (hstands : m.fs.ownNodeAt (entryPath path key) = .ok (place, .file id))
    (hsingle : m.fs.linkCount (.file id) = 1) (hlocks : m.fs.locksOn id = [])
    (hne : blob ≠ []) (hbudget : blob.length ≤ budget.toNat) :
    let missed := (get Machine.host cache key m).2
    let after := (set Machine.host cache key blob missed).2
    (m.fs.contents id ≠ [] → (get Machine.host cache key m).1 = none →
        (set Machine.host cache key blob missed).1 =
            .stored (blob.length + cache.digest.size) ∧
          ∃ handle, (get Machine.host cache key after).1 = some (.mapped handle blob.length) ∧
            ((Blob.mapped handle blob.length).read Machine.host
              (get Machine.host cache key after).2).1 = blob) ∧
      (m.fs.contents id = [] →
        (get Machine.host cache key m).1 = none ∧ missed.fs.tree = m.fs.tree ∧
          (m.fs.totalIn location + (blob.length + cache.digest.size) ≤ budget.toNat →
            (set Machine.host cache key blob missed).1 = .skipped .alreadyCached ∧
              after.fs.tree = m.fs.tree)) := by
  intro missed after
  have hdir : cache.state.directory? = some path := by rw [hstate]; rfl
  obtain ⟨hfit, hget⟩ := FileSystem.of_ownNodeAt_join hlead hname hstands
  have hgranted : m.fs.granted (entryPath path key) .shared = .ok id :=
    FileSystem.granted_of_unlocked hlead hname hfit hget (Nat.le_of_eq hsingle) hlocks _
  constructor
  · intro hcontent hmiss
    have hfs : missed.fs = m.fs.spent.unbind (location.child key.fileName) :=
      fs_of_missed hwf hlead hdir hname hgranted hcontent hmiss
    have hcalm : m.fs.Calm location missed.fs := by
      rw [hfs]
      exact (FileSystem.Calm.spent location m.fs).trans (.unbind hget)
    have hwf' := hcalm.wellFormed hwf
    have hlead' := hcalm.leads hlead
    have hfree : missed.fs.tree.get? (location.child key.fileName) = none := by
      rw [hfs]
      exact Table.get?_erase_self _ _
    obtain ⟨gone, hgone, hstored, hafter⟩ := set_eq_storing hstate hsized hpos hwf' hlead' hname
      hfit hfree hne hbudget
    have hread := stored_of_storing hsized hwf' hname hfit.2 hfree hne hgone hafter
    exact ⟨hstored, hread.read cache path rfl hdir hlead' hfit⟩
  · intro hcontent
    obtain ⟨hmiss, hfs⟩ := get_of_empty hwf hlead hdir hname hgranted hcontent
    have hkept : missed.fs = m.fs.spent := hfs
    have htree : missed.fs.tree = m.fs.tree := by rw [hkept]; rfl
    refine ⟨hmiss, htree, fun hroom => ?_⟩
    obtain ⟨hskipped, hsame⟩ := set_of_bound hstate (hkept ▸ hwf.spent) (hkept ▸ hlead.spent) hname
      hfit (by rw [hkept]; exact hget) hne (by rw [hkept]; exact hroom)
    exact ⟨hskipped, (congrArg FileSystem.tree hsame).trans htree⟩

/-- A torn entry of three bytes is missed, and then a blob takes its place. -/
theorem set_after_torn_entry :
    let cache : Cache := ⟨.enabled Path.dot 100, .weightedSum, 0⟩
    let place := (Location.top.child [0x77]).child (Key.fileName ⟨"a"⟩)
    let torn := Session.finish (.start [0x77])
      [.openCache "c" (.config ⟨some Path.dot, 100⟩) .weightedSum none .none,
        .meddle (.write (entryPath Path.dot ⟨"a"⟩) [1, 2, 3] none)]
    let missed := (get Machine.host cache ⟨"a"⟩ torn.machine).2
    let after := (set Machine.host cache ⟨"a"⟩ [7, 8] missed).2
    torn.machine.fs.ownNodeAt (entryPath Path.dot ⟨"a"⟩) = .ok (place, .file 0) ∧
      (get Machine.host cache ⟨"a"⟩ torn.machine).1 = none ∧
      (set Machine.host cache ⟨"a"⟩ [7, 8] missed).1 = .stored 6 ∧
      ∃ handle, (get Machine.host cache ⟨"a"⟩ after).1 = some (.mapped handle 2) ∧
        ((Blob.mapped handle 2).read Machine.host (get Machine.host cache ⟨"a"⟩ after).2).1 =
          [7, 8] := by
  intro cache place torn missed after
  have horderly : torn.Orderly := Session.orderly_finish (.start _) _
  have hstands : torn.machine.fs.ownNodeAt (entryPath Path.dot ⟨"a"⟩) = .ok (place, .file 0) := by
    decide +kernel
  have hmiss : (get Machine.host cache ⟨"a"⟩ torn.machine).1 = none := by decide +kernel
  have hlead : torn.machine.fs.Leads Path.dot (Location.top.child [0x77]) := by decide +kernel
  refine ⟨hstands, hmiss, (set_after_miss rfl Digest.sized_weightedSum (by decide +kernel)
    horderly.wellFormed hlead ?_ hstands ?_ ?_ ?_ ?_).1 ?_ hmiss⟩ <;> decide +kernel

/-- An empty entry blocks its key: it is missed, and yet no blob is stored in its place. -/
theorem set_blocked_by_empty_entry :
    ¬∀ (cache : Cache) (path : Path) (budget : UInt64) (m : Machine) (location : Location)
        (key : Key) (place : Location) (id : FileId) (blob : Bytes),
      cache.state = .enabled path budget → cache.digest.Sized → 0 < cache.digest.size →
      m.fs.WellFormed → m.fs.Leads path location → key.IsName →
      m.fs.ownNodeAt (entryPath path key) = .ok (place, .file id) →
      m.fs.linkCount (.file id) = 1 → m.fs.locksOn id = [] → blob ≠ [] →
      blob.length ≤ budget.toNat → (get Machine.host cache key m).1 = none →
      (set Machine.host cache key blob (get Machine.host cache key m).2).1 =
        .stored (blob.length + cache.digest.size) := by
  intro h
  let emptied := Session.finish (.start [0x77])
    [.openCache "c" (.config ⟨some Path.dot, 100⟩) .weightedSum none .none,
      .meddle (.write (entryPath Path.dot ⟨"a"⟩) [] none)]
  have horderly : emptied.Orderly := Session.orderly_finish (.start _) _
  have hstored := h ⟨.enabled Path.dot 100, .weightedSum, 0⟩ Path.dot 100 emptied.machine
    (Location.top.child [0x77]) ⟨"a"⟩ ((Location.top.child [0x77]).child (Key.fileName ⟨"a"⟩)) 0
    [7, 8] rfl Digest.sized_weightedSum (by decide +kernel) horderly.wellFormed (by decide +kernel)
    (by decide +kernel) (by decide +kernel) (by decide +kernel) (by decide +kernel)
    (by decide +kernel) (by decide +kernel) (by decide +kernel)
  revert hstored
  decide +kernel

end Cache

end BlobCache
