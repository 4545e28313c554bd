import BlobCache.Proofs.Budget
import BlobCache.Proofs.Eviction
import BlobCache.Proofs.PartialWrites
import BlobCache.Session.Step

/-!
# What storing does to the entries that are there

Room is made before the new entry is created, and only then does it show whether its name is taken.
So a blob that is not stored may have cost other entries, and an entry may make way for a new one
with the same key.

* `set_keeps_entry_iff`: an entry survives a blob with its own key, unless it can be evicted and
  the entries used before it do not make enough room.
* `unstored_spec`: a `set` that stores nothing leaves nothing written, and what it takes away is
  what `Cache.clearedFor` says, if it gets so far as to make room.
-/

namespace BlobCache

namespace FileSystem

variable {fs : FileSystem} {path : Path} {location : Location} {gone : List Entry}

/-! ## Once entries have gone -/

/-- A file system stays well formed without some entries. -/
theorem WellFormed.without (h : fs.WellFormed) (location : Location) (gone : List Entry) :
    (fs.without location gone).WellFormed where
  file_lt place id hget := by
    rw [get?_without] at hget
    split at hget
    · cases hget
    · exact Nat.lt_add_right _ (h.file_lt place id hget)
  handle_lt handle file hget := Nat.lt_add_right _ (h.handle_lt handle file hget)
  open_lt handle file hget := Nat.lt_add_right _ (h.open_lt handle file hget)
  named directory name id hget := by
    rw [get?_without] at hget
    split at hget
    · cases hget
    · exact h.named directory name id hget

/-- Where only files have gone, paths lead where they led. -/
theorem Leads.without (h : fs.Leads path location)
    (hgone : ∀ entry ∈ gone, entry ∈ fs.entriesIn location) :
    (fs.without location gone).Leads path location := by
  refine h.mono rfl fun place node hget hfile => ?_
  rw [get?_without, if_neg, hget]
  intro hmem
  obtain ⟨entry, hentry, rfl⟩ := List.mem_map.mp hmem
  obtain ⟨id, hid, -⟩ := mem_entriesIn.mp (hgone entry hentry)
  rw [placeOf, hid] at hget
  exact hfile id (Option.some.inj hget).symm

end FileSystem

namespace Cache

variable {location : Location} {path : Path} {m : Machine} {cache : Cache} {budget : UInt64}
  {key : Key} {blob : Bytes} {id : FileId}

/-- What makes way is an entry of the directory. -/
theorem mem_entriesIn_of_mem_makingWay {fs : FileSystem} {budget added : Nat} {entry : Entry}
    (h : entry ∈ makingWay fs path location budget added) : entry ∈ fs.entriesIn location :=
  (FileSystem.mem_candidates.mp (mem_candidates_of_mem_makingWay h)).1

/-- Where room was made, new entries can be looked for as before. -/
theorem makeRoom_leaves (hwf : m.fs.WellFormed) (hlead : m.fs.Leads path location)
    (budget added : Nat) :
    ∃ size roomy, makeRoom Machine.host path budget added m = (size, roomy) ∧
      roomy.fs = m.fs.without location (makingWay m.fs path location budget added) ∧
      roomy.fs.WellFormed ∧ roomy.fs.Leads path location := by
  obtain ⟨-, hfs⟩ := makeRoom_eq_makingWay hwf hlead budget added
  refine ⟨_, _, rfl, hfs, ?_, ?_⟩
  · exact hfs ▸ hwf.without location _
  · exact hfs ▸ hlead.without fun _ => mem_entriesIn_of_mem_makingWay

/-! ## A blob under the key of an entry -/

/-- A blob that passes the tests gets an entry of its own once room was made. -/
theorem set_of_fits (hstate : cache.state = .enabled path budget) (hname : key.IsName)
    (hne : blob ≠ []) (hfits : blob.length ≤ budget.toNat) (m : Machine) :
    set Machine.host cache key blob m =
      addEntry Machine.host cache.digest path
        (makeRoom Machine.host path budget.toNat (blob.length + cache.digest.size) m).1 key blob
        (makeRoom Machine.host path budget.toNat (blob.length + cache.digest.size) m).2 := by
  unfold set
  simp [hstate, Key.not_isEmpty_of_isName hname, hne, Nat.not_lt.mpr hfits]

/-- Storing keeps the file system well formed and its directory where it is. -/
theorem set_leaves (hstate : cache.state = .enabled path budget) (hwf : m.fs.WellFormed)
    (hlead : m.fs.Leads path location) (hname : key.IsName) (blob : Bytes) :
    (set Machine.host cache key blob m).2.fs.WellFormed ∧
      (set Machine.host cache key blob m).2.fs.Leads path location := by
  have hlead' : ∀ other, cache.state.directory? = some other → m.fs.Leads other location := by
    intro other hdir
    rw [hstate] at hdir
    cases hdir
    exact hlead
  rcases set_spec hwf hlead' (Or.inr hname) blob with ⟨hcalm, -⟩ | ⟨_, -, -, hstores⟩
  · exact ⟨hcalm.wellFormed hwf, hcalm.leads hlead⟩
  · exact ⟨hstores.wellFormed hwf, hstores.leads hlead⟩

/-- An entry that does not make way stays as it is, and nothing is stored under its key. -/
theorem set_of_not_mem_makingWay (hstate : cache.state = .enabled path budget)
    (hwf : m.fs.WellFormed) (hlead : m.fs.Leads path location)
    (hget : m.fs.tree.get? (location.child key.fileName) = some (.file id))
    (hnot : blob ≠ [] → blob.length ≤ budget.toNat → m.fs.entryUnder key.text id ∉
      makingWay m.fs path location budget.toNat (blob.length + cache.digest.size)) :
    (∀ size, (set Machine.host cache key blob m).1 ≠ .stored size) ∧
      (set Machine.host cache key blob m).2.fs.tree.get? (location.child key.fileName) =
        some (.file id) ∧
      (set Machine.host cache key blob m).2.fs.contents id = m.fs.contents id := by
  rcases set_cases cache key blob m with
    ⟨reason, m', heq, hm'⟩ | ⟨path', budget', hstate', -, hne, hfits, heq⟩
  · rw [heq]
    rcases hm' with rfl | ⟨_, rfl⟩
    · exact ⟨fun size e => (nomatch e), hget, rfl⟩
    · exact ⟨fun size e => (nomatch e), hget, rfl⟩
  rw [hstate] at hstate'
  cases hstate'
  have hname : key.IsName := (hwf.named _ _ _ hget).1
  obtain ⟨size, roomy, hroom, hfs, hwf', hlead'⟩ := makeRoom_leaves hwf hlead budget.toNat
    (blob.length + cache.digest.size)
  have hkept : roomy.fs.tree.get? (location.child key.fileName) = some (.file id) := by
    rw [hfs, FileSystem.get?_without, if_neg, hget]
    intro hmem
    obtain ⟨entry, hentry, hplace⟩ := List.mem_map.mp hmem
    obtain ⟨other, hother, heq⟩ :=
      FileSystem.mem_entriesIn.mp (mem_entriesIn_of_mem_makingWay hentry)
    have hsame : entry.name = key.text := Utf8.encode_injective (Location.child_inj.mp hplace).2
    rw [hsame] at hother heq
    have hid : some (Node.file id) = some (.file other) := hget.symm.trans hother
    cases hid
    exact hnot hne hfits (heq ▸ hentry)
  have hcontents : roomy.fs.contents id = m.fs.contents id := by
    rw [hfs]
    rfl
  rw [heq, hroom, addEntry_eq hwf' hlead' hname hne]
  rcases hunder : roomy.fs.under path location key.fileName with cause | _ | node
  · exact ⟨outcomeOfRefusal_ne_stored _, hkept, hcontents⟩
  · rw [(FileSystem.under_eq_ok_iff.mp hunder).2] at hkept
    cases hkept
  · exact ⟨fun size e => (nomatch e), hkept, hcontents⟩

/-- An entry that makes way is not there afterwards; at best another file is. -/
theorem set_of_mem_makingWay (hstate : cache.state = .enabled path budget)
    (hwf : m.fs.WellFormed) (hlead : m.fs.Leads path location)
    (hget : m.fs.tree.get? (location.child key.fileName) = some (.file id))
    (hne : blob ≠ []) (hfits : blob.length ≤ budget.toNat)
    (hmem : m.fs.entryUnder key.text id ∈
      makingWay m.fs path location budget.toNat (blob.length + cache.digest.size)) :
    (set Machine.host cache key blob m).2.fs.tree.get? (location.child key.fileName) ≠
      some (.file id) := by
  have hname : key.IsName := (hwf.named _ _ _ hget).1
  obtain ⟨size, roomy, hroom, hfs, hwf', hlead'⟩ := makeRoom_leaves hwf hlead budget.toNat
    (blob.length + cache.digest.size)
  have hfree : roomy.fs.tree.get? (location.child key.fileName) = none := by
    rw [hfs, FileSystem.get?_without, if_pos]
    exact List.mem_map.mpr ⟨_, hmem, rfl⟩
  have hfit : FileSystem.Fits path key.fileName := by
    obtain ⟨found, hgranted⟩ := FileSystem.evictable_iff.mp
      (FileSystem.mem_candidates.mp (mem_candidates_of_mem_makingWay hmem)).2
    exact ((FileSystem.granted_eq_ok_iff hlead hname).mp hgranted).1
  -- the identity of a new file was not given out yet
  have hfresh : roomy.fs.next ≠ id := by
    have hle : m.fs.next ≤ roomy.fs.next := by
      rw [hfs]
      exact Nat.le_add_right _ _
    exact Nat.ne_of_gt (Nat.lt_of_lt_of_le (hwf.file_lt _ _ hget) hle)
  rw [set_of_fits hstate hname hne hfits, hroom, addEntry_eq hwf' hlead' hname hne,
    FileSystem.under_eq_ok_iff.mpr ⟨hfit, hfree⟩]
  by_cases hsum : cache.digest.of blob = []
  · simp only [hsum, if_true, Machine.fs_noting, Machine.fs_withFiles]
    rw [FileSystem.unbind_storing hfree]
    simp [hfree]
  · simp only [hsum, if_false, Machine.fs_noting, Machine.fs_withFiles]
    rw [FileSystem.get?_storing, if_pos rfl]
    simpa using hfresh

/-- An entry survives a blob with its own key, unless that blob is to be stored, the entry can be
evicted, and the entries that are evicted before it do not make enough room. -/
theorem set_keeps_entry_iff (hstate : cache.state = .enabled path budget)
    (hwf : m.fs.WellFormed) (hlead : m.fs.Leads path location)
    (hget : m.fs.tree.get? (location.child key.fileName) = some (.file id)) (blob : Bytes) :
    ((∀ size, (set Machine.host cache key blob m).1 ≠ .stored size) ∧
        (set Machine.host cache key blob m).2.fs.tree.get? (location.child key.fileName) =
          some (.file id) ∧
        (set Machine.host cache key blob m).2.fs.contents id = m.fs.contents id) ↔
      ¬(blob ≠ [] ∧ blob.length ≤ budget.toNat ∧
        m.fs.evictable path (m.fs.entryUnder key.text id) = true ∧
        budget.toNat + Entry.totalSize ((m.fs.candidates path location).takeWhile
            fun other => other.name ≠ key.text) <
          m.fs.totalIn location + (blob.length + cache.digest.size)) := by
  have hentry : m.fs.entryUnder key.text id ∈ m.fs.entriesIn location :=
    FileSystem.mem_entriesIn.mpr ⟨id, hget, rfl⟩
  have hway := mem_makingWay_iff hentry path budget.toNat (blob.length + cache.digest.size)
  constructor
  · rintro ⟨-, hkept, -⟩ ⟨hne, hfits, hmem⟩
    exact set_of_mem_makingWay hstate hwf hlead hget hne hfits (hway.mpr hmem) hkept
  · intro hnot
    refine set_of_not_mem_makingWay hstate hwf hlead hget fun hne hfits hmem => ?_
    exact hnot ⟨hne, hfits, hway.mp hmem⟩

/-- In a budget of twenty bytes an entry of twelve that somebody reads stays, although a second blob
of eight would need its room. -/
theorem set_keeps_entry_in_use :
    let cache : Cache := ⟨.enabled Path.dot 20, .weightedSum, 0⟩
    let here := Location.top.child [0x77]
    let place := here.child (Key.fileName ⟨"a"⟩)
    let m := (get Machine.host cache ⟨"a"⟩
      (set Machine.host cache ⟨"a"⟩ [1, 2, 3, 4, 5, 6, 7, 8] (Session.start [0x77]).machine).2).2
    m.fs.tree.get? place = some (.file 0) ∧
      (∀ size, (set Machine.host cache ⟨"a"⟩ [8, 7, 6, 5, 4, 3, 2, 1] m).1 ≠ .stored size) ∧
      (set Machine.host cache ⟨"a"⟩ [8, 7, 6, 5, 4, 3, 2, 1] m).2.fs.tree.get? place =
        some (.file 0) ∧
      (set Machine.host cache ⟨"a"⟩ [8, 7, 6, 5, 4, 3, 2, 1] m).2.fs.contents 0 =
        m.fs.contents 0 := by
  intro cache here place m
  have hstate : cache.state = .enabled Path.dot 20 := rfl
  have ha : Key.IsName ⟨"a"⟩ := by decide +kernel
  have hlead : (Session.start [0x77]).machine.fs.Leads Path.dot here := by decide +kernel
  obtain ⟨hwf, hlead⟩ := set_leaves hstate (FileSystem.wellFormed_initial _) hlead ha
    [1, 2, 3, 4, 5, 6, 7, 8]
  have hread : Machine.Calm cache.digest here _ m :=
    get_calm Digest.sized_weightedSum hwf (fun _ hdir => Option.some.inj hdir ▸ hlead) (Or.inr ha)
  have hwf' : m.fs.WellFormed := hread.wellFormed hwf
  have hlead' : m.fs.Leads Path.dot here := hread.leads hlead
  have hget : m.fs.tree.get? place = some (.file 0) := by decide +kernel
  refine ⟨hget, (set_keeps_entry_iff hstate hwf' hlead' hget _).mpr ?_⟩
  decide +kernel

/-- An entry may make way for a blob with its own key: in a budget of twenty bytes a second blob of
eight takes the place of the first. -/
theorem set_replaces_entry :
    ¬∀ (cache : Cache) (path : Path) (budget : UInt64) (m : Machine) (location : Location)
        (key : Key) (id : FileId) (blob : Bytes),
      cache.state = .enabled path budget → m.fs.WellFormed → m.fs.Leads path location →
      m.fs.tree.get? (location.child key.fileName) = some (.file id) →
      (∀ size, (set Machine.host cache key blob m).1 ≠ .stored size) ∧
        (set Machine.host cache key blob m).2.fs.tree.get? (location.child key.fileName) =
          some (.file id) ∧
        (set Machine.host cache key blob m).2.fs.contents id = m.fs.contents id := by
  intro h
  have hstate : (⟨.enabled Path.dot 20, .weightedSum, 0⟩ : Cache).state = .enabled Path.dot 20 :=
    rfl
  have ha : Key.IsName ⟨"a"⟩ := by decide +kernel
  have hlead : (Session.start [0x77]).machine.fs.Leads Path.dot (Location.top.child [0x77]) := by
    decide +kernel
  obtain ⟨hwf, hlead⟩ := set_leaves hstate (FileSystem.wellFormed_initial _) hlead ha
    [1, 2, 3, 4, 5, 6, 7, 8]
  refine (h _ _ _ _ _ ⟨"a"⟩ 0 [8, 7, 6, 5, 4, 3, 2, 1] hstate hwf hlead ?_).1 12 ?_
  · decide +kernel
  · decide +kernel

/-! ## A blob that is not stored -/

/-- The names that make way when this blob is to be stored. -/
def clearedFor (cache : Cache) (fs : FileSystem) (blob : Bytes) : List Location :=
  match cache.state with
  | .disabled => []
  | .enabled path budget =>
    match fs.nodeAt path with
    | .ok (location, .directory) =>
      (makingWay fs path location budget.toNat (blob.length + cache.digest.size)).map
        (FileSystem.placeOf location)
    | _ => []

/-- In a directory that is there, what makes way is cleared. -/
theorem clearedFor_of_leads (hstate : cache.state = .enabled path budget)
    (hlead : m.fs.Leads path location) (blob : Bytes) :
    cache.clearedFor m.fs blob =
      (makingWay m.fs path location budget.toNat (blob.length + cache.digest.size)).map
        (FileSystem.placeOf location) := by
  unfold clearedFor
  rw [hstate]
  simp only [show m.fs.nodeAt path = .ok (location, .directory) from hlead]

/-- Where there is no directory, nothing is cleared. -/
theorem clearedFor_of_not_leads (hstate : cache.state = .enabled path budget)
    (hnot : ¬∃ location, m.fs.Leads path location) (blob : Bytes) :
    cache.clearedFor m.fs blob = [] := by
  unfold clearedFor
  simp only [hstate]
  rcases hnode : m.fs.nodeAt path with cause | ⟨location, _ | _ | _⟩
  · rfl
  · exact absurd ⟨location, hnode⟩ hnot
  · rfl
  · rfl

/-- From one file system to another no name has changed, and no file that was there. -/
structure SameEntries (fs fs' : FileSystem) : Prop where
  /-- Every name stands for what it stood for. -/
  get?_eq : ∀ place, fs'.tree.get? place = fs.tree.get? place
  /-- Every file has the content that it had. -/
  contents_eq : ∀ id, id < fs.next → fs'.contents id = fs.contents id

/-- Where nothing happens, all entries are the same. -/
theorem SameEntries.refl (fs : FileSystem) : SameEntries fs fs := ⟨fun _ => rfl, fun _ _ => rfl⟩

/-- Where the path leads to no directory, no entry is made. -/
theorem addEntry_of_not_leads {digest : Digest}
    (write : HandleId → Bytes → StateM Machine (Except StoreError Unit)) (hpath : path ≠ [])
    (hname : key.IsName) (hnot : ¬∃ location, m.fs.Leads path location) (size : Nat) :
    ∃ error, addEntry (Machine.writing write) digest path size key blob m =
      (outcomeOfRefusal error, m.noting (.notCreated key error)) := by
  rcases hmade : (m.fs.createEntry (entryPath path key)).1 with error | handle
  · exact ⟨error, addEntry_of_refused write hmade size⟩
  · exact absurd (FileSystem.leads_of_createEntry hpath hname hmade) hnot

/-- An entry that could not be made, or not written as a whole, has left nothing behind. -/
theorem addEntry_unstored {digest : Digest} (write : Nat → Option Nat) (hwf : m.fs.WellFormed)
    (hpath : path ≠ []) (hname : key.IsName) (hne : blob ≠ []) {size : Nat}
    (h : ∀ stored, (addEntry (Machine.writing (Machine.tearing write)) digest path size key blob
      m).1 ≠ .stored stored) :
    SameEntries m.fs
      (addEntry (Machine.writing (Machine.tearing write)) digest path size key blob m).2.fs := by
  rcases hmade : (m.fs.createEntry (entryPath path key)).1 with error | handle
  · rw [addEntry_of_refused _ hmade]
    exact .refl _
  obtain ⟨location, hlead⟩ := FileSystem.leads_of_createEntry hpath hname hmade
  rw [entryPath, FileSystem.createEntry_join hlead hname] at hmade
  rcases hunder : m.fs.under path location key.fileName with cause | _ | node <;>
    rw [hunder] at hmade
  · cases hmade
  · obtain ⟨hfit, hfree⟩ := FileSystem.under_eq_ok_iff.mp hunder
    rw [addEntry_torn hwf hlead hname hne hfit hfree] at h ⊢
    rcases htorn : Faults.torn write digest (entryPath path key) blob with _ | ⟨part, error⟩ <;>
      simp only [htorn] at h ⊢
    · exact absurd rfl (h _)
    · rw [Machine.fs_noting, Machine.fs_withFiles, FileSystem.unbind_storing hfree]
      exact ⟨fun _ => rfl, (FileSystem.Calm.addLost location m.fs _ 2).contents_eq⟩
  · cases hmade

/-- Where room was made, the names have gone that had to, and nothing else has changed. -/
theorem makeRoom_clears (hstate : cache.state = .enabled path budget) (hwf : m.fs.WellFormed)
    (blob : Bytes) :
    ∃ size roomy, makeRoom Machine.host path budget.toNat (blob.length + cache.digest.size) m =
        (size, roomy) ∧ roomy.fs.WellFormed ∧ m.fs.next ≤ roomy.fs.next ∧
      (∀ place, roomy.fs.tree.get? place =
        if place ∈ cache.clearedFor m.fs blob then none else m.fs.tree.get? place) ∧
      ∀ id, roomy.fs.contents id = m.fs.contents id := by
  by_cases hlead : ∃ location, m.fs.Leads path location
  · obtain ⟨location, hlead⟩ := hlead
    obtain ⟨size, roomy, hroom, hfs, hwf', -⟩ := makeRoom_leaves hwf hlead budget.toNat
      (blob.length + cache.digest.size)
    refine ⟨size, roomy, hroom, hwf', ?_, fun place => ?_, fun id => ?_⟩
    · rw [hfs]
      exact Nat.le_add_right _ _
    · rw [hfs, FileSystem.get?_without, clearedFor_of_leads hstate hlead]
    · rw [hfs]
      rfl
  · have hfs := makeRoom_fs_of_not_leads hlead budget.toNat (blob.length + cache.digest.size)
    rcases hroom : makeRoom Machine.host path budget.toNat (blob.length + cache.digest.size) m
      with ⟨size, roomy⟩
    rw [hroom] at hfs
    have hfs : roomy.fs = m.fs := hfs
    refine ⟨size, roomy, rfl, hfs ▸ hwf, Nat.le_of_eq (by rw [hfs]), fun place => ?_,
      fun id => by rw [hfs]⟩
    rw [hfs, clearedFor_of_not_leads hstate hlead, if_neg List.not_mem_nil]

/-- What a `set` that stores nothing comes to: either it gave up before it made room, and the files
are as they were, or the names that make way have gone, and nothing else has changed. -/
theorem set_unstored_cases (write : Nat → Option Nat) (hpath : cache.state.directory? ≠ some [])
    (hwf : m.fs.WellFormed) (hkey : key = .empty ∨ key.IsName)
    (h : ∀ size, (set (Machine.faultyHost (.ofWrites write)) cache key blob m).1 ≠ .stored size) :
    ((∃ reason, (set (Machine.faultyHost (.ofWrites write)) cache key blob m).1 =
          .skipped reason) ∧
        (set (Machine.faultyHost (.ofWrites write)) cache key blob m).2.fs = m.fs) ∨
      (cache.state.isEnabled = true ∧ key ≠ .empty ∧ blob ≠ [] ∧
        blob.length ≤ cache.state.budget.toNat) ∧
      (∀ place, (set (Machine.faultyHost (.ofWrites write)) cache key blob m).2.fs.tree.get? place =
        if place ∈ cache.clearedFor m.fs blob then none else m.fs.tree.get? place) ∧
      ∀ id, id < m.fs.next →
        (set (Machine.faultyHost (.ofWrites write)) cache key blob m).2.fs.contents id =
          m.fs.contents id := by
  rw [Machine.faultyHost_ofWrites] at h ⊢
  rcases set_writing_cases (Machine.tearing write) cache key blob m with
    ⟨reason, m', heq, hm'⟩ | ⟨path, budget, hstate, hnonempty, hne, hfits, heq⟩
  · left
    rw [heq]
    rcases hm' with rfl | ⟨_, rfl⟩
    · exact ⟨⟨reason, rfl⟩, rfl⟩
    · exact ⟨⟨reason, rfl⟩, rfl⟩
  right
  have hnotEmpty : key ≠ .empty := fun e => by rw [e] at hnonempty; cases hnonempty
  have hname : key.IsName := hkey.resolve_left hnotEmpty
  have hpath' : path ≠ [] := by
    rintro rfl
    exact hpath (by rw [hstate]; rfl)
  obtain ⟨size, roomy, hroom, hwf', hnext, htree, hcontents⟩ := makeRoom_clears hstate hwf blob
  rw [heq, hroom] at h
  have hsame := addEntry_unstored write hwf' hpath' hname hne h
  rw [heq, hroom, hstate]
  refine ⟨⟨rfl, hnotEmpty, hne, hfits⟩, fun place => ?_, fun id hlt => ?_⟩
  · exact (hsame.get?_eq place).trans (htree place)
  · exact (hsame.contents_eq id (Nat.lt_of_lt_of_le hlt hnext)).trans (hcontents id)

/-- A `set` that stores nothing adds no name and changes no content, also if a write fails after
some of its bytes. It changes nothing at all if it is refused before room is made, or if no room has
to be made; and if it fails after that, exactly the names have gone that made way. In every case
either these have gone or none. -/
theorem unstored_spec (write : Nat → Option Nat) (hpath : cache.state.directory? ≠ some [])
    (hwf : m.fs.WellFormed) (hkey : key = .empty ∨ key.IsName)
    (h : ∀ size, (set (Machine.faultyHost (.ofWrites write)) cache key blob m).1 ≠ .stored size) :
    let after := (set (Machine.faultyHost (.ofWrites write)) cache key blob m).2
    (∀ place node, after.fs.tree.get? place = some node → m.fs.tree.get? place = some node) ∧
      (∀ id, id < m.fs.next → after.fs.contents id = m.fs.contents id) ∧
      (cache.state.isEnabled = false ∨ key = .empty ∨ blob = [] ∨
          cache.state.budget.toNat < blob.length →
        after.fs = m.fs) ∧
      (cache.clearedFor m.fs blob = [] → ∀ place,
        after.fs.tree.get? place = m.fs.tree.get? place) ∧
      ((set (Machine.faultyHost (.ofWrites write)) cache key blob m).1 = .failed → ∀ place,
        after.fs.tree.get? place =
          if place ∈ cache.clearedFor m.fs blob then none else m.fs.tree.get? place) ∧
      ((∀ place, after.fs.tree.get? place = m.fs.tree.get? place) ∨ ∀ place,
        after.fs.tree.get? place =
          if place ∈ cache.clearedFor m.fs blob then none else m.fs.tree.get? place) := by
  intro after
  rcases set_unstored_cases write hpath hwf hkey h with
    ⟨⟨reason, hreason⟩, hfs⟩ | ⟨⟨henabled, hkey', hne, hfits⟩, htree, hcontents⟩
  · have hfs : after.fs = m.fs := hfs
    rw [hfs, hreason]
    exact ⟨fun _ _ hget => hget, fun _ _ => rfl, fun _ => rfl, fun _ _ => rfl,
      SetOutcome.noConfusion, Or.inl fun _ => rfl⟩
  · have htree : ∀ place, after.fs.tree.get? place =
      if place ∈ cache.clearedFor m.fs blob then none else m.fs.tree.get? place := htree
    refine ⟨fun place node hget => ?_, hcontents, fun hearly => ?_, fun hnone place => ?_,
      fun _ => htree, Or.inr htree⟩
    · rw [htree] at hget
      split at hget
      · cases hget
      · exact hget
    · rcases hearly with hdisabled | hempty | hnil | hbig
      · rw [henabled] at hdisabled
        cases hdisabled
      · exact absurd hempty hkey'
      · exact absurd hnil hne
      · omega
    · rw [htree, hnone, if_neg List.not_mem_nil]

/-- A name of 256 characters. -/
def longKey : Key := ⟨String.ofList (List.replicate 256 'x')⟩

/-- A path of 4095 bytes to the working directory. No name fits behind it. -/
@[irreducible]
def longPath : Path := Path.dot ++ List.replicate 4094 Path.slash

/-- An entry of twelve bytes makes way for a blob of which one byte can be written and then no more.
The blob is not stored, and just that entry has gone. -/
theorem unstored_of_torn_write :
    let cache : Cache := ⟨.enabled Path.dot 20, .weightedSum, 0⟩
    let here := Location.top.child [0x77]
    let m := (set Machine.host cache ⟨"a"⟩ [1, 2, 3, 4, 5, 6, 7, 8]
      (Session.start [0x77]).machine).2
    let torn := set (Machine.faultyHost (.ofWrites fun _ => some 1)) cache ⟨"b"⟩
      [8, 7, 6, 5, 4, 3, 2, 1] m
    torn.1 = .failed ∧
      m.fs.tree.get? (here.child (Key.fileName ⟨"a"⟩)) = some (.file 0) ∧
      torn.2.fs.tree.get? (here.child (Key.fileName ⟨"a"⟩)) = none ∧
      torn.2.fs.tree.get? (here.child (Key.fileName ⟨"b"⟩)) = none := by
  intro cache here m torn
  have hstate : cache.state = .enabled Path.dot 20 := rfl
  have ha : Key.IsName ⟨"a"⟩ := by decide +kernel
  have hb : Key.IsName ⟨"b"⟩ := by decide +kernel
  have hlead : (Session.start [0x77]).machine.fs.Leads Path.dot here := by decide +kernel
  obtain ⟨hwf, -⟩ := set_leaves hstate (FileSystem.wellFormed_initial _) hlead ha
    [1, 2, 3, 4, 5, 6, 7, 8]
  have hpath : cache.state.directory? ≠ some [] := by decide
  have hfailed : torn.1 = .failed := by decide +kernel
  have hspec := unstored_spec (fun _ => some 1) hpath hwf (Or.inr hb)
    (fun size => by rw [hfailed]; exact SetOutcome.noConfusion)
  have hexact := hspec.2.2.2.2.1 hfailed
  refine ⟨hfailed, by decide +kernel, ?_, ?_⟩
  · exact (hexact _).trans (by decide +kernel)
  · exact (hexact _).trans (by decide +kernel)

/-- A blob that is not stored may cost another entry: room is made for it before its name turns out
to be too long. -/
theorem unstored_evicts :
    ¬∀ (cache : Cache) (m : Machine) (key : Key) (blob : Bytes),
      cache.state.directory? ≠ some [] → m.fs.WellFormed → key = .empty ∨ key.IsName →
      (∀ size, (set Machine.host cache key blob m).1 ≠ .stored size) →
      ∀ place, (set Machine.host cache key blob m).2.fs.tree.get? place = m.fs.tree.get? place := by
  intro h
  have hstate : (⟨.enabled Path.dot 20, .weightedSum, 0⟩ : Cache).state = .enabled Path.dot 20 :=
    rfl
  have ha : Key.IsName ⟨"a"⟩ := by decide +kernel
  have hlead : (Session.start [0x77]).machine.fs.Leads Path.dot (Location.top.child [0x77]) := by
    decide +kernel
  obtain ⟨hwf, -⟩ := set_leaves hstate (FileSystem.wellFormed_initial _) hlead ha
    [1, 2, 3, 4, 5, 6, 7, 8]
  have hfailed : (set Machine.host ⟨.enabled Path.dot 20, .weightedSum, 0⟩ longKey
      [8, 7, 6, 5, 4, 3, 2, 1] (set Machine.host ⟨.enabled Path.dot 20, .weightedSum, 0⟩ ⟨"a"⟩
        [1, 2, 3, 4, 5, 6, 7, 8] (Session.start [0x77]).machine).2).1 = .failed := by
    decide +kernel
  have hsame := h ⟨.enabled Path.dot 20, .weightedSum, 0⟩ _ longKey [8, 7, 6, 5, 4, 3, 2, 1]
    (by decide) hwf (Or.inr (by decide +kernel))
    (fun size => by rw [hfailed]; exact SetOutcome.noConfusion)
    ((Location.top.child [0x77]).child (Key.fileName ⟨"a"⟩))
  revert hsame
  decide +kernel

end Cache

end BlobCache
