import BlobCache.Proofs.Finding
import BlobCache.Proofs.Keeping
import BlobCache.Proofs.Pinning

/-!
# What a cache leaves alone

A cache is let loose on a directory in which anything may stand: links, directories, files with
several names or with names that are no text. It takes away lone files of the directory
(`FileSystem.Lone`) and makes at most one new one, and that is all that it does to the tree.

* `FileSystem.Sheds`: some lone files have lost their name. Looking up, looking around, evicting and
  checking come to no more than that.
* `FileSystem.Contained`: the same, and perhaps a blob was stored, or the file of an entry that was
  found has another access time. No file that was there is written.
* `Session.operations_contained`: whatever is asked of a cache in a reachable session is contained.

Where the path of the cache leads to no directory, nothing happens at all.
-/

namespace BlobCache

namespace FileSystem

/-! ## Lone files -/

/-- A file right in the directory that the path leads to, under a name that is text and is its only
one. -/
structure Lone (fs : FileSystem) (path : Path) (place : Location) (id : FileId) : Prop where
  /-- It stands in the directory, and its name is text. -/
  inside : ∃ location text, fs.Leads path location ∧ place = location.child (Path.ofText text)
  /-- It is a file. -/
  stands : fs.tree.get? place = some (.file id)
  /-- It has no other name. -/
  single : fs.linkCount (.file id) = 1

section lone

variable {fs : FileSystem} {path : Path} {place location : Location} {id : FileId}

/-- What is opened as an entry is a lone file. -/
theorem lone_of_granted {text : String} (hlead : fs.Leads path location)
    (hname : Path.IsName (Path.ofText text)) {lock : Lock}
    (h : fs.granted (Path.join path (Path.ofText text)) lock = .ok id) :
    fs.Lone path (location.child (Path.ofText text)) id := by
  obtain ⟨-, hget, hlinks, -⟩ := (granted_eq_ok_iff hlead hname).mp h
  exact ⟨⟨location, text, hlead, rfl⟩, hget, Nat.le_antisymm hlinks (one_le_linkCount hget)⟩

/-- Whether a file is one is a matter of the tree. -/
theorem Lone.congr {fs' : FileSystem} (h : fs.Lone path place id) (htree : fs'.tree = fs.tree)
    (hcurrent : fs'.current = fs.current) : fs'.Lone path place id where
  inside := by
    obtain ⟨location, text, hlead, hplace⟩ := h.inside
    exact ⟨location, text, hlead.mono hcurrent fun _ _ hget _ => by rwa [htree], hplace⟩
  stands := by
    rw [htree]
    exact h.stands
  single := by
    unfold linkCount
    rw [htree]
    exact h.single

/-- Nothing is opened as an entry behind a path that leads to no directory. -/
theorem leads_of_granted {name : Bytes} (hpath : path ≠ []) (hname : Path.IsName name) {lock : Lock}
    (h : fs.granted (Path.join path name) lock = .ok id) : ∃ location, fs.Leads path location := by
  obtain ⟨place, hown⟩ := openNode_eq_file_iff.mp (of_granted h).1
  obtain ⟨parent, last, hlast, -, -⟩ := ownNodeAt_eq_file_iff.mp hown
  exact ⟨parent, leads_of_resolveLast_join hpath hname hlast⟩

end lone

/-! ## Losing lone files -/

/-- Identities may be used up at any time. -/
theorem WellFormed.withNext {fs : FileSystem} (h : fs.WellFormed) {next : Nat}
    (hnext : fs.next ≤ next) : ({ fs with next := next } : FileSystem).WellFormed where
  file_lt place id hget := Nat.lt_of_lt_of_le (h.file_lt place id hget) hnext
  handle_lt handle file hget := Nat.lt_of_lt_of_le (h.handle_lt handle file hget) hnext
  open_lt handle file hget := Nat.lt_of_lt_of_le (h.open_lt handle file hget) hnext
  named := h.named

/-- Some lone files of the directory have lost their name, and nothing else has changed. -/
structure Sheds (path : Path) (fs fs' : FileSystem) : Prop where
  /-- The working directory is the same. -/
  current_eq : fs'.current = fs.current
  /-- Identities are only ever used up. -/
  next_le : fs.next ≤ fs'.next
  /-- What stood somewhere still does, or it was a lone file. -/
  places : ∀ place, fs'.tree.get? place = fs.tree.get? place ∨
    fs'.tree.get? place = none ∧ ∃ id, fs.Lone path place id
  /-- Files with other names keep them. -/
  links_eq : ∀ id, fs.linkCount (.file id) ≠ 1 →
    fs'.linkCount (.file id) = fs.linkCount (.file id)
  /-- No file has changed, not even its access time. -/
  files_eq : fs'.files = fs.files
  /-- What is open was opened under an identity that was given out. -/
  wellFormed : fs.WellFormed → fs'.WellFormed

namespace Sheds

variable {path : Path} {fs fs' fs'' : FileSystem}

/-- Nothing is lost where the tree is the same. -/
theorem of_eq (hcurrent : fs'.current = fs.current) (hnext : fs.next ≤ fs'.next)
    (htree : fs'.tree = fs.tree) (hfiles : fs'.files = fs.files)
    (hwf : fs.WellFormed → fs'.WellFormed) : fs.Sheds path fs' where
  current_eq := hcurrent
  next_le := hnext
  places _ := Or.inl (by rw [htree])
  links_eq _ _ := by
    unfold linkCount
    rw [htree]
  files_eq := hfiles
  wellFormed := hwf

/-- To do nothing sheds nothing. -/
theorem refl (path : Path) (fs : FileSystem) : fs.Sheds path fs :=
  of_eq rfl (Nat.le_refl _) rfl rfl id

/-- That an identity is given out sheds nothing. -/
theorem spent (path : Path) (fs : FileSystem) : fs.Sheds path fs.spent :=
  of_eq rfl (Nat.le_succ _) rfl rfl fun hwf => hwf.spent

/-- Names were taken away, and each was that of a lone file. -/
theorem filter {keep : Location × Node → Bool} {next : Nat} (hnext : fs.next ≤ next)
    (hlone : ∀ place node, fs.tree.get? place = some node → keep (place, node) = false →
      ∃ id, fs.Lone path place id) :
    fs.Sheds path { fs with tree := fs.tree.filter keep, next := next } where
  current_eq := rfl
  next_le := hnext
  places place := by
    show (fs.tree.filter keep).get? place = _ ∨ (fs.tree.filter keep).get? place = none ∧ _
    rw [Table.get?_filter]
    rcases hget : fs.tree.get? place with _ | node
    · exact Or.inl rfl
    rcases hkeep : keep (place, node) with _ | _
    · exact Or.inr ⟨by simp [hkeep], hlone place node hget hkeep⟩
    · exact Or.inl (by simp [hkeep])
  links_eq id hother := by
    unfold linkCount Table.filter
    rw [List.countP_filter]
    refine List.countP_congr fun row hrow => ?_
    simp only [Bool.and_eq_true, decide_eq_true_eq, and_iff_left_iff_imp]
    -- a name that goes is the only one of its file
    intro hnode
    have hget : fs.tree.get? row.1 = some (.file id) := Table.mem_rows_iff.mp (hnode ▸ hrow)
    by_contra hgone
    obtain ⟨lost, hlost⟩ := hlone row.1 row.2 (hnode ▸ hget) (by simpa using hgone)
    have hsame : lost = id := Node.file.inj (Option.some.inj (hlost.stands.symm.trans hget))
    exact hother (hsame ▸ hlost.single)
  files_eq := rfl
  wellFormed hwf := (hwf.filter keep).withNext hnext

/-- A lone file was removed. -/
theorem unbind {place : Location} {id : FileId} (h : fs.Lone path place id) :
    fs.Sheds path (fs.spent.unbind place) := by
  refine filter (Nat.le_succ _) fun other node _ hgone => ?_
  have hplace : other = place := by simpa using hgone
  exact ⟨id, hplace ▸ h⟩

/-- Lone files were evicted. -/
theorem without {location : Location} {gone : List Entry}
    (h : ∀ entry ∈ gone, ∃ id, fs.Lone path (placeOf location entry) id) :
    fs.Sheds path (fs.without location gone) := by
  refine filter (Nat.le_add_right _ _) fun place node _ hgone => ?_
  have hmem : place ∈ gone.map (placeOf location) := by simpa using hgone
  obtain ⟨entry, hentry, rfl⟩ := List.mem_map.mp hmem
  exact h entry hentry

/-- Paths lead where they led before. -/
theorem leads_iff (h : fs.Sheds path fs') {other : Path} {location : Location} :
    fs'.Leads other location ↔ fs.Leads other location := by
  constructor
  · refine fun hlead => hlead.mono h.current_eq.symm fun place node hget _ => ?_
    rcases h.places place with hsame | ⟨hnone, -⟩
    · rw [← hsame]
      exact hget
    · rw [hnone] at hget
      cases hget
  · refine fun hlead => hlead.mono h.current_eq fun place node hget hfile => ?_
    rcases h.places place with hsame | ⟨-, id, hlone⟩
    · rw [hsame]
      exact hget
    · exact absurd (Option.some.inj (hget.symm.trans hlone.stands)) (hfile id)

/-- What is a lone file now was one before. -/
theorem lone (h : fs.Sheds path fs') {place : Location} {id : FileId}
    (h' : fs'.Lone path place id) : fs.Lone path place id where
  inside := by
    obtain ⟨location, text, hlead, hplace⟩ := h'.inside
    exact ⟨location, text, h.leads_iff.mp hlead, hplace⟩
  stands := by
    rcases h.places place with hsame | ⟨hnone, -⟩
    · exact hsame.symm.trans h'.stands
    · exact absurd (hnone.symm.trans h'.stands) (by simp)
  single := by
    by_contra hother
    exact hother ((h.links_eq id hother).symm.trans h'.single)

/-- Entries can be shed one after another. -/
theorem trans (h : fs.Sheds path fs') (h' : fs'.Sheds path fs'') : fs.Sheds path fs'' where
  current_eq := h'.current_eq.trans h.current_eq
  next_le := Nat.le_trans h.next_le h'.next_le
  places place := by
    rcases h'.places place with hsame | ⟨hnone, id, hlone⟩
    · rw [hsame]
      exact h.places place
    · exact Or.inr ⟨hnone, id, h.lone hlone⟩
  links_eq id hother := by
    have hmid := h.links_eq id hother
    exact (h'.links_eq id (hmid ▸ hother)).trans hmid
  files_eq := h'.files_eq.trans h.files_eq
  wellFormed hwf := h'.wellFormed (h.wellFormed hwf)

end Sheds

/-! ## Contained changes -/

/-- All that has happened to the files is what a cache behind this path may do. `stored` is the key
and the blob that it has stored, if it has. -/
structure Contained (digest : Digest) (path : Path) (stored : Option (Key × Bytes))
    (fs fs' : FileSystem) : Prop where
  /-- The working directory is the same. -/
  current_eq : fs'.current = fs.current
  /-- Identities are only ever used up. -/
  next_le : fs.next ≤ fs'.next
  /-- What stood somewhere still does, and where nothing stood nothing does, but for lone files that
  have gone and for the place of the blob that was stored. -/
  places : ∀ place, fs'.tree.get? place = fs.tree.get? place ∨
    (fs'.tree.get? place = none ∧ ∃ id, fs.Lone path place id) ∨
    ∃ location key blob, fs.Leads path location ∧ stored = some (key, blob) ∧
      place = location.child key.fileName
  /-- A blob that was stored is in a new lone file, named by its key, that holds it with its
  checksum and nothing else. If anything had that name before, it was a lone file. -/
  made : ∀ key blob, stored = some (key, blob) → ∃ location id, fs.Leads path location ∧
    (fs.tree.get? (location.child key.fileName) = none ∨
      ∃ old, fs.Lone path (location.child key.fileName) old) ∧
    fs.next ≤ id ∧ fs'.Lone path (location.child key.fileName) id ∧
    fs'.contents id = Entry.encode digest blob
  /-- Whatever has become of its names, no file that was there has changed. Only the access time of
  a lone file may be another. -/
  files : ∀ id, id < fs.next → fs'.files.get? id = fs.files.get? id ∨
    ∃ place time, fs.Lone path place id ∧
      fs'.files.get? id = (fs.files.get? id).map fun file => { file with accessed := time }

section contained

variable {digest : Digest} {path : Path} {stored : Option (Key × Bytes)} {fs fs' fs'' : FileSystem}

/-- What only sheds entries is contained, and stores nothing. -/
theorem Sheds.contained (h : fs.Sheds path fs') : fs.Contained digest path none fs' where
  current_eq := h.current_eq
  next_le := h.next_le
  places place := (h.places place).imp_right Or.inl
  made _ _ e := by cases e
  files id _ := Or.inl (by rw [h.files_eq])

/-- Lone files may have gone before. -/
theorem Contained.after_sheds (h : fs.Sheds path fs')
    (h' : fs'.Contained digest path stored fs'') : fs.Contained digest path stored fs'' where
  current_eq := h'.current_eq.trans h.current_eq
  next_le := Nat.le_trans h.next_le h'.next_le
  places place := by
    rcases h'.places place with hsame | ⟨hnone, id, hlone⟩ | ⟨location, key, blob, hlead, hstored⟩
    · rw [hsame]
      exact (h.places place).imp_right Or.inl
    · exact Or.inr (Or.inl ⟨hnone, id, h.lone hlone⟩)
    · exact Or.inr (Or.inr ⟨location, key, blob, h.leads_iff.mp hlead, hstored⟩)
  made key blob e := by
    obtain ⟨location, id, hlead, hbefore, hnext, hafter⟩ := h'.made key blob e
    refine ⟨location, id, h.leads_iff.mp hlead, ?_, Nat.le_trans h.next_le hnext, hafter⟩
    rcases hbefore with hfree | ⟨old, hlone⟩
    · rcases h.places (location.child key.fileName) with hsame | ⟨-, gone⟩
      · exact Or.inl (hsame.symm.trans hfree)
      · exact Or.inr gone
    · exact Or.inr ⟨old, h.lone hlone⟩
  files id hlt := by
    rcases h'.files id (Nat.lt_of_lt_of_le hlt h.next_le) with hsame | ⟨place, time, hlone, hdated⟩
    · exact Or.inl (by rw [hsame, h.files_eq])
    · exact Or.inr ⟨place, time, h.lone hlone, by rw [hdated, h.files_eq]⟩

/-- Open files may come and go afterwards. -/
theorem Contained.withHandles (h : fs.Contained digest path stored fs')
    (handles : Table HandleId OpenFile) :
    fs.Contained digest path stored { fs' with handles := handles } where
  current_eq := h.current_eq
  next_le := h.next_le
  places := h.places
  made key blob e := by
    obtain ⟨location, id, hlead, hbefore, hnext, hlone, hcontents⟩ := h.made key blob e
    exact ⟨location, id, hlead, hbefore, hnext, hlone.congr rfl rfl, hcontents⟩
  files := h.files

/-- A lone file got another access time. -/
theorem contained_setAccessTime {place : Location} {id : FileId} (h : fs.Lone path place id)
    (time : Int) : fs.Contained digest path none (fs.setAccessTime id time) where
  current_eq := rfl
  next_le := Nat.le_refl _
  places _ := Or.inl rfl
  made _ _ e := by cases e
  files other _ := by
    unfold setAccessTime modifyFile
    by_cases hother : other = id
    · subst hother
      exact Or.inr ⟨place, time, h, by rw [Table.get?_modify, if_pos rfl]⟩
    · exact Or.inl (by rw [Table.get?_modify, if_neg hother])

/-- A file was made that has no name any more. -/
theorem contained_lost (file : FileData) (count : Nat) :
    fs.Contained digest path none
      { fs with files := fs.files.set fs.next file, next := fs.next + count } where
  current_eq := rfl
  next_le := Nat.le_add_right _ _
  places _ := Or.inl rfl
  made _ _ e := by cases e
  files _ hlt := Or.inl (Table.get?_set_ne _ (Nat.ne_of_lt hlt) _)

/-- A blob was stored under a name that was free. -/
theorem contained_storing (hwf : fs.WellFormed) {location : Location}
    (hlead : fs.Leads path location) {key : Key}
    (hfree : fs.tree.get? (location.child key.fileName) = none) (blob : Bytes) :
    fs.Contained digest path (some (key, blob))
      (fs.storing (location.child key.fileName) (Entry.encode digest blob)) where
  current_eq := rfl
  next_le := Nat.le_add_right _ 2
  places place := by
    rw [get?_storing]
    by_cases hplace : place = location.child key.fileName
    · exact Or.inr (Or.inr ⟨location, key, blob, hlead, rfl, hplace⟩)
    · exact Or.inl (if_neg hplace)
  made key' blob' e := by
    cases e
    have hstands : (fs.storing (location.child key.fileName) (Entry.encode digest blob)).tree.get?
        (location.child key.fileName) = some (.file fs.next) := Table.get?_set_self _ _ _
    refine ⟨location, fs.next, hlead, Or.inl hfree, Nat.le_refl _, ⟨?_, hstands, ?_⟩,
      contents_storing_self fs _ _⟩
    · exact ⟨location, key.text, hlead.storing hfree _, rfl⟩
    · exact Nat.le_antisymm (linkCount_storing_self hwf) (one_le_linkCount hstands)
  files _ hlt := Or.inl (Table.get?_set_ne _ (Nat.ne_of_lt hlt) _)

/-- Everything but lone files stays where it is. -/
theorem Contained.kept (h : fs.Contained digest path stored fs') {place : Location} {node : Node}
    (hget : fs.tree.get? place = some node) (hnot : ∀ id, ¬fs.Lone path place id) :
    fs'.tree.get? place = some node := by
  rcases h.places place with hsame | ⟨-, id, hlone⟩ | ⟨location, key, blob, hlead, hstored, rfl⟩
  · exact hsame.trans hget
  · exact absurd hlone (hnot id)
  · obtain ⟨other, -, hlead', hbefore, -⟩ := h.made key blob hstored
    obtain rfl : other = location :=
      (Prod.mk.inj (Except.ok.inj (hlead'.symm.trans hlead))).1
    rcases hbefore with hfree | ⟨old, hlone⟩
    · rw [hfree] at hget
      cases hget
    · exact absurd hlone (hnot old)

end contained

end FileSystem

namespace Cache

variable {m : Machine} {cache : Cache} {path : Path} {location : Location} {key : Key}

/-! ## Looking up and looking around -/

/-- Getting an entry sheds it at most. -/
theorem get_sheds (hwf : m.fs.WellFormed) (hdir : cache.state.directory? = some path)
    (hpath : path ≠ []) (hkey : key = .empty ∨ key.IsName) :
    m.fs.Sheds path (get Machine.host cache key m).2.fs := by
  rcases hkey with rfl | hname
  · rw [get_empty]
    exact .refl _ _
  by_cases hlead : ∃ location, m.fs.Leads path location
  · obtain ⟨location, hlead⟩ := hlead
    rw [get_eq hwf hlead hdir hname]
    rcases hgranted : m.fs.granted (entryPath path key) .shared with error | id
    · exact .refl _ _
    rcases hcheck : Entry.check cache.digest (entryPath path key) (m.fs.contents id) with
      error | length
    · by_cases hcorrupt : error.isCorrupt = true
      · simp only [hcheck, hcorrupt, if_true]
        exact .unbind (FileSystem.lone_of_granted hlead hname hgranted)
      · simp only [hcheck, hcorrupt]
        exact .spent _ _
    · simp only [hcheck]
      have hget := (FileSystem.lone_of_granted hlead hname hgranted).stands
      have hcalm : m.fs.Calm location (m.fs.holding (entryPath path key) id) := .holding hget _
      exact .of_eq rfl (Nat.le_succ _) rfl rfl hcalm.wellFormed
  · -- no entry is opened where there is no directory
    have hnone : ∀ place id, ¬m.fs.Readable (entryPath path key) place id := by
      intro place id h
      exact hlead (FileSystem.leads_of_granted hpath hname
        (FileSystem.granted_shared_eq_ok_iff.mpr ⟨place, h⟩))
    obtain ⟨fs, event, hfs, hget⟩ := get_of_neither hwf hdir (Key.not_isEmpty_of_isName hname)
      (fun place id _ h => absurd h (hnone place id)) fun place id h => absurd h (hnone place id)
    rw [hget]
    rcases hfs with rfl | rfl
    · exact .refl _ _
    · exact .spent _ _

/-- The size of a directory is found out without shedding anything. -/
theorem size_sheds (hdir : cache.state.directory? = some path) :
    m.fs.Sheds path (size Machine.host cache m).2.fs := by
  unfold size
  simp only [hdir, sizeOf_fs]
  exact .refl _ _

/-- So is the list of its entries. -/
theorem entries_sheds (hdir : cache.state.directory? = some path) :
    m.fs.Sheds path (entries Machine.host cache m).2.fs := by
  unfold entries
  simp only [hdir, entriesOf_fs]
  exact .refl _ _

/-! ## Evicting -/

/-- Whatever can be evicted is a lone file. -/
theorem lone_of_mem_candidates (hwf : m.fs.WellFormed) (hlead : m.fs.Leads path location)
    {entry : Entry} (h : entry ∈ m.fs.candidates path location) :
    ∃ id, m.fs.Lone path (FileSystem.placeOf location entry) id := by
  obtain ⟨hmem, hevictable⟩ := FileSystem.mem_candidates.mp h
  obtain ⟨_, hget, -⟩ := FileSystem.mem_entriesIn.mp hmem
  obtain ⟨id, hgranted⟩ := FileSystem.evictable_iff.mp hevictable
  exact ⟨id, FileSystem.lone_of_granted hlead (hwf.named _ _ _ hget).1 hgranted⟩

/-- An eviction sheds entries of its directory. -/
theorem evict_sheds (hwf : m.fs.WellFormed) (path : Path) (needed : Nat) :
    m.fs.Sheds path (evict Machine.host path needed m).2.fs := by
  by_cases hlead : ∃ location, m.fs.Leads path location
  · obtain ⟨location, hlead⟩ := hlead
    rw [(evict_eq_victims hwf hlead needed).2]
    exact .without fun entry hmem =>
      lone_of_mem_candidates hwf hlead (Entry.victims_subset _ _ hmem)
  · rw [evict_fs_of_not_leads hlead]
    exact .refl _ _

/-- Making room sheds entries of its directory. -/
theorem makeRoom_sheds (hwf : m.fs.WellFormed) (path : Path) (budget added : Nat) :
    m.fs.Sheds path (makeRoom Machine.host path budget added m).2.fs := by
  by_cases hlead : ∃ location, m.fs.Leads path location
  · obtain ⟨location, hlead⟩ := hlead
    rw [(makeRoom_eq_makingWay hwf hlead budget added).2]
    exact .without fun entry hmem =>
      lone_of_mem_candidates hwf hlead (mem_candidates_of_mem_makingWay hmem)
  · rw [makeRoom_fs_of_not_leads hlead]
    exact .refl _ _

/-- Trimming sheds entries of the directory. -/
theorem trim_sheds (hwf : m.fs.WellFormed) (hdir : cache.state.directory? = some path) :
    m.fs.Sheds path (trim Machine.host cache m).2.fs := by
  have hsize := sizeOf_fs path m
  unfold trim
  simp only [hdir, Machine.run_bind]
  generalize sizeOf Machine.host path m = listed at hsize ⊢
  obtain ⟨size, after⟩ := listed
  have hfs : m.fs = after.fs := Eq.symm hsize
  rw [hfs]
  dsimp only
  split
  · exact .refl _ _
  · exact evict_sheds (hfs ▸ hwf) path _

/-- Clearing sheds entries of the directory. -/
theorem clear_sheds (hwf : m.fs.WellFormed) (hdir : cache.state.directory? = some path) :
    m.fs.Sheds path (clear Machine.host cache m).2.fs := by
  unfold clear
  rw [hdir]
  exact evict_sheds hwf path _

/-! ## Checking -/

/-- Going through entries to check them sheds the damaged ones. -/
theorem verifyFrom_sheds {digest : Digest} (hwf : m.fs.WellFormed)
    (hlead : m.fs.Leads path location) {entries : List Entry}
    (hnames : ∀ entry ∈ entries, Path.IsName (Path.ofText entry.name)) (found : VerifyReport) :
    m.fs.Sheds path (verifyFrom Machine.host digest path entries found m).2.fs := by
  induction entries generalizing m found with
  | nil => exact .refl _ _
  | cons entry rest ih =>
      have hname := hnames entry List.mem_cons_self
      have hthen : ∀ m' : Machine, m.fs.Sheds path m'.fs → ∀ found,
          m.fs.Sheds path (verifyFrom Machine.host digest path rest found m').2.fs :=
        fun _ hsheds found => hsheds.trans (ih (hsheds.wellFormed hwf)
          (hsheds.leads_iff.mpr hlead)
          (fun other hmem => hnames other (List.mem_cons_of_mem _ hmem)) found)
      rw [verifyFrom_cons hwf hlead hname]
      rcases hgranted : m.fs.granted (Path.join path (Path.ofText entry.name)) .shared with
        error | id
      · exact hthen (m.noting _) (.refl _ _) _
      have hlone := FileSystem.lone_of_granted hlead hname hgranted
      rcases hcheck : Entry.check digest (Path.join path (Path.ofText entry.name))
          (m.fs.contents id) with error | length
      · by_cases hcorrupt : error.isCorrupt = true
        · simp only [hcheck, hcorrupt, if_true]
          exact hthen _ (.unbind hlone) _
        · simp only [hcheck, hcorrupt]
          exact hthen _ (.spent _ _) _
      · simp only [hcheck]
        exact hthen _ (.spent _ _) _

/-- A check sheds entries of the directory. -/
theorem verify_sheds (hwf : m.fs.WellFormed) (hdir : cache.state.directory? = some path) :
    m.fs.Sheds path (verify Machine.host cache m).2.fs := by
  unfold verify
  simp only [hdir, Machine.run_bind]
  by_cases hlead : ∃ location, m.fs.Leads path location
  · obtain ⟨location, hlead⟩ := hlead
    rw [entriesOf_eq hlead]
    exact verifyFrom_sheds hwf hlead (fun _ => isName_of_mem_entriesIn hwf) _
  · obtain ⟨error, h⟩ := entriesOf_of_not_leads hlead
    rw [h]
    exact .refl _ _

/-! ## Storing -/

/-- What the answer to storing a blob says was stored. -/
def storedBy (key : Key) (blob : Bytes) : SetOutcome → Option (Key × Bytes)
  | .stored _ => some (key, blob)
  | _ => none

/-- What is refused is not stored. -/
theorem storedBy_of_refusal (key : Key) (blob : Bytes) (error : StoreError) :
    storedBy key blob (outcomeOfRefusal error) = none := by
  rcases h : outcomeOfRefusal error with size | reason | _
  · exact absurd h (outcomeOfRefusal_ne_stored error size)
  · rfl
  · rfl

/-- Adding an entry binds one free name if it stores the blob, and else nothing. -/
theorem addEntry_contained {digest : Digest} (hwf : m.fs.WellFormed) (hpath : path ≠ [])
    (hname : key.IsName) {blob : Bytes} (hne : blob ≠ []) (size : Nat) :
    m.fs.Contained digest path
      (storedBy key blob (addEntry Machine.host digest path size key blob m).1)
      (addEntry Machine.host digest path size key blob m).2.fs := by
  by_cases hlead : ∃ location, m.fs.Leads path location
  · obtain ⟨location, hlead⟩ := hlead
    rw [addEntry_eq hwf hlead hname hne]
    rcases hunder : m.fs.under path location key.fileName with cause | _ | node
    · simp only [storedBy_of_refusal]
      exact (FileSystem.Sheds.refl _ _).contained
    · obtain ⟨-, hfree⟩ := FileSystem.under_eq_ok_iff.mp hunder
      by_cases hsum : digest.of blob = []
      · simp only [hsum, if_true, FileSystem.unbind_storing hfree]
        exact FileSystem.contained_lost _ 2
      · simp only [hsum, if_false]
        exact FileSystem.contained_storing hwf hlead hfree blob
    · exact (FileSystem.Sheds.refl _ _).contained
  · obtain ⟨error, h⟩ : ∃ error, addEntry Machine.host digest path size key blob m =
      (outcomeOfRefusal error, m.noting (.notCreated key error)) :=
        addEntry_of_not_leads Machine.host.write hpath hname hlead size
    rw [h, storedBy_of_refusal]
    exact (FileSystem.Sheds.refl _ _).contained

/-- Storing a blob sheds entries and adds one if it stores the blob. -/
theorem set_contained (hwf : m.fs.WellFormed) (hdir : cache.state.directory? = some path)
    (hpath : path ≠ []) (hkey : key = .empty ∨ key.IsName) (blob : Bytes) :
    m.fs.Contained cache.digest path (storedBy key blob (set Machine.host cache key blob m).1)
      (set Machine.host cache key blob m).2.fs := by
  rcases set_cases cache key blob m with
    ⟨reason, m', heq, hm'⟩ | ⟨other, budget, hstate, hnonempty, hne, -, heq⟩
  · rw [heq]
    rcases hm' with rfl | ⟨budget, rfl⟩ <;> exact (FileSystem.Sheds.refl _ _).contained
  have hname : key.IsName := hkey.resolve_left fun e => by rw [e] at hnonempty; cases hnonempty
  obtain rfl : other = path := by
    rw [hstate] at hdir
    exact Option.some.inj hdir
  have hsheds := makeRoom_sheds hwf other budget.toNat (blob.length + cache.digest.size)
  rw [heq]
  exact (addEntry_contained (hsheds.wellFormed hwf) hpath hname hne _).after_sheds hsheds

/-! ## Loading -/

/-- Offering a blob is as contained as storing it. -/
theorem offer_contained (hwf : m.fs.WellFormed) (hdir : cache.state.directory? = some path)
    (hpath : path ≠ []) (hkey : key = .empty ∨ key.IsName) (blob : Bytes) :
    m.fs.Contained cache.digest path
      (if (offer Machine.host cache key blob m).1 = .stored then some (key, blob) else none)
      (offer Machine.host cache key blob m).2.fs := by
  have hset := set_contained hwf hdir hpath hkey blob
  unfold offer
  rw [Machine.run_bind]
  generalize set Machine.host cache key blob m = outcome at hset ⊢
  obtain ⟨size | reason | _, after⟩ := outcome <;> exact hset

end Cache

namespace Session

variable {m : Machine} {cache : Cache} {path : Path} {key : Key}

/-- The access time that an entry gets when it is found is that of a lone file. -/
theorem lookUp_contained (hwf : m.fs.WellFormed) (hdir : cache.state.directory? = some path)
    (hpath : path ≠ []) (hkey : key = .empty ∨ key.IsName) :
    m.fs.Contained cache.digest path none (lookUp Machine.host cache key m).2.fs := by
  have hsheds := Cache.get_sheds hwf hdir hpath hkey
  rcases hget : (Cache.get Machine.host cache key m).1 with _ | blob
  · have hsame : (lookUp Machine.host cache key m).2 = (Cache.get Machine.host cache key m).2 := by
      unfold lookUp
      rw [Machine.run_bind, hget]
      rfl
    rw [hsame]
    exact hsheds.contained
  obtain ⟨other, id, length, hdir', hname, hgranted, -, -, hafter⟩ :=
    Cache.get_found hwf hkey hget
  obtain rfl : other = path := Option.some.inj (hdir'.symm.trans hdir)
  obtain ⟨location, hlead⟩ := FileSystem.leads_of_granted hpath hname hgranted
  obtain ⟨hfit, hbound, -, -⟩ := (FileSystem.granted_eq_ok_iff hlead hname).mp hgranted
  have hlone : (Cache.get Machine.host cache key m).2.fs.Lone other
      (location.child key.fileName) id := by
    rw [hafter]
    exact (FileSystem.lone_of_granted hlead hname hgranted).congr rfl rfl
  have hnode : (Cache.get Machine.host cache key m).2.fs.nodeAt (Cache.entryPath other key) =
      .ok (location.child key.fileName, .file id) :=
    FileSystem.nodeAt_join_of_file (hsheds.leads_iff.mpr hlead) hname hfit hlone.stands
  have hmarked : ∀ after : Machine, after.fs.nodeAt (Cache.entryPath other key) =
      .ok (location.child key.fileName, .file id) →
      (markUsed cache key after).2.fs = after.fs.setAccessTime id after.fs.now := by
    intro after h
    unfold markUsed FileSystem.touch Machine.onFiles
    simp only [hdir, h, except_ok_bind]
    rfl
  rw [lookUp_snd hget, hmarked _ hnode]
  exact (FileSystem.contained_setAccessTime hlone _).after_sheds hsheds

/-- What the answer to a load says was stored. -/
def loadedBy (key : Key) (compiled : Except String Bytes) :
    Except LoadError (Loaded HandleId) → Option (Key × Bytes)
  | .ok ⟨_, .stored⟩ => compiled.toOption.map fun blob => (key, blob)
  | _ => none

/-- Loading a graph is as contained as a look-up and an offer. -/
theorem loadGraph_contained (hwf : m.fs.WellFormed) (hdir : cache.state.directory? = some path)
    (hpath : path ≠ []) (compiler : Option Compiler) (request : Request)
    (compiled : Except String Bytes) :
    m.fs.Contained cache.digest path
      (loadedBy (cache.keyOf compiler request) compiled
        (loadGraph Machine.host cache compiler request compiled m).1)
      (loadGraph Machine.host cache compiler request compiled m).2.fs := by
  have hkey := empty_or_isName_keyOf cache compiler request
  have hsame : ∀ answer, loadedBy (cache.keyOf compiler request) compiled answer = none →
      m.fs.Contained cache.digest path
        (loadedBy (cache.keyOf compiler request) compiled answer) m.fs :=
    fun answer h => h ▸ (FileSystem.Sheds.refl _ _).contained
  unfold loadGraph Cache.load
  by_cases hempty : request.input.isEmpty = true
  · simp only [hempty, if_true]
    exact hsame _ rfl
  by_cases hnative : request.format = .native
  · simp only [hempty, hnative, if_true]
    exact hsame _ rfl
  by_cases hflag : request.flags.contains .disableCaching = true
  · simp only [hempty, hnative, hflag, if_true, if_false]
    cases compiled <;> exact hsame _ rfl
  simp only [hempty, hnative, hflag, Bool.false_eq_true, if_false, Machine.run_bind]
  have hlooked := lookUp_contained hwf hdir hpath hkey
  rcases hget : (Cache.get Machine.host cache (cache.keyOf compiler request) m).1 with _ | blob
  · have hsheds := Cache.get_sheds hwf hdir hpath hkey
    cases compiled with
    | error text => exact hsheds.contained
    | ok bytes =>
        have hoffer := (Cache.offer_contained (m := (Cache.get Machine.host cache
          (cache.keyOf compiler request) m).2.counted) (hsheds.wellFormed hwf) hdir hpath hkey
          bytes).after_sheds hsheds
        have hstatus := offer_ne_hit cache (cache.keyOf compiler request) bytes
          (Cache.get Machine.host cache (cache.keyOf compiler request) m).2.counted
        simp only [Machine.run_bind, Machine.run_pure, Machine.run_countCompilation]
        rw [if_neg hstatus]
        generalize Cache.offer Machine.host cache (cache.keyOf compiler request) bytes
          (Cache.get Machine.host cache (cache.keyOf compiler request) m).2.counted = offered
          at hoffer ⊢
        obtain ⟨_ | _ | _ | _, after⟩ := offered <;> exact hoffer
  · rw [lookUp_snd hget] at hlooked
    exact hlooked

/-! ## Asking a cache -/

/-- Holding a blob and giving one up close files at most. -/
theorem keep_fs (session : Session) (blob : Blob HandleId) (hold : Option String) :
    ∃ handles, (session.keep blob hold).machine.fs =
      { session.machine.fs with handles := handles } := by
  cases hold with
  | none => cases blob <;> exact ⟨_, rfl⟩
  | some name =>
      have hfs : (session.keep blob (some name)).machine.fs = (session.release name).machine.fs :=
        rfl
      rw [hfs]
      unfold release
      rcases session.held.get? name with _ | _ | _ <;> exact ⟨_, rfl⟩

section asking

variable {session : Session} {on : OpenCache} (hwf : session.machine.fs.WellFormed)
  (hfaults : on.faults = .none) (hdir : on.cache.state.directory? = some path) (hpath : path ≠ [])
include hwf hfaults hdir hpath

/-- Whatever key a `get` is for, it is contained. -/
theorem get_contained (source : KeySource) (hold : Option String) :
    session.machine.fs.Contained on.cache.digest path none
      (session.onCache on (.get source hold)).2.machine.fs := by
  rcases hkey : source.key? on.cache with _ | key
  · unfold onCache
    simp only [hkey]
    exact (FileSystem.Sheds.refl _ _).contained
  · have hlooked := lookUp_contained hwf hdir hpath (empty_or_isName_of_key? hkey)
    rw [onCache_get hfaults session hkey]
    rcases (lookUp Machine.host on.cache key session.machine).1 with _ | blob
    · exact hlooked
    · obtain ⟨handles, hkeep⟩ := keep_fs
        (session.withMachine (lookUp Machine.host on.cache key session.machine).2) blob hold
      simp only [hkeep]
      exact hlooked.withHandles handles

/-- Whatever a load is for, it is contained. -/
theorem load_contained (compiler : Option Compiler) (request : Request)
    (compiled : Except String Bytes) (hold : Option String) :
    session.machine.fs.Contained on.cache.digest path
      (on.stored? (.load compiler request compiled hold)
        (session.onCache on (.load compiler request compiled hold)).1)
      (session.onCache on (.load compiler request compiled hold)).2.machine.fs := by
  have hload := loadGraph_contained hwf hdir hpath compiler request compiled
  rw [onCache_load hfaults]
  simp only
  generalize loadGraph Machine.host on.cache compiler request compiled session.machine = loading
    at hload ⊢
  obtain ⟨error | ⟨blob, status⟩, m⟩ := loading
  · exact hload
  · obtain ⟨handles, hkeep⟩ := keep_fs (session.withMachine m) blob hold
    simp only [hkeep]
    cases status <;> exact hload.withHandles handles

/-- Whatever is asked of a cache is contained, and what was stored is what the answer says. -/
theorem onCache_contained (asked : CacheCommand) :
    session.machine.fs.Contained on.cache.digest path
      (on.stored? asked (session.onCache on asked).1)
      (session.onCache on asked).2.machine.fs := by
  have hhost : Machine.faultyHost on.faults = Machine.host := by
    rw [hfaults, Machine.faultyHost_none]
  cases asked with
  | state => exact (FileSystem.Sheds.refl _ _).contained
  | key compiler request => exact (FileSystem.Sheds.refl _ _).contained
  | get source hold =>
      have hnone : on.stored? (.get source hold)
          (session.onCache on (.get source hold)).1 = none := by
        unfold OpenCache.stored?
        split <;> first | rfl | contradiction
      rw [hnone]
      exact get_contained hwf hfaults hdir hpath source hold
  | set source blob =>
      rcases hkey : source.key? on.cache with _ | key
      · unfold onCache
        simp only [hkey]
        exact (FileSystem.Sheds.refl _ _).contained
      have hset := Cache.set_contained hwf hdir hpath (empty_or_isName_of_key? hkey) blob
      rw [onCache_set hfaults session hkey]
      generalize Cache.set Machine.host on.cache key blob session.machine = outcome at hset ⊢
      obtain ⟨size | reason | _, m⟩ := outcome
      · rw [OpenCache.stored?, hkey]
        exact hset
      · exact hset
      · exact hset
  | size => exact (hhost ▸ Cache.size_sheds hdir).contained
  | entries => exact (hhost ▸ Cache.entries_sheds hdir).contained
  | verify => exact (hhost ▸ Cache.verify_sheds hwf hdir).contained
  | trim => exact (hhost ▸ Cache.trim_sheds hwf hdir).contained
  | clear => exact (hhost ▸ Cache.clear_sheds hwf hdir).contained
  | load compiler request compiled hold =>
      exact load_contained hwf hfaults hdir hpath compiler request compiled hold

end asking

/-! ## In every reachable session -/

/-- A cache is opened with a directory only if that has a path. -/
theorem path_ne_nil_of_openCache {source : ConfigSource} {digest : Digest} {version : Option UInt32}
    {faults : Faults}
    (h : (openCache source digest version faults m).1.cache.state.directory? = some path) :
    path ≠ [] := by
  have hconfig : ∀ (config : Config) (m : Machine),
      (CacheState.ofConfig (Machine.faultyHost faults) config m).1.directory? = some path →
        config.usableDirectory = some path := by
    intro config m h
    unfold CacheState.ofConfig at h
    rcases hdir : config.usableDirectory with _ | other <;> rw [hdir] at h
    · cases h
    simp only [Machine.run_bind] at h
    generalize (Machine.faultyHost faults).createDirectories other m = made at h
    obtain ⟨_ | _, after⟩ := made
    · cases h
    · exact h
  obtain ⟨config, husable⟩ : ∃ config : Config, config.usableDirectory = some path := by
    unfold openCache at h
    cases source with
    | config config => exact ⟨config, hconfig config _ h⟩
    | environment env => exact ⟨_, hconfig _ _ h⟩
    | process bindings => exact ⟨_, hconfig _ _ h⟩
  rintro rfl
  obtain ⟨-, hne⟩ := Option.filter_eq_some_iff.mp husable
  cases hne

/-- No cache of a run has the empty path for its directory. -/
theorem path_ne_nil_of_mem_run {directory : Bytes} {commands : List Command} {moment : Moment}
    (hmem : moment ∈ run (start directory) commands) {name : String} {on : OpenCache}
    (hon : moment.before.caches.get? name = some on)
    (hdir : on.cache.state.directory? = some path) : path ≠ [] := by
  have hempty : ∀ name on, (start directory).caches.get? name = some on →
      ∀ path, on.cache.state.directory? = some path → path ≠ [] := by
    intro name on hget
    cases hget
  obtain ⟨-, hall⟩ : _ ∧ ∀ moment ∈ run (start directory) commands, ∀ name on,
      moment.before.caches.get? name = some on →
        ∀ path, on.cache.state.directory? = some path → path ≠ [] := by
    refine invariant_of_run (fun session => ∀ name on, session.caches.get? name = some on →
      ∀ path, on.cache.state.directory? = some path → path ≠ []) hempty ?_
    intro later _ h name on hget path
    rcases later.cache_origin hget with hold | ⟨source, digest, version, faults, -, rfl⟩
    · exact h name on hold path
    · exact path_ne_nil_of_openCache
  exact hall moment hmem name on hon path hdir

/-- Whatever is asked of a cache, it takes away lone files of its directory at most, and makes a new
one only for a blob that it says it has stored. Everything else stays where it is, and no file that
was there is written. -/
theorem operations_contained (directory : Bytes) (commands : List Command) :
    ∀ moment ∈ run (start directory) commands, ∀ name asked on path,
      moment.command = .onCache name asked → moment.before.caches.get? name = some on →
      on.faults = .none → on.cache.state.directory? = some path →
      moment.before.machine.fs.Contained on.cache.digest path moment.stored?
        moment.after.machine.fs ∧
      ∀ place node, moment.before.machine.fs.tree.get? place = some node →
        (∀ id, ¬moment.before.machine.fs.Lone path place id) →
        moment.after.machine.fs.tree.get? place = some node := by
  intro moment hmem name asked on path hcommand hon hfaults hdir
  have hpath := path_ne_nil_of_mem_run hmem hon hdir
  obtain ⟨past, -, -, hbefore⟩ := mem_run hmem
  have horderly : moment.before.Orderly := hbefore ▸ orderly_finish (.start directory) past
  have hcontained : moment.before.machine.fs.Contained on.cache.digest path moment.stored?
      moment.after.machine.fs := by
    obtain ⟨before, command⟩ := moment
    obtain rfl : command = .onCache name asked := hcommand
    have hclock : before.machine.fs.Sheds path before.begin.machine.fs :=
      .of_eq rfl (Nat.le_refl _) rfl rfl fun _ => horderly.begin.wellFormed
    have hanswers := onCache_contained horderly.begin.wellFormed hfaults hdir hpath asked
    have hstored : Moment.stored? ⟨before, .onCache name asked⟩ =
        on.stored? asked (before.begin.onCache on asked).1 := by
      show (before.caches.get? name >>= _) = _
      rw [hon, Moment.answer, step_onCache hon]
      rfl
    rw [hstored]
    unfold Moment.after
    rw [step_onCache hon]
    exact hanswers.after_sheds hclock
  exact ⟨hcontained, fun _ _ => hcontained.kept⟩

/-- Clearing takes away the entry and leaves a directory in the cache directory where it is. -/
theorem clear_contained :
    let past : List Command :=
      [.openCache "c" (.config ⟨some Path.dot, 100⟩) .weightedSum none .none,
        .meddle (.makeDirectories [0x73]), .onCache "c" (.set (.text "k") [1, 2, 3])]
    let here := Location.top.child [0x77]
    let cleared : Moment := ⟨finish (start [0x77]) past, .onCache "c" .clear⟩
    cleared.before.machine.fs.Contained .weightedSum Path.dot none cleared.after.machine.fs ∧
      (cleared.after.machine.fs.tree.get? (here.child (Key.fileName ⟨"k"⟩)) = none ∧
        ∃ id, cleared.before.machine.fs.Lone Path.dot (here.child (Key.fileName ⟨"k"⟩)) id) ∧
      cleared.after.machine.fs.tree.get? (here.child [0x73]) = some .directory := by
  intro past here cleared
  have hmem : cleared ∈ run (start [0x77]) (past ++ [.onCache "c" .clear]) := by
    rw [run_append]
    exact List.mem_append_right _ List.mem_cons_self
  let on : OpenCache := (openCache (.config ⟨some Path.dot, 100⟩) .weightedSum none .none
    (start [0x77]).begin.machine).1
  have hon : cleared.before.caches.get? "c" = some on := rfl
  obtain ⟨hcontained, hkept⟩ := operations_contained [0x77] _ cleared hmem "c" .clear on Path.dot
    rfl hon rfl (by decide +kernel)
  have hstands : cleared.before.machine.fs.tree.get? (here.child [0x73]) = some .directory := by
    decide +kernel
  refine ⟨hcontained, ⟨by decide +kernel, 0, ?_⟩, hkept _ _ hstands fun id hlone => ?_⟩
  · refine ⟨⟨here, "k", ?_, rfl⟩, ?_, ?_⟩ <;> decide +kernel
  · cases hlone.stands.symm.trans hstands

end Session

end BlobCache
