import BlobCache.Proofs.Listing

/-!
# Steps that write nothing

Most of what caches do to the files is harmless: entries of one directory go, directories are made,
handles come and go and access times change, but no content does and no file appears.
`FileSystem.Calm location fs fs'` says that all that happened on the way from `fs` to `fs'` was of
this kind, with `location` as the directory that may lose entries. `Machine.Calm` adds that an entry
goes only if it was damaged or its eviction was reported.

Both relations are transitive, so an operation is calm if its steps are. Well-formedness, the paths
of directories and what is known about the locks and the names of a file survive calm steps.
-/

namespace BlobCache

namespace FileSystem

/-! ## On the files -/

/-- Nothing was written, and nothing but files of one directory went away. -/
structure Calm (location : Location) (fs fs' : FileSystem) : Prop where
  /-- The working directory is the same. -/
  current_eq : fs'.current = fs.current
  /-- Identities are only ever used up. -/
  next_le : fs.next ≤ fs'.next
  /-- No file that was there has another content. -/
  contents_eq : ∀ id, id < fs.next → fs'.contents id = fs.contents id
  /-- No file has gained a name. -/
  links_le : ∀ id, fs'.linkCount (.file id) ≤ fs.linkCount (.file id)
  /-- Whatever is new is a directory. -/
  origin : ∀ place node, fs'.tree.get? place = some node →
    fs.tree.get? place = some node ∨ node = .directory
  /-- Whatever has gone was a file of the directory. -/
  kept : ∀ place node, fs.tree.get? place = some node →
    fs'.tree.get? place = some node ∨ ∃ name id, place = location.child name ∧ node = .file id
  /-- A new handle shares the lock of a file that was there. -/
  handles : ∀ handle file, fs'.handles.get? handle = some file →
    (∃ old, fs.handles.get? handle = some old ∧ old.file = file.file ∧ old.lock = file.lock) ∨
      (file.lock = .shared ∧ handle < fs'.next ∧
        ∃ place, fs.tree.get? place = some (.file file.file))

namespace Calm

variable {location : Location} {fs fs' fs'' : FileSystem}

/-- To do nothing is calm. -/
theorem refl (location : Location) (fs : FileSystem) : fs.Calm location fs where
  current_eq := rfl
  next_le := Nat.le_refl _
  contents_eq _ _ := rfl
  links_le _ := Nat.le_refl _
  origin _ _ h := Or.inl h
  kept _ _ h := Or.inl h
  handles _ file h := Or.inl ⟨file, h, rfl, rfl⟩

/-- A file that is there now was there before. -/
theorem file_origin (h : fs.Calm location fs') {place : Location} {id : FileId}
    (hget : fs'.tree.get? place = some (.file id)) : fs.tree.get? place = some (.file id) := by
  rcases h.origin _ _ hget with hold | hdir
  · exact hold
  · cases hdir

/-- Calm changes in a row are calm. -/
theorem trans (h : fs.Calm location fs') (h' : fs'.Calm location fs'') :
    fs.Calm location fs'' where
  current_eq := h'.current_eq.trans h.current_eq
  next_le := Nat.le_trans h.next_le h'.next_le
  contents_eq id hid :=
    (h'.contents_eq id (Nat.lt_of_lt_of_le hid h.next_le)).trans (h.contents_eq id hid)
  links_le id := Nat.le_trans (h'.links_le id) (h.links_le id)
  origin place node hget := by
    rcases h'.origin place node hget with hmid | hdir
    · exact h.origin place node hmid
    · exact Or.inr hdir
  kept place node hget := by
    rcases h.kept place node hget with hmid | hgone
    · exact h'.kept place node hmid
    · exact Or.inr hgone
  handles handle file hget := by
    rcases h'.handles handle file hget with ⟨mid, hmid, hfile, hlock⟩ | ⟨hlock, hlt, place, hplace⟩
    · rcases h.handles handle mid hmid with ⟨old, hold, hfile', hlock'⟩ | ⟨hlock', hlt', hplace⟩
      · exact Or.inl ⟨old, hold, hfile'.trans hfile, hlock'.trans hlock⟩
      · exact Or.inr ⟨hlock ▸ hlock', Nat.lt_of_lt_of_le hlt' h'.next_le, hfile ▸ hplace⟩
    · exact Or.inr ⟨hlock, hlt, place, h.file_origin hplace⟩

/-! ## Single steps -/

/-- The tree has lost a file of the directory. -/
theorem unbind {name : Bytes} {id : FileId}
    (hget : fs.tree.get? (location.child name) = some (.file id)) :
    fs.Calm location (fs.unbind (location.child name)) where
  current_eq := rfl
  next_le := Nat.le_refl _
  contents_eq _ _ := rfl
  links_le id := linkCount_unbind_le fs _ _
  origin place node h := by
    rw [FileSystem.unbind, Table.get?_erase] at h
    split at h
    · cases h
    · exact Or.inl h
  kept place node h := by
    by_cases hplace : place = location.child name
    · rw [hplace, hget] at h
      exact Or.inr ⟨name, id, hplace, (Option.some.inj h).symm⟩
    · exact Or.inl ((Table.get?_erase_ne _ hplace).trans h)
  handles _ file h := Or.inl ⟨file, h, rfl, rfl⟩

/-- A directory was made where nothing stood. -/
theorem bind_directory {place : Location} (hvacant : fs.tree.get? place = none) :
    fs.Calm location (fs.bind place .directory) where
  current_eq := rfl
  next_le := Nat.le_refl _
  contents_eq _ _ := rfl
  links_le id := by simpa using linkCount_bind_le fs place .directory (.file id)
  origin other node h := by
    rw [FileSystem.bind, Table.get?_set] at h
    split at h
    · exact Or.inr (Option.some.inj h).symm
    · exact Or.inl h
  kept other node h := by
    have hne : other ≠ place := by
      rintro rfl
      rw [hvacant] at h
      cases h
    exact Or.inl ((Table.get?_set_ne _ hne _).trans h)
  handles _ file h := Or.inl ⟨file, h, rfl, rfl⟩

/-- To give out an identity is calm. -/
theorem spent (location : Location) (fs : FileSystem) : fs.Calm location fs.spent where
  current_eq := rfl
  next_le := Nat.le_succ _
  contents_eq _ _ := rfl
  links_le _ := Nat.le_refl _
  origin _ _ h := Or.inl h
  kept _ _ h := Or.inl h
  handles _ file h := Or.inl ⟨file, h, rfl, rfl⟩

/-- An entry was opened for reading and is held. -/
theorem holding {place : Location} {id : FileId} (hget : fs.tree.get? place = some (.file id))
    (path : Path) : fs.Calm location (fs.holding path id) where
  current_eq := rfl
  next_le := Nat.le_succ _
  contents_eq _ _ := rfl
  links_le _ := Nat.le_refl _
  origin _ _ h := Or.inl h
  kept _ _ h := Or.inl h
  handles handle file h := by
    rw [FileSystem.holding, Table.get?_set] at h
    split at h
    · rename_i hhandle
      cases h
      exact Or.inr ⟨rfl, hhandle ▸ Nat.lt_succ_self _, place, hget⟩
    · exact Or.inl ⟨file, h, rfl, rfl⟩

/-- To close a file is calm. -/
theorem close (location : Location) (fs : FileSystem) (handle : HandleId) :
    fs.Calm location (fs.close handle) where
  current_eq := rfl
  next_le := Nat.le_refl _
  contents_eq _ _ := rfl
  links_le _ := Nat.le_refl _
  origin _ _ h := Or.inl h
  kept _ _ h := Or.inl h
  handles other file h := by
    rw [FileSystem.close, Table.get?_erase] at h
    split at h
    · cases h
    · exact Or.inl ⟨file, h, rfl, rfl⟩

/-- Times do not matter: neither that of a file nor that of the clock. -/
theorem setAccessTime (location : Location) (fs : FileSystem) (id : FileId) (time : Int) :
    fs.Calm location (fs.setAccessTime id time) where
  current_eq := rfl
  next_le := Nat.le_refl _
  contents_eq other _ := contents_setAccessTime fs id other time
  links_le _ := Nat.le_refl _
  origin _ _ h := Or.inl h
  kept _ _ h := Or.inl h
  handles _ file h := Or.inl ⟨file, h, rfl, rfl⟩

/-- A file was made that has no name any more. -/
theorem addLost (location : Location) (fs : FileSystem) (file : FileData) (count : Nat) :
    fs.Calm location
      { fs with files := fs.files.set fs.next file, next := fs.next + count } where
  current_eq := rfl
  next_le := Nat.le_add_right _ _
  contents_eq id hid := by
    unfold contents
    rw [Table.get?_set_ne _ (Nat.ne_of_lt hid)]
  links_le _ := Nat.le_refl _
  origin _ _ h := Or.inl h
  kept _ _ h := Or.inl h
  handles _ file h := Or.inl ⟨file, h, rfl, rfl⟩

/-- That time goes by is calm. -/
theorem setClock (location : Location) (fs : FileSystem) (time : Int) :
    fs.Calm location { fs with now := time } where
  current_eq := rfl
  next_le := Nat.le_refl _
  contents_eq _ _ := rfl
  links_le _ := Nat.le_refl _
  origin _ _ h := Or.inl h
  kept _ _ h := Or.inl h
  handles _ file h := Or.inl ⟨file, h, rfl, rfl⟩

/-! ## What survives -/

/-- Calm changes keep a file system well formed. -/
theorem wellFormed (h : fs.Calm location fs') (hwf : fs.WellFormed) : fs'.WellFormed where
  file_lt place id hget :=
    Nat.lt_of_lt_of_le (hwf.file_lt place id (h.file_origin hget)) h.next_le
  handle_lt handle file hget := by
    rcases h.handles handle file hget with ⟨old, hold, -, -⟩ | ⟨-, hlt, -⟩
    · exact Nat.lt_of_lt_of_le (hwf.handle_lt handle old hold) h.next_le
    · exact hlt
  open_lt handle file hget := by
    rcases h.handles handle file hget with ⟨old, hold, hfile, -⟩ | ⟨-, -, place, hplace⟩
    · exact hfile ▸ Nat.lt_of_lt_of_le (hwf.open_lt handle old hold) h.next_le
    · exact Nat.lt_of_lt_of_le (hwf.file_lt place _ hplace) h.next_le
  named directory name id hget := hwf.named directory name id (h.file_origin hget)

/-- A file of the directory that is still there has the content it had. -/
theorem contents_of_named (h : fs.Calm location fs') (hwf : fs.WellFormed) {place : Location}
    {id : FileId} (hget : fs'.tree.get? place = some (.file id)) :
    fs'.contents id = fs.contents id :=
  h.contents_eq id (hwf.file_lt _ _ (h.file_origin hget))

/-- Calm changes leave a path leading where it led. -/
theorem leads (h : fs.Calm location fs') {path : Path} {place : Location}
    (hlead : fs.Leads path place) : fs'.Leads path place := by
  refine hlead.mono h.current_eq fun other node hget hfile => ?_
  rcases h.kept other node hget with hkept | ⟨name, id, -, hnode⟩
  · exact hkept
  · exact absurd hnode (hfile id)

/-- A file on which nobody had an exclusive lock still is none. -/
theorem locks_shared (h : fs.Calm location fs') {id : FileId}
    (hlocks : ∀ lock ∈ fs.locksOn id, lock = .shared) :
    ∀ lock ∈ fs'.locksOn id, lock = .shared := by
  intro lock hmem
  obtain ⟨handle, file, hget, hfile, rfl⟩ := mem_locksOn.mp hmem
  rcases h.handles handle file hget with ⟨old, hold, hfile', hlock⟩ | ⟨hlock, -, -⟩
  · exact hlock ▸ hlocks _ (mem_locksOn.mpr ⟨handle, old, hold, hfile'.trans hfile, rfl⟩)
  · exact hlock

end Calm

end FileSystem

/-! ## On the machine -/

/-- The files were calm, and no sound entry of the directory went without a report. -/
structure Machine.Calm (digest : Digest) (location : Location) (m m' : Machine) : Prop where
  /-- The files were calm. -/
  files : m.fs.Calm location m'.fs
  /-- What was reported stays reported. -/
  reported : m.log <+: m'.log
  /-- An entry that has gone was damaged, or its eviction is reported. -/
  gone : ∀ name id, m.fs.tree.get? (location.child name) = some (.file id) →
    m'.fs.tree.get? (location.child name) = some (.file id) ∨
      ¬Entry.Sealed digest (m.fs.contents id) ∨
      ∃ text accessed size, Path.ofText text = name ∧ .evicted text accessed size ∈ m'.log

namespace Machine.Calm

variable {digest : Digest} {location : Location} {m m' m'' : Machine}

/-- To do nothing is calm. -/
theorem refl (digest : Digest) (location : Location) (m : Machine) :
    m.Calm digest location m where
  files := .refl location m.fs
  reported := List.prefix_refl _
  gone _ _ h := Or.inl h

/-- Calm programs in a row are calm. -/
theorem trans (h : m.Calm digest location m') (hwf : m.fs.WellFormed)
    (h' : m'.Calm digest location m'') : m.Calm digest location m'' where
  files := h.files.trans h'.files
  reported := h.reported.trans h'.reported
  gone name id hget := by
    rcases h.gone name id hget with hmid | hbad | ⟨text, accessed, size, hname, hmem⟩
    · rw [← h.files.contents_eq id (hwf.file_lt _ _ hget)]
      exact h'.gone name id hmid
    · exact Or.inr (Or.inl hbad)
    · exact Or.inr (Or.inr ⟨text, accessed, size, hname, h'.reported.subset hmem⟩)

/-- Reports change no files. -/
theorem noting (digest : Digest) (location : Location) (m : Machine) (event : Event) :
    m.Calm digest location (m.noting event) where
  files := .refl location m.fs
  reported := List.prefix_append _ _
  gone _ _ h := Or.inl h

/-- A calm change of the files under which all names stay. -/
theorem withFiles {fs' : FileSystem} (h : m.fs.Calm location fs')
    (hkept : ∀ place id, m.fs.tree.get? place = some (.file id) →
      fs'.tree.get? place = some (.file id)) :
    m.Calm digest location (m.withFiles fs') where
  files := h
  reported := List.prefix_refl _
  gone _ id hget := Or.inl (hkept _ id hget)

/-- Calm programs keep the file system well formed. -/
theorem wellFormed (h : m.Calm digest location m') (hwf : m.fs.WellFormed) : m'.fs.WellFormed :=
  h.files.wellFormed hwf

/-- Calm programs leave a path leading where it led. -/
theorem leads (h : m.Calm digest location m') {path : Path} {place : Location}
    (hlead : m.fs.Leads path place) : m'.fs.Leads path place := h.files.leads hlead

end Machine.Calm

end BlobCache
