import BlobCache.Proofs.Locks

/-!
# What programs do to the files

Every operation on a machine is made of changes of its files, and the freedom it takes is small: a
program uses the files that it opened itself and those that it was given, and only where it removes
entries does it take names away. Nor does it leave a file open, on any way out, but for the one
behind the blob that it answers with. `Machine.Does free m x post` says that the program `x`, run on
the machine `m`, keeps to this freedom and that `post` holds of its answer and of the files
afterwards. It is built up along the program: `Does.pure` and `Does.bind` are for the programs
themselves, `Host.Keeps` for a host all of whose operations do what they should, faulty or not, and
one lemma for each operation of a cache and for each command of the tool.

The table of open files is followed through each program from what it is at the beginning: `Leaves`
says that it is that again, and `Opened` that it has one more row.
-/

namespace BlobCache

/-- The open file behind a blob. -/
def Blob.file? {φ : Type} : Blob φ → Option φ
  | .owned _ => none
  | .mapped file _ => some file

namespace Machine

variable {α β : Type} {free : Freedom} {m : Machine} {files : Table HandleId OpenFile}

/-! ## Programs -/

/-- Run on a machine, the program does nothing to the files but changes for which one needs this
freedom, and its answer and the files afterwards are as they should be. -/
def Does (free : Freedom) (m : Machine) (x : StateM Machine α) (post : α → FileSystem → Prop) :
    Prop :=
  m.fs.Ready free → m.fs.Changes free (x m).2.fs ∧ post (x m).1 (x m).2.fs

/-- Whatever the answer is, these are the open files. -/
abbrev Leaves (files : Table HandleId OpenFile) : α → FileSystem → Prop :=
  fun _ fs => fs.handles = files

namespace Does

variable {x : StateM Machine α} {post : α → FileSystem → Prop}

/-- To return a result does nothing. -/
theorem pure {a : α} (h : post a m.fs) : m.Does free (Pure.pure a) post :=
  fun _ => ⟨.refl _ _, h⟩

/-- A program does what its first part does, and then what the rest does from there. -/
theorem bind {f : α → StateM Machine β} {post' : β → FileSystem → Prop}
    (hx : m.Does free x post)
    (hf : ∀ a (m' : Machine), m.fs.next ≤ m'.fs.next → post a m'.fs → m'.Does free (f a) post') :
    m.Does free (x >>= f) post' := by
  intro hready
  obtain ⟨hchanges, hpost⟩ := hx hready
  obtain ⟨hchanges', hpost'⟩ := hf (x m).1 (x m).2 hchanges.next_le hpost (hchanges.ready hready)
  exact ⟨hchanges.trans hchanges', hpost'⟩

/-- What is known of the answer and of the files can be weakened. -/
theorem imp {post' : α → FileSystem → Prop} (hx : m.Does free x post)
    (h : ∀ a (fs : FileSystem), m.fs.next ≤ fs.next → post a fs → post' a fs) :
    m.Does free x post' := by
  intro hready
  obtain ⟨hchanges, hpost⟩ := hx hready
  exact ⟨hchanges, h _ _ hchanges.next_le hpost⟩

end Does

/-- A question changes nothing. -/
theorem askFiles_does (h : m.fs.handles = files) (question : FileSystem → α) :
    m.Does free (askFiles question) (Leaves files) := fun _ => ⟨.refl _ _, h⟩

/-- To take note of an event changes no file. -/
theorem note_does (h : m.fs.handles = files) (event : Event) :
    m.Does free (note event) (Leaves files) := fun _ => ⟨.refl _ _, h⟩

/-- An operation on the files does what it does to them. -/
theorem onFiles_does {operation : FileSystem → α × FileSystem} {post : α → FileSystem → Prop}
    (h : m.fs.Ready free → m.fs.Changes free (operation m.fs).2 ∧
      post (operation m.fs).1 (operation m.fs).2) : m.Does free (onFiles operation) post := h

/-! ## Files that were opened -/

/-- Beside these files one more is open, under this lock, and it was opened on the way. -/
structure Opened (free : Freedom) (files : Table HandleId OpenFile) (lock : Lock)
    (handle : HandleId) (fs : FileSystem) : Prop where
  /-- It may be used. -/
  usable : free.handles handle
  /-- Its identity was given out. -/
  lt : handle < fs.next
  /-- It was not open before. -/
  unbound : files.get? handle = none
  /-- It is open under the lock, and nothing else was opened or closed. -/
  handles_eq : ∃ file : OpenFile, file.lock = lock ∧ fs.handles = files.set handle file

/-- A file was opened, or nothing was. -/
def Opens (free : Freedom) (files : Table HandleId OpenFile) (lock : Lock) :
    Except StoreError HandleId → FileSystem → Prop
  | .error _, fs => fs.handles = files
  | .ok handle, fs => Opened free files lock handle fs

/-- A blob that holds nothing but what was opened on the way. -/
def Own (free : Freedom) (files : Table HandleId OpenFile) : Blob HandleId → FileSystem → Prop
  | .owned _, fs => fs.handles = files
  | .mapped handle _, fs => Opened free files .shared handle fs

/-- An entry was found and is open, or nothing is. -/
def Finds (free : Freedom) (files : Table HandleId OpenFile) :
    Option (Blob HandleId) → FileSystem → Prop
  | none, fs => fs.handles = files
  | some blob, fs => blob.isMapped = true ∧ Own free files blob fs

/-- A graph was loaded, from an entry that is open if it was a hit. Otherwise nothing is. -/
def Loads (free : Freedom) (files : Table HandleId OpenFile) :
    Except LoadError (Loaded HandleId) → FileSystem → Prop
  | .error _, fs => fs.handles = files
  | .ok loaded, fs =>
    (loaded.blob.isMapped = true ↔ loaded.status = .hit) ∧ Own free files loaded.blob fs

/-- At most one open file has been used, and it is locked as before. -/
def Uses (files : Table HandleId OpenFile) (handle : HandleId) : α → FileSystem → Prop :=
  fun _ fs => ∃ change : OpenFile → OpenFile, FileSystem.KeepsLock change ∧
    fs.handles = files.modify handle change

section opened

variable {lock : Lock} {handle : HandleId} {blob : Blob HandleId} {fs fs' : FileSystem}

/-- What was opened on the way stays so until something is opened or closed. -/
theorem Opened.mono (h : Opened free files lock handle fs) (hle : fs.next ≤ fs'.next)
    (hhandles : fs'.handles = fs.handles) : Opened free files lock handle fs' where
  usable := h.usable
  lt := Nat.lt_of_lt_of_le h.lt hle
  unbound := h.unbound
  handles_eq := by
    rw [hhandles]
    exact h.handles_eq

/-- It may be used before it is closed again. -/
theorem Opened.used {a : α} (h : Opened free files lock handle fs) (hle : fs.next ≤ fs'.next)
    (huses : Uses fs.handles handle a fs') : Opened free files lock handle fs' where
  usable := h.usable
  lt := Nat.lt_of_lt_of_le h.lt hle
  unbound := h.unbound
  handles_eq := by
    obtain ⟨file, hlock, hhandles⟩ := h.handles_eq
    obtain ⟨change, hchange, hused⟩ := huses
    refine ⟨change file, (hchange file).2.trans hlock, ?_⟩
    rw [hused, hhandles, Table.modify_set_self]

/-- Once it is closed, the same files are open as before. -/
theorem Opened.erase (h : Opened free files lock handle fs) : fs.handles.erase handle = files := by
  obtain ⟨file, -, hhandles⟩ := h.handles_eq
  rw [hhandles, Table.erase_set_of_unbound h.unbound]

/-- What a blob holds was opened on the way until something is opened or closed. -/
theorem Own.mono (h : Own free files blob fs) (hle : fs.next ≤ fs'.next)
    (hhandles : fs'.handles = fs.handles) : Own free files blob fs' := by
  cases blob with
  | owned bytes => exact hhandles.trans h
  | mapped handle length => exact Opened.mono h hle hhandles

/-- The file behind such a blob was opened on the way, under a shared lock. -/
theorem Own.opened (h : Own free files blob fs) (hfile : blob.file? = some handle) :
    Opened free files .shared handle fs := by
  cases blob with
  | owned bytes => cases hfile
  | mapped other length =>
      cases hfile
      exact h

/-- To leave open files alone is one way to use them. -/
theorem uses_of_eq {a : α} (h : fs.handles = files) : Uses files handle a fs :=
  ⟨id, fun _ => ⟨rfl, rfl⟩, by rw [Table.modify_id, h]⟩

/-- To change an open file without its lock is to use it. -/
theorem uses_modifyHandle {a : α} {change : OpenFile → OpenFile}
    (h : FileSystem.KeepsLock change) : Uses fs.handles handle a (fs.modifyHandle handle change) :=
  ⟨change, h, rfl⟩

end opened

end Machine

open Machine (Leaves Opened Opens Own Finds Loads Uses)

/-! ## Hosts -/

/-- The operations of a host do what they should and no more. -/
structure Host.Keeps (free : Freedom) (host : Host (StateM Machine) HandleId) : Prop where
  /-- To make directories opens and closes nothing. -/
  createDirectories : ∀ {m : Machine} {files}, m.fs.handles = files → ∀ path,
    m.Does free (host.createDirectories path) (Leaves files)
  /-- To open for reading opens one file under a shared lock, or none. -/
  openShared : ∀ {m : Machine} {files}, m.fs.handles = files → ∀ path,
    m.Does free (host.openShared path) (Opens free files .shared)
  /-- To open for eviction opens one file under an exclusive lock, or none. -/
  openExclusive : ∀ {m : Machine} {files}, m.fs.handles = files → ∀ path,
    m.Does free (host.openExclusive path) (Opens free files .exclusive)
  /-- To create a file opens it under an exclusive lock, or opens none. -/
  create : ∀ {m : Machine} {files}, m.fs.handles = files → ∀ path,
    m.Does free (host.create path) (Opens free files .exclusive)
  /-- To remove a file opens and closes nothing, and needs the freedom to take names away. -/
  remove : free.names → ∀ {m : Machine} {files}, m.fs.handles = files → ∀ path,
    m.Does free (host.remove path) (Leaves files)
  /-- To list a directory opens and closes nothing. -/
  list : ∀ {m : Machine} {files}, m.fs.handles = files → ∀ path,
    m.Does free (host.list path) (Leaves files)
  /-- To ask for a size opens and closes nothing. -/
  size : ∀ {m : Machine} {files}, m.fs.handles = files → ∀ handle,
    m.Does free (host.size handle) (Leaves files)
  /-- To map a file uses it. -/
  map : ∀ {m : Machine} {files}, m.fs.handles = files → ∀ {handle}, free.handles handle →
    m.Does free (host.map handle) (Uses files handle)
  /-- To look at a mapped file opens and closes nothing. -/
  mapped : ∀ {m : Machine} {files}, m.fs.handles = files → ∀ handle,
    m.Does free (host.mapped handle) (Leaves files)
  /-- To write to a file uses it. -/
  write : ∀ {m : Machine} {files}, m.fs.handles = files → ∀ {handle}, free.handles handle →
    ∀ data, m.Does free (host.write handle data) (Uses files handle)
  /-- To close a file closes no other. -/
  close : ∀ (m : Machine) {handle}, free.handles handle →
    m.Does free (host.close handle) (Leaves (m.fs.handles.erase handle))
  /-- To report an event opens and closes nothing. -/
  report : ∀ {m : Machine} {files}, m.fs.handles = files → ∀ event,
    m.Does free (host.report event) (Leaves files)

namespace Host.Keeps

variable {free : Freedom} {host : Host (StateM Machine) HandleId} (hhost : host.Keeps free)
  {m : Machine} {files : Table HandleId OpenFile} {lock : Lock} {handle : HandleId}
  (h : Opened free files lock handle m.fs)
include hhost h

/-! A file that was opened on the way can be used, and in the end it is closed again. -/

/-- To map a file that was opened leaves it open. -/
theorem map_opened : m.Does free (host.map handle) fun _ => Opened free files lock handle :=
  (hhost.map rfl h.usable).imp fun _ _ => h.used

/-- So does writing to it. -/
theorem write_opened (data : Bytes) :
    m.Does free (host.write handle data) fun _ => Opened free files lock handle :=
  (hhost.write rfl h.usable data).imp fun _ _ => h.used

/-- To close it leaves the files open that were open before. -/
theorem close_opened : m.Does free (host.close handle) (Leaves files) := by
  have hclose := hhost.close m h.usable
  rwa [h.erase] at hclose

end Host.Keeps

namespace Machine

variable {α : Type} {free : Freedom} {m : Machine} {files : Table HandleId OpenFile}

/-- A handle that is yet to be given out is not open. -/
theorem get?_eq_none_of_le (hready : m.fs.Ready free) {handle : HandleId}
    (hle : m.fs.next ≤ handle) : m.fs.handles.get? handle = none := by
  rcases hget : m.fs.handles.get? handle with _ | file
  · rfl
  · exact absurd (hready.wellFormed.handle_lt _ _ hget) (Nat.not_lt.mpr hle)

/-- To open an entry opens one file, or none. -/
theorem openEntry_does (h : m.fs.handles = files) (path : Path) (lock : Lock) :
    m.Does free (onFiles (·.openEntry path lock)) (Opens free files lock) := by
  refine onFiles_does fun hready => ?_
  have hcases : _ ∨ ∃ id, FileSystem.Change free m.fs _ ∧ _ :=
    FileSystem.openEntry_cases hready.legible path lock
  rcases hcases with ⟨error, hopen⟩ | ⟨id, hchange, hopen⟩
  · simp only [hopen]
    exact ⟨.refl _ _, h⟩
  · simp only [hopen]
    refine ⟨.single hchange, hready.fresh _ (Nat.le_refl _), Nat.lt_succ_self _, ?_, ?_⟩
    · exact h ▸ get?_eq_none_of_le hready (Nat.le_refl _)
    · exact ⟨m.fs.opened path lock id, rfl, h ▸ rfl⟩

/-- To create an entry opens one file, or none. -/
theorem createEntry_does (h : m.fs.handles = files) (path : Path) :
    m.Does free (onFiles (·.createEntry path)) (Opens free files .exclusive) := by
  refine onFiles_does fun hready => ?_
  rcases FileSystem.createEntry_cases m.fs path with
    ⟨error, hcreate⟩ | ⟨directory, name, hfree, hname, hlength, hcreate⟩
  · simp only [hcreate]
    exact ⟨.refl _ _, h⟩
  · simp only [hcreate]
    refine ⟨.single (.create path hfree hname hlength), hready.fresh _ (Nat.le_succ _),
      Nat.lt_succ_self _, ?_, ?_⟩
    · exact h ▸ get?_eq_none_of_le hready (Nat.le_succ _)
    · exact ⟨m.fs.writer path [] 0, rfl, h ▸ rfl⟩

/-- A refused operation is not begun. -/
theorem refusing_does {names : List Bytes} {path : Path}
    {operation : StateM Machine (Except StoreError α)}
    {post : Except StoreError α → FileSystem → Prop} (herror : ∀ error, post (.error error) m.fs)
    (h : m.Does free operation post) : m.Does free (refusing names path operation) post := by
  unfold refusing
  split
  · exact .pure (herror _)
  · exact h

/-- To map a file uses it. -/
theorem mapEntry_uses (h : m.fs.handles = files) (handle : HandleId) :
    Uses files handle (m.fs.mapEntry handle).1 (m.fs.mapEntry handle).2 := by
  subst h
  unfold FileSystem.mapEntry
  rcases m.fs.handles.get? handle with _ | file
  · exact uses_of_eq rfl
  · simp only
    split
    · exact uses_of_eq rfl
    · refine uses_modifyHandle ?_
      exact fun _ => ⟨rfl, rfl⟩

/-- To write to a file uses it. -/
theorem writeEntry_uses (h : m.fs.handles = files) (handle : HandleId) (data : Bytes) :
    Uses files handle (m.fs.writeEntry handle data).1 (m.fs.writeEntry handle data).2 := by
  subst h
  unfold FileSystem.writeEntry
  rcases m.fs.handles.get? handle with _ | file
  · exact uses_of_eq rfl
  · simp only
    split
    · exact uses_of_eq rfl
    · split
      · refine uses_modifyHandle ?_
        exact fun _ => ⟨rfl, rfl⟩
      · exact uses_of_eq rfl

/-- A write that breaks off opens and closes nothing. -/
theorem handles_partialWrite (kept : Nat) (handle : HandleId) (data : Bytes) (fs : FileSystem) :
    (Faults.partialWrite kept handle data fs).2.handles = fs.handles := by
  unfold Faults.partialWrite
  rcases fs.handles.get? handle with _ | file
  · rfl
  · simp only
    split <;> rfl

/-- Faults or not, a host does what it should and no more. -/
theorem faultyHost_keeps (free : Freedom) (faults : Faults) : (faultyHost faults).Keeps free where
  createDirectories {m files} h path := by
    have hmake : m.Does free (host.createDirectories path) (Leaves files) :=
      onFiles_does fun _ => ⟨FileSystem.makeDirectories_changes _ _ path,
        (FileSystem.handles_makeDirectories m.fs path).trans h⟩
    unfold faultyHost
    simp only
    split
    · exact .pure h
    · exact hmake
  openShared h path := refusing_does (fun _ => h) (openEntry_does h path .shared)
  openExclusive h path := refusing_does (fun _ => h) (openEntry_does h path .exclusive)
  create h path := refusing_does (fun _ => h) (createEntry_does h path)
  remove hnames m files h path := refusing_does (fun _ => h)
    (onFiles_does fun _ => ⟨FileSystem.removeEntry_changes hnames path,
      (FileSystem.handles_removeEntry m.fs path).trans h⟩)
  list {m files} h path := by
    have hlist : m.Does free (host.list path) (Leaves files) := askFiles_does h _
    unfold faultyHost
    simp only
    split
    · exact .pure h
    · exact hlist.bind fun _ _ _ h => .pure h
  size h handle := askFiles_does h _
  map h handle hhandle := (askFiles_does h _).bind fun _ m' _ h =>
    refusing_does (fun _ => uses_of_eq h)
      (onFiles_does fun _ => ⟨FileSystem.mapEntry_changes hhandle, mapEntry_uses h handle⟩)
  mapped h handle := askFiles_does h _
  write h handle hhandle data := by
    refine (askFiles_does h _).bind fun count m' _ h => ?_
    rcases faults.write count with _ | kept
    · exact onFiles_does fun _ =>
        ⟨FileSystem.writeEntry_changes hhandle data, writeEntry_uses h handle data⟩
    · exact onFiles_does fun _ => ⟨FileSystem.partialWrite_changes hhandle kept data,
        uses_of_eq ((handles_partialWrite kept handle data m'.fs).trans h)⟩
  close m handle hhandle := onFiles_does fun _ => ⟨.single (.close hhandle), rfl⟩
  report h event := note_does h event

/-- The operations of the machine do what they should. -/
theorem host_keeps (free : Freedom) : host.Keeps free := faultyHost_none ▸ faultyHost_keeps free _

end Machine

/-! ## Blobs -/

section caches

variable {free : Freedom} {m : Machine} {host : Host (StateM Machine) HandleId}
  {files : Table HandleId OpenFile} (hhost : host.Keeps free)
include hhost

/-- To read a blob leaves the same files open. -/
theorem Blob.read_does (h : m.fs.handles = files) (blob : Blob HandleId) :
    m.Does free (blob.read host) (Leaves files) := by
  cases blob with
  | owned bytes => exact .pure h
  | mapped handle length => exact (hhost.mapped h handle).bind fun _ _ _ h => .pure h

/-- To release a blob closes what it holds. -/
theorem Blob.release_does {blob : Blob HandleId} (h : Own free files blob m.fs) :
    m.Does free (blob.release host) (Leaves files) := by
  cases blob with
  | owned bytes => exact .pure h
  | mapped handle length => exact hhost.close_opened h

namespace Cache

variable {cache : Cache}

/-! ## Looking around -/

/-- To scan a directory leaves the same files open. -/
theorem listed_does (h : m.fs.handles = files) (path : Path) :
    m.Does free (listed host path) (Leaves files) := by
  refine (hhost.list h path).bind fun listing m' _ h => ?_
  rcases listing.error with _ | error
  · exact .pure h
  · exact (hhost.report h _).bind fun _ _ _ h => .pure h

/-- So does finding its size. -/
theorem sizeOf_does (h : m.fs.handles = files) (path : Path) :
    m.Does free (sizeOf host path) (Leaves files) :=
  (listed_does hhost h path).bind fun _ _ _ h => .pure h

/-- So does listing its entries in order. -/
theorem entriesOf_does (h : m.fs.handles = files) (path : Path) :
    m.Does free (entriesOf host path) (Leaves files) :=
  (listed_does hhost h path).bind fun _ _ _ h => .pure h

/-- So does asking a cache for its size. -/
theorem size_does (h : m.fs.handles = files) (cache : Cache) :
    m.Does free (size host cache) (Leaves files) := by
  unfold size
  rcases cache.state.directory? with _ | path
  · exact .pure h
  · exact sizeOf_does hhost h path

/-- So does asking a cache for its entries. -/
theorem entries_does (h : m.fs.handles = files) (cache : Cache) :
    m.Does free (entries host cache) (Leaves files) := by
  unfold entries
  rcases cache.state.directory? with _ | path
  · exact .pure h
  · exact entriesOf_does hhost h path

/-! ## Reading -/

/-- An entry that fails is closed again, and one that passes belongs to the blob. -/
theorem readEntry_does (h : m.fs.handles = files) (digest : Digest) (path : Path) :
    m.Does free (readEntry host digest path)
      fun answer => Finds free files answer.toOption := by
  have hfails : ∀ (m : Machine) handle error, Opened free files .shared handle m.fs →
      m.Does free (do host.close handle; return .error error)
        fun (answer : Except StoreError (Blob HandleId)) => Finds free files answer.toOption :=
    fun m handle error hopened => (hhost.close_opened hopened).bind fun _ _ _ h => .pure h
  refine (hhost.openShared h path).bind fun answer m₁ _ hopens => ?_
  rcases answer with error | handle
  · exact .pure hopens
  have hopened : Opened free files .shared handle m₁.fs := hopens
  refine (hhost.size rfl handle).bind fun size m₂ hle h => ?_
  have hopened := hopened.mono hle h
  split
  · exact hfails _ _ _ hopened
  split
  · exact hfails _ _ _ hopened
  refine (hhost.map_opened hopened).bind fun content m₃ _ hopened => ?_
  rcases content with error | content
  · exact hfails _ _ _ hopened
  simp only
  split
  · exact .pure ⟨rfl, hopened⟩
  · exact hfails _ _ _ hopened

/-- To get an entry opens it if it is found, and nothing else. -/
theorem get_does (hnames : free.names) (h : m.fs.handles = files) (cache : Cache) (key : Key) :
    m.Does free (get host cache key) (Finds free files) := by
  unfold get
  rcases cache.state.directory? with _ | path
  · exact .pure h
  simp only
  split
  · exact .pure h
  refine (readEntry_does hhost h cache.digest _).bind fun answer m₁ _ hfinds => ?_
  rcases answer with error | blob
  · have h : m₁.fs.handles = files := hfinds
    simp only
    split
    · exact (hhost.report h _).bind fun _ _ _ h =>
        (hhost.remove hnames h _).bind fun _ _ _ h => .pure h
    · exact (hhost.report h _).bind fun _ _ _ h => .pure h
  · obtain ⟨hmapped, hown⟩ := hfinds
    exact (hhost.report rfl _).bind fun _ _ hle h => .pure ⟨hmapped, Own.mono hown hle h⟩

/-! ## Evicting and checking -/

/-- To evict entries closes each of them again. -/
theorem evictFrom_does (hnames : free.names) (h : m.fs.handles = files) (path : Path)
    (needed : Nat) (entries : List Entry) (freed : Nat) :
    m.Does free (evictFrom host path needed entries freed) (Leaves files) := by
  induction entries generalizing m freed with
  | nil => exact .pure h
  | cons entry rest ih =>
      refine (hhost.openExclusive h _).bind fun answer m₁ _ hopens => ?_
      rcases answer with error | handle
      · exact (hhost.report hopens _).bind fun _ _ _ h => ih h _
      have hopened : Opened free files .exclusive handle m₁.fs := hopens
      refine (hhost.size rfl handle).bind fun size m₂ hle h => ?_
      have hopened := hopened.mono hle h
      refine (hhost.remove hnames rfl _).bind fun removed m₃ hle h => ?_
      have hopened := hopened.mono hle h
      rcases removed with error | _
      · refine (hhost.report rfl _).bind fun _ m₄ hle h => ?_
        exact (hhost.close_opened (hopened.mono hle h)).bind fun _ _ _ h => ih h _
      · refine (hhost.report rfl _).bind fun _ m₄ hle h => ?_
        refine (hhost.close_opened (hopened.mono hle h)).bind fun _ _ _ h => ?_
        split
        · exact .pure h
        · exact ih h _

/-- So does evicting from a directory. -/
theorem evict_does (hnames : free.names) (h : m.fs.handles = files) (path : Path) (needed : Nat) :
    m.Does free (evict host path needed) (Leaves files) :=
  (entriesOf_does hhost h path).bind fun _ _ _ h => evictFrom_does hhost hnames h path needed _ 0

/-- So does trimming. -/
theorem trim_does (hnames : free.names) (h : m.fs.handles = files) (cache : Cache) :
    m.Does free (trim host cache) (Leaves files) := by
  unfold trim
  rcases cache.state.directory? with _ | path
  · exact .pure h
  refine (sizeOf_does hhost h path).bind fun size m' _ h => ?_
  dsimp only
  split
  · exact .pure h
  · exact evict_does hhost hnames h path _

/-- So does clearing. -/
theorem clear_does (hnames : free.names) (h : m.fs.handles = files) (cache : Cache) :
    m.Does free (clear host cache) (Leaves files) := by
  unfold clear
  rcases cache.state.directory? with _ | path
  · exact .pure h
  · exact evict_does hhost hnames h path _

/-- To check entries closes each of them again. -/
theorem verifyFrom_does (hnames : free.names) (h : m.fs.handles = files) (digest : Digest)
    (path : Path) (entries : List Entry) (found : VerifyReport) :
    m.Does free (verifyFrom host digest path entries found) (Leaves files) := by
  induction entries generalizing m found with
  | nil => exact .pure h
  | cons entry rest ih =>
      refine (readEntry_does hhost h digest _).bind fun answer m₁ _ hfinds => ?_
      rcases answer with error | blob
      · have h : m₁.fs.handles = files := hfinds
        simp only
        split
        · exact (hhost.report h _).bind fun _ _ _ h =>
            (hhost.remove hnames h _).bind fun _ _ _ h => ih h _
        · exact (hhost.report h _).bind fun _ _ _ h => ih h _
      · exact (Blob.release_does hhost hfinds.2).bind fun _ _ _ h => ih h _

/-- So does checking a cache. -/
theorem verify_does (hnames : free.names) (h : m.fs.handles = files) (cache : Cache) :
    m.Does free (verify host cache) (Leaves files) := by
  unfold verify
  rcases cache.state.directory? with _ | path
  · exact .pure h
  · exact (entriesOf_does hhost h path).bind fun _ _ _ h =>
      verifyFrom_does hhost hnames h cache.digest path _ _

/-! ## Storing -/

/-- To write an entry leaves its file open. -/
theorem writeEntry_does {lock : Lock} {handle : HandleId}
    (h : Opened free files lock handle m.fs) (digest : Digest) (blob : Bytes) :
    m.Does free (writeEntry host digest handle blob)
      fun _ => Opened free files lock handle := by
  refine (hhost.write_opened h blob).bind fun answer m₁ _ hopened => ?_
  rcases answer with error | _
  · exact .pure hopened
  · exact hhost.write_opened hopened _

/-- To add an entry closes it again, on every way out. -/
theorem addEntry_does (hnames : free.names) (h : m.fs.handles = files) (digest : Digest)
    (path : Path) (size : Nat) (key : Key) (blob : Bytes) :
    m.Does free (addEntry host digest path size key blob) (Leaves files) := by
  refine (hhost.create h _).bind fun answer m₁ _ hopens => ?_
  rcases answer with error | handle
  · exact (hhost.report hopens _).bind fun _ _ _ h => .pure h
  have hopened : Opened free files .exclusive handle m₁.fs := hopens
  refine (writeEntry_does hhost hopened digest blob).bind fun written m₂ _ hopened => ?_
  rcases written with error | _
  · refine (hhost.report rfl _).bind fun _ m₃ hle h => ?_
    have hopened := hopened.mono hle h
    refine (hhost.remove hnames rfl _).bind fun _ m₄ hle h => ?_
    exact (hhost.close_opened (hopened.mono hle h)).bind fun _ _ _ h => .pure h
  · refine (hhost.report rfl _).bind fun _ m₃ hle h => ?_
    exact (hhost.close_opened (hopened.mono hle h)).bind fun _ _ _ h => .pure h

/-- To make room leaves the same files open. -/
theorem makeRoom_does (hnames : free.names) (h : m.fs.handles = files) (path : Path)
    (budget added : Nat) : m.Does free (makeRoom host path budget added) (Leaves files) := by
  refine (sizeOf_does hhost h path).bind fun size m' _ h => ?_
  split
  · exact .pure h
  · exact (evict_does hhost hnames h path _).bind fun _ _ _ h => .pure h

/-- So does storing a blob. -/
theorem set_does (hnames : free.names) (h : m.fs.handles = files) (cache : Cache) (key : Key)
    (blob : Bytes) : m.Does free (set host cache key blob) (Leaves files) := by
  unfold set
  rcases cache.state with _ | ⟨path, budget⟩
  · exact .pure h
  simp only
  split
  · exact .pure h
  split
  · exact .pure h
  split
  · exact (hhost.report h _).bind fun _ _ _ h => .pure h
  · exact (makeRoom_does hhost hnames h path _ _).bind fun _ _ _ h =>
      addEntry_does hhost hnames h cache.digest path _ key blob

/-! ## Loading -/

/-- So does offering one, and that is never a hit. -/
theorem offer_does (hnames : free.names) (h : m.fs.handles = files) (cache : Cache) (key : Key)
    (blob : Bytes) :
    m.Does free (offer host cache key blob)
      fun status fs => status ≠ .hit ∧ fs.handles = files := by
  refine (set_does hhost hnames h cache key blob).bind fun outcome m₁ _ h => ?_
  rcases outcome with size | reason | _
  · exact .pure ⟨by simp, h⟩
  · exact (hhost.report h _).bind fun _ _ _ h => .pure ⟨by simp, h⟩
  · exact (hhost.report h _).bind fun _ _ _ h => .pure ⟨by simp, h⟩

/-- A load opens the entry if it is a hit, and nothing else. -/
theorem load_does (hnames : free.names) (h : m.fs.handles = files) (cache : Cache)
    (compiler : Option Compiler) {compile : StateM Machine (Except String Bytes)}
    (hcompile : ∀ m : Machine, m.fs.handles = files → m.Does free compile (Leaves files))
    (request : Request) :
    m.Does free (load host cache compiler compile request) (Loads free files) := by
  have howned : ∀ (m : Machine) (bytes : Bytes) (status : LoadStatus), status ≠ .hit →
      m.fs.handles = files →
      m.Does free (return .ok ⟨.owned bytes, status⟩) (Loads free files) :=
    fun m bytes status hstatus h => .pure ⟨⟨(nomatch ·), (absurd · hstatus)⟩, h⟩
  unfold load
  split
  · exact .pure h
  split
  · exact howned m _ _ (by simp) h
  split
  · refine (hhost.report h _).bind fun _ m₁ _ h => (hcompile m₁ h).bind fun compiled m₂ _ h => ?_
    rcases compiled with text | bytes
    · exact .pure h
    · exact howned m₂ _ _ (by simp) h
  refine (get_does hhost hnames h cache _).bind fun answer m₁ _ hfinds => ?_
  rcases answer with _ | blob
  · refine (hcompile m₁ hfinds).bind fun compiled m₂ _ h => ?_
    rcases compiled with text | bytes
    · exact .pure h
    · exact (offer_does hhost hnames h cache _ bytes).bind fun status m₃ _ hoffer =>
        howned m₃ _ _ hoffer.1 hoffer.2
  · obtain ⟨hmapped, hown⟩ := hfinds
    exact .pure ⟨⟨fun _ => rfl, fun _ => hmapped⟩, hown⟩

/-! ## Opening -/

/-- To report events leaves the same files open. -/
theorem reportAll_does (h : m.fs.handles = files) (events : List Event) :
    m.Does free (reportAll host events) (Leaves files) := by
  induction events generalizing m with
  | nil => exact .pure h
  | cons event rest ih => exact (hhost.report h event).bind fun _ _ _ h => ih h

/-- So does finding out whether a cache is enabled. -/
theorem stateOfConfig_does (h : m.fs.handles = files) (config : Config) :
    m.Does free (CacheState.ofConfig host config) (Leaves files) := by
  unfold CacheState.ofConfig
  rcases config.usableDirectory with _ | path
  · exact (hhost.report h _).bind fun _ _ _ h => .pure h
  refine (hhost.createDirectories h path).bind fun made m₁ _ h => ?_
  rcases made with error | _
  · exact (hhost.report h _).bind fun _ _ _ h => .pure h
  · exact (hhost.report h _).bind fun _ _ _ h => .pure h

/-- So does opening a cache. -/
theorem ofConfig_does (h : m.fs.handles = files) (digest : Digest) (config : Config) :
    m.Does free (ofConfig host digest config) (Leaves files) :=
  (stateOfConfig_does hhost h config).bind fun _ _ _ h => .pure h

/-- So does opening one from the environment. -/
theorem ofEnvironment_does (h : m.fs.handles = files) (digest : Digest) (env : Environment) :
    m.Does free (ofEnvironment host digest env) (Leaves files) := by
  have hconfig : m.Does free (configOf host env) (Leaves files) := by
    refine (reportAll_does hhost h _).bind fun _ m₁ _ h => ?_
    rcases Config.ofEnvironment env with error | config
    · exact (hhost.report h _).bind fun _ _ _ h => .pure h
    · exact .pure h
  exact hconfig.bind fun config _ _ h => ofConfig_does hhost h digest config

end Cache

end caches

/-! ## The tool -/

namespace Cli

open Machine (desk host_keeps)

variable {free : Freedom} {m : Machine} {files : Table HandleId OpenFile} {globals : Globals}
  {env : Environment}

/-- A command that needs a configuration leaves open what its use of it leaves open. -/
theorem withConfig_does (h : m.fs.handles = files) {use : Config → StateM Machine Report}
    (huse : ∀ (m : Machine), m.fs.handles = files →
      ∀ config, m.Does free (use config) (Leaves files)) :
    m.Does free (withConfig desk globals env use) (Leaves files) := by
  refine (Cache.reportAll_does (host_keeps free) h _).bind fun _ m₁ _ h => ?_
  rcases configOf globals env with error | config
  · exact .pure h
  · exact huse m₁ h config

/-- So does one that needs a cache. -/
theorem withCache_does (h : m.fs.handles = files) {use : Cache → StateM Machine Report}
    (huse : ∀ (m : Machine), m.fs.handles = files →
      ∀ cache, m.Does free (use cache) (Leaves files)) :
    m.Does free (withCache desk globals env use) (Leaves files) := by
  refine withConfig_does h fun m h config => ?_
  refine (Cache.ofConfig_does (host_keeps free) h Sha1.digest config).bind fun cache m₁ _ h => ?_
  split
  · exact huse m₁ h cache
  · exact .pure h

/-- So does one that needs a key. -/
theorem withKey_does (h : m.fs.handles = files) {use : Key → StateM Machine Report}
    (huse : ∀ key, m.Does free (use key) (Leaves files)) (text : String) :
    m.Does free (withKey text use) (Leaves files) := by
  unfold withKey
  rcases Key.parse? text with _ | key
  · exact .pure h
  · exact huse key

/-- To read a file of the tool leaves the same files open. -/
theorem contentOf_does (h : m.fs.handles = files) (path : Path) :
    m.Does free (desk.contentOf path) (Leaves files) := Machine.askFiles_does h _

/-- To print a key leaves the same files open. -/
theorem key_does (h : m.fs.handles = files) (options : KeyOptions) (json : Bool) :
    m.Does free (key desk options json) (Leaves files) := by
  refine (contentOf_does h options.input).bind fun content m₁ _ h => ?_
  rcases content with cause | input <;> exact .pure h

section caches

variable (h : m.fs.handles = files)
include h

/-- So does showing the cache. -/
theorem info_does (json : Bool) : m.Does free (info desk globals env json) (Leaves files) :=
  withConfig_does h fun _ h config =>
    (Cache.ofConfig_does (host_keeps free) h Sha1.digest config).bind fun cache _ _ h =>
      (Cache.entries_does (host_keeps free) h cache).bind fun _ _ _ h => .pure h

/-- So does listing its entries. -/
theorem list_does (json : Bool) : m.Does free (list desk globals env json) (Leaves files) := by
  refine withCache_does h fun m h cache => ?_
  refine (Cache.entries_does (host_keeps free) h cache).bind fun entries m₁ _ h => ?_
  split <;> exact .pure h

variable (hnames : free.names)
include hnames

/-- So does checking it. -/
theorem verify_does (json : Bool) : m.Does free (verify desk globals env json) (Leaves files) :=
  withCache_does h fun _ h cache =>
    (Cache.verify_does (host_keeps free) hnames h cache).bind fun _ _ _ h => .pure h

/-- So does trimming it. -/
theorem trim_does : m.Does free (trim desk globals env) (Leaves files) := by
  refine withCache_does h fun m h cache => ?_
  refine (Cache.trim_does (host_keeps free) hnames h cache).bind fun freed m₁ _ h => ?_
  split
  · exact .pure h
  · exact (Cache.size_does (host_keeps free) h cache).bind fun _ _ _ h => .pure h

/-- So does clearing it. -/
theorem clear_does : m.Does free (clear desk globals env) (Leaves files) :=
  withCache_does h fun _ h cache =>
    (Cache.clear_does (host_keeps free) hnames h cache).bind fun _ _ _ h =>
      (Cache.entries_does (host_keeps free) h cache).bind fun _ _ _ h => .pure h

/-- So does putting a blob into it. -/
theorem put_does (text : String) (blob : Path) (json : Bool) :
    m.Does free (put desk globals env text blob json) (Leaves files) := by
  refine withCache_does h fun m h cache => withKey_does h (fun key => ?_) text
  refine (contentOf_does h blob).bind fun content m₁ _ h => ?_
  rcases content with cause | content
  · exact .pure h
  · exact (Cache.set_does (host_keeps free) hnames h cache key content).bind fun _ _ _ h =>
      .pure h

end caches

/-- A blob that is written to a file is written to that file only, and only if its owner may write
to it. -/
theorem writeBlob_does (hcontents : free.contents) (h : m.fs.handles = files)
    (blob : Blob HandleId) (path : Path) :
    m.Does free (writeBlob desk blob path) (Leaves files) := by
  intro hready
  unfold writeBlob
  rw [Machine.run_bind]
  rcases htruncate : m.fs.truncate path with cause | ⟨id, opened⟩
  · have hrefused : desk.truncateFile path m = (.error cause, m) := by
      simp only [desk, Machine.onFiles, htruncate]
    rw [hrefused]
    exact ⟨.refl _ _, h⟩
  · have hopened : desk.truncateFile path m = (.ok (), m.withFiles opened) := by
      simp only [desk, Machine.onFiles, htruncate]
      rfl
    have hchanges : m.fs.Changes free opened :=
      .single (FileSystem.truncate_changes hready.legible hcontents htruncate)
    have hhandles : opened.handles = files :=
      (FileSystem.handles_truncate hready.legible htruncate).trans h
    have hread : (blob.read desk.host (m.withFiles opened)).2 = m.withFiles opened := by
      cases blob <;> rfl
    rw [hopened]
    simp only [Machine.run_bind, hread]
    split
    · exact ⟨hchanges, hhandles⟩
    · generalize (blob.read desk.host (m.withFiles opened)).1 = bytes
      rcases happend : opened.append path bytes with cause | written
      · simp only [desk, Machine.onFiles, Machine.fs_withFiles, happend]
        exact ⟨hchanges, hhandles⟩
      · simp only [desk, Machine.onFiles, Machine.fs_withFiles, happend]
        exact ⟨hchanges.change
          (FileSystem.append_truncate_changes hready.legible hcontents htruncate happend),
          (FileSystem.handles_append happend).trans hhandles⟩

/-- So does getting one from it. -/
theorem get_does (hnames : free.names) (hcontents : free.contents) (h : m.fs.handles = files)
    (text : String) (output : Option Path) :
    m.Does free (get desk globals env text output) (Leaves files) := by
  refine withCache_does h fun m h cache => withKey_does h (fun key => ?_) text
  refine (Cache.get_does (host_keeps free) hnames h cache key).bind fun answer m₁ _ hfinds => ?_
  rcases answer with _ | blob
  · exact .pure hfinds
  have hdeliver : m₁.Does free (deliver desk blob output) (Leaves m₁.fs.handles) := by
    unfold deliver
    rcases output with _ | path
    · exact (Blob.read_does (host_keeps free) rfl blob).bind fun _ _ _ h => .pure h
    · refine (writeBlob_does hcontents rfl blob path).bind fun written m₂ _ h => ?_
      rcases written with cause | _ <;> exact .pure h
  exact hdeliver.bind fun _ _ hle h =>
    (Blob.release_does (host_keeps free) (Own.mono hfinds.2 hle h)).bind fun _ _ _ h => .pure h

/-- So does every command line. -/
theorem run_does (hnames : free.names) (hcontents : free.contents) (h : m.fs.handles = files)
    (env : Environment) (words : List Bytes) :
    m.Does free (run desk env words) (Leaves files) := by
  have hcommand : ∀ globals command,
      m.Does free (runCommand desk globals env command) (Leaves files) := by
    intro globals command
    cases command with
    | info json => exact info_does h json
    | list json => exact list_does h json
    | verify json => exact verify_does h hnames json
    | trim => exact trim_does h hnames
    | clear => exact clear_does h hnames
    | key options json => exact key_does h options json
    | get text output => exact get_does hnames hcontents h text output
    | put text blob json => exact put_does h hnames text blob json
  unfold run
  rcases read words with error | _ | _ | ⟨globals, command⟩
  · exact .pure h
  all_goals
    first
    | exact .pure h
    | exact (hcommand _ _).bind fun _ _ _ h => .pure h

end Cli

/-! ## Sessions -/

namespace Session

open Machine (faultyHost faultyHost_keeps host_keeps)

/-- The lock under which a file is opened in this way. -/
def OpenMode.lock : OpenMode → Lock
  | .shared => .shared
  | .exclusive | .create => .exclusive

variable {free : Freedom} {m : Machine} {files : Table HandleId OpenFile}

/-- To mark an entry as used leaves the same files open. -/
theorem markUsed_does (h : m.fs.handles = files) (cache : Cache) (key : Key) :
    m.Does free (markUsed cache key) (Leaves files) := by
  refine Machine.onFiles_does fun _ => ?_
  rcases cache.state.directory? with _ | path
  · exact ⟨.refl _ _, h⟩
  simp only
  rcases htouch : m.fs.touch (Cache.entryPath path key) m.fs.now with cause | touched
  · exact ⟨.refl _ _, h⟩
  · exact ⟨FileSystem.touch_changes htouch, (FileSystem.handles_touch htouch).trans h⟩

/-- A look-up opens the entry that it finds, and nothing else. -/
theorem lookUp_does (hnames : free.names) (h : m.fs.handles = files) (faults : Faults)
    (cache : Cache) (key : Key) :
    m.Does free (lookUp (faultyHost faults) cache key) (Finds free files) := by
  refine (Cache.get_does (faultyHost_keeps free faults) hnames h cache key).bind
    fun answer m₁ _ hfinds => ?_
  rcases answer with _ | blob
  · exact .pure hfinds
  · exact (markUsed_does rfl cache key).bind fun _ _ hle h =>
      .pure ⟨hfinds.1, Own.mono hfinds.2 hle h⟩

/-- A load by a session opens the entry if it is a hit, and nothing else. -/
theorem loadGraph_does (hnames : free.names) (h : m.fs.handles = files) (faults : Faults)
    (cache : Cache) (compiler : Option Compiler) (request : Request)
    (compiled : Except String Bytes) :
    m.Does free (loadGraph (faultyHost faults) cache compiler request compiled)
      (Loads free files) := by
  have hcompile : ∀ m : Machine, m.fs.handles = files →
      m.Does free (do Machine.countCompilation; return compiled) (Leaves files) :=
    fun _ h _ => ⟨.refl _ _, h⟩
  refine (Cache.load_does (faultyHost_keeps free faults) hnames h cache compiler hcompile
    request).bind fun answer m₁ _ hloads => ?_
  rcases answer with error | loaded
  · exact .pure hloads
  dsimp only
  split
  · exact (markUsed_does rfl _ _).bind fun _ _ hle h =>
      .pure ⟨hloads.1, Own.mono hloads.2 hle h⟩
  · exact Machine.Does.pure hloads

/-- To open a cache leaves the same files open. -/
theorem openCache_does (h : m.fs.handles = files) (source : ConfigSource) (digest : Digest)
    (version : Option UInt32) (faults : Faults) :
    m.Does free (openCache source digest version faults) (Leaves files) := by
  have hhost := faultyHost_keeps free faults
  unfold openCache
  cases source with
  | config config =>
      exact (Cache.ofConfig_does hhost h digest config).bind fun _ _ _ h => .pure h
  | environment env =>
      exact (Cache.ofEnvironment_does hhost h digest env).bind fun _ _ _ h => .pure h
  | process bindings =>
      refine (Machine.askFiles_does h _).bind fun here m₁ _ h => ?_
      exact (Cache.ofEnvironment_does hhost h digest ⟨bindings, .ok here⟩).bind
        fun _ _ _ h => .pure h

/-- To open a file of the store opens that file, or nothing. -/
theorem openFile_does (h : m.fs.handles = files) (path : Path) (mode : OpenMode) :
    m.Does free (openFile path mode) (Opens free files mode.lock) := by
  cases mode with
  | shared => exact (host_keeps free).openShared h path
  | exclusive => exact (host_keeps free).openExclusive h path
  | create => exact (host_keeps free).create h path

/-- A command for an open file uses that file. -/
theorem onFile_does (h : m.fs.handles = files) {handle : HandleId} (hhandle : free.handles handle)
    (command : FileCommand) : m.Does free (onFile handle command) (Uses files handle) := by
  have hhost := host_keeps free
  cases command with
  | size => exact (hhost.size h handle).bind fun _ _ _ h => .pure (Machine.uses_of_eq h)
  | map =>
      refine (hhost.map h hhandle).bind fun answer m₁ _ huses => ?_
      rcases answer with error | bytes <;> exact .pure huses
  | mapped =>
      refine (hhost.mapped h handle).bind fun answer m₁ _ h => ?_
      rcases answer with _ | bytes <;> exact .pure (Machine.uses_of_eq h)
  | write data => exact (hhost.write h hhandle data).bind fun _ _ _ huses => .pure huses

/-- To run the tool leaves the same files open. -/
theorem runTool_does (hnames : free.names) (hcontents : free.contents) (h : m.fs.handles = files)
    (words : List Bytes) (bindings : List (String × Bytes)) :
    m.Does free (runTool words bindings) (Leaves files) :=
  fun hready => Cli.run_does hnames hcontents h _ words hready

end Session

end BlobCache
