import BlobCache.Proofs.Upkeep

/-!
# Storing

Storing makes room, which is calm, and then creates a file for the blob. `addEntry_eq` is the whole
of the second part: an entry is created under a name that is free and nowhere else, and what it
holds in the end is the blob with its checksum. Only a digest that gives no bytes can spoil that:
its checksum cannot be written, and the file is removed again.

`set_spec` says what can come of `set`: either the blob is stored, and the file system is as
`Machine.Stores` describes it, or the step is calm.
-/

namespace BlobCache

namespace FileSystem

/-! ## A file while it is written -/

/-- The file system with a new file under a name. -/
def planting (fs : FileSystem) (place : Location) (file : FileData) : FileSystem :=
  { fs with
    tree := fs.tree.set place (.file fs.next)
    files := fs.files.set fs.next file
    next := fs.next + 1 }

/-- The file system after an entry was created and closed again. -/
def storing (fs : FileSystem) (place : Location) (content : Bytes) : FileSystem :=
  (fs.planting place ⟨content, entryMode, fs.now⟩).spent

/-- A new file stands where it was put, and everything else as before. -/
theorem get?_planting (fs : FileSystem) (place other : Location) (file : FileData) :
    (fs.planting place file).tree.get? other =
      if other = place then some (.file fs.next) else fs.tree.get? other :=
  Table.get?_set _ _ _ _

/-- A new entry stands where it was put, and everything else as before. -/
theorem get?_storing (fs : FileSystem) (place other : Location) (content : Bytes) :
    (fs.storing place content).tree.get? other =
      if other = place then some (.file fs.next) else fs.tree.get? other :=
  Table.get?_set _ _ _ _

/-- The handle on a new file with some content, after a number of writes. -/
def writer (fs : FileSystem) (path : Path) (content : Bytes) (writes : Nat) : OpenFile :=
  ⟨fs.next, path, true, content.length, none, .exclusive, writes⟩

/-- The file system while the new file is still open. -/
def drafting (fs : FileSystem) (path : Path) (place : Location) (content : Bytes) (writes : Nat) :
    FileSystem :=
  { fs.storing place content with
    handles := fs.handles.set (fs.next + 1) (fs.writer path content writes) }

section drafts

variable {fs : FileSystem} {path : Path} {place : Location} {content : Bytes} {writes : Nat}

/-- A draft is open for its writer. -/
theorem get?_drafting :
    (fs.drafting path place content writes).handles.get? (fs.next + 1) =
      some (fs.writer path content writes) := Table.get?_set_self _ _ _

/-- What is spliced in at the end comes behind the rest. -/
theorem splice_append (content data : Bytes) :
    splice content content.length data = content ++ data := by
  unfold splice
  simp

/-- What is written goes behind what was written before. -/
theorem writeEntry_drafting {data : Bytes} (hne : data ≠ []) :
    (fs.drafting path place content writes).writeEntry (fs.next + 1) data =
      (.ok (), fs.drafting path place (content ++ data) (writes + 1)) := by
  have hempty : data.isEmpty = false := by simpa using hne
  unfold writeEntry
  rw [get?_drafting]
  simp only [hempty, Bool.false_eq_true, if_false, writer, if_true]
  unfold writeAt modifyFile modifyHandle drafting storing planting spent
  simp only [Table.modify_set_self, splice_append, writer, List.length_append]

/-- To write nothing to a draft fails. -/
theorem writeEntry_drafting_nil :
    (fs.drafting path place content writes).writeEntry (fs.next + 1) [] =
      (.error (.emptyWrite path), fs.drafting path place content writes) := by
  unfold writeEntry
  rw [get?_drafting]
  rfl

/-- A draft that is closed is an entry. -/
theorem close_drafting (hwf : fs.WellFormed) :
    (fs.drafting path place content writes).close (fs.next + 1) = fs.storing place content := by
  have hfree : fs.handles.get? (fs.next + 1) = none := by
    cases hget : fs.handles.get? (fs.next + 1) with
    | none => rfl
    | some file => exact absurd (hwf.handle_lt _ _ hget) (Nat.not_lt.mpr (Nat.le_succ _))
  unfold drafting close storing planting spent
  simp only [Table.erase_set_of_unbound hfree]

/-- What is written to a new file is all that it holds. -/
theorem writeAt_addFile (bytes : Bytes) (time : Int) :
    ((fs.addFile place plainMode []).2.writeAt fs.next 0 bytes).setAccessTime fs.next time =
      fs.planting place ⟨bytes, plainMode, time⟩ := by
  have hsplice : splice [] 0 bytes = bytes := by
    unfold splice
    simp
  unfold setAccessTime writeAt modifyFile addFile planting bind
  simp only [Table.modify_set_self, hsplice]

/-- Removing the name of a new file leaves a file that has none. -/
theorem unbind_storing (hfree : fs.tree.get? place = none) :
    (fs.storing place content).unbind place =
      { fs with
        files := fs.files.set fs.next ⟨content, entryMode, fs.now⟩
        next := fs.next + 2 } := by
  unfold storing planting spent unbind
  simp only [Table.erase_set_of_unbound hfree]

end drafts

/-- A name is looked up if it fits behind the path. -/
theorem under_eq_ok_iff {fs : FileSystem} {path : Path} {location : Location} {name : Bytes}
    {node : Option Node} :
    fs.under path location name = .ok node ↔
      Fits path name ∧ fs.tree.get? (location.child name) = node := by
  unfold under
  by_cases hfit : Fits path name
  · simp [hfit]
  · simp [hfit]

/-- A new file takes no directory away. -/
theorem Leads.planting {fs : FileSystem} {path : Path} {location place : Location}
    (h : fs.Leads path location) (hfree : fs.tree.get? place = none) (file : FileData) :
    (fs.planting place file).Leads path location := by
  refine h.mono rfl fun other node hget _ => ?_
  have hne : other ≠ place := by
    rintro rfl
    rw [hfree] at hget
    cases hget
  exact (Table.get?_set_ne _ hne _).trans hget

/-- A path leads where it led when a new entry is put in a free place. -/
theorem Leads.storing {fs : FileSystem} {path : Path} {location place : Location}
    (h : fs.Leads path location) (hfree : fs.tree.get? place = none) (content : Bytes) :
    (fs.storing place content).Leads path location :=
  (h.planting hfree _).spent

/-- A new file can be put under a name. -/
theorem WellFormed.planting {fs : FileSystem} (h : fs.WellFormed) {location : Location}
    {name : Bytes} (hn : Path.IsName name) (hlen : name.length ≤ nameLimit) (file : FileData) :
    (fs.planting (location.child name) file).WellFormed where
  file_lt place id hget := by
    rw [get?_planting] at hget
    show id < fs.next + 1
    split at hget
    · cases hget
      exact Nat.lt_succ_self _
    · exact Nat.lt_succ_of_lt (h.file_lt place id hget)
  handle_lt handle file hget := Nat.lt_succ_of_lt (h.handle_lt handle file hget)
  open_lt handle file hget := Nat.lt_succ_of_lt (h.open_lt handle file hget)
  named directory other id hget := by
    rw [get?_planting] at hget
    split at hget
    · rename_i hplace
      rw [(Location.child_inj.mp hplace).2]
      exact ⟨hn, hlen⟩
    · exact h.named directory other id hget

/-- A new entry can be put under a name. -/
theorem WellFormed.storing {fs : FileSystem} (h : fs.WellFormed) {location : Location}
    {name : Bytes} (hn : Path.IsName name) (hlen : name.length ≤ nameLimit) (content : Bytes) :
    (fs.storing (location.child name) content).WellFormed :=
  (h.planting hn hlen _).spent

section planted

variable {fs : FileSystem} {place : Location} {id : FileId}

/-- A new file has the bytes given. -/
theorem contents_planting_self (fs : FileSystem) (place : Location) (file : FileData) :
    (fs.planting place file).contents fs.next = file.bytes := by
  unfold contents planting
  rw [Table.get?_set_self]
  rfl

/-- Other files keep their contents. -/
theorem contents_planting_of_lt {file : FileData} (h : id < fs.next) :
    (fs.planting place file).contents id = fs.contents id := by
  unfold contents planting
  rw [Table.get?_set_ne _ (Nat.ne_of_lt h)]

/-- A new entry has the content given. -/
theorem contents_storing_self (fs : FileSystem) (place : Location) (content : Bytes) :
    (fs.storing place content).contents fs.next = content :=
  contents_planting_self fs place _

/-- Other entries keep theirs. -/
theorem contents_storing_of_lt {content : Bytes} (h : id < fs.next) :
    (fs.storing place content).contents id = fs.contents id := by
  unfold storing
  rw [contents_spent, contents_planting_of_lt h]

/-- A new entry has one name at most. -/
theorem linkCount_storing_self {content : Bytes} (hwf : fs.WellFormed) :
    (fs.storing place content).linkCount (.file fs.next) ≤ 1 := by
  have h := linkCount_bind_le fs place (.file fs.next) (.file fs.next)
  rwa [hwf.linkCount_next, if_pos rfl] at h

/-- A new entry gives no further name to another file. -/
theorem linkCount_storing_of_lt {content : Bytes} (h : id < fs.next) :
    (fs.storing place content).linkCount (.file id) ≤ fs.linkCount (.file id) := by
  have hne : Node.file fs.next ≠ .file id := fun e => Nat.ne_of_gt h (Node.file.inj e)
  have h := linkCount_bind_le fs place (.file fs.next) (.file id)
  rwa [if_neg hne] at h

end planted

/-- A new entry is a file under a free name. -/
theorem createEntry_join {fs : FileSystem} {path : Path} {location : Location} {name : Bytes}
    (h : fs.Leads path location) (hn : Path.IsName name) :
    fs.createEntry (Path.join path name) =
      match fs.under path location name with
      | .error cause => (.error (.io (Path.join path name) cause), fs)
      | .ok (some _) => (.error (.io (Path.join path name) (.system .alreadyExists)), fs)
      | .ok none =>
        (.ok (fs.next + 1), fs.drafting (Path.join path name) (location.child name) [] 0) := by
  unfold createEntry
  rw [create_join h hn]
  rcases fs.under path location name with cause | _ | node
  · rfl
  · rfl
  · rfl

/-- A file that could not be created has left no trace. -/
theorem createEntry_of_error {fs : FileSystem} {path : Path} {error : StoreError}
    (h : (fs.createEntry path).1 = .error error) : (fs.createEntry path).2 = fs := by
  unfold createEntry at h ⊢
  rcases hmade : fs.create path entryMode with cause | made
  · rfl
  · rw [hmade] at h
    cases h

end FileSystem

/-- A file that was made under a free name and removed again is lost, and nothing else. -/
theorem Machine.Calm.withdrawn {m : Machine} (digest : Digest) (location : Location)
    {place : Location} (hfree : m.fs.tree.get? place = none) (content : Bytes) :
    m.Calm digest location (m.withFiles ((m.fs.storing place content).unbind place)) := by
  rw [FileSystem.unbind_storing hfree]
  exact .withFiles (.addLost location m.fs _ 2) fun _ _ hget => hget

namespace Cache

variable {digest : Digest} {location : Location} {path : Path} {m : Machine} {key : Key}

/-! ## The two parts of storing -/

/-- Room is made by evicting what the entries and the new one have too much. -/
theorem makeRoom_eq (hlead : m.fs.Leads path location) (budget added : Nat) :
    makeRoom Machine.host path budget added m =
      if Entry.totalSize (m.fs.entriesIn location) + added ≤ budget then
        (Entry.totalSize (m.fs.entriesIn location), m)
      else
        let needed := Entry.totalSize (m.fs.entriesIn location) + added - budget
        (Entry.totalSize (m.fs.entriesIn location) - (evict Machine.host path needed m).1,
          (evict Machine.host path needed m).2) := by
  unfold makeRoom
  rw [Machine.run_bind, sizeOf_eq hlead]
  split
  · rfl
  · rfl

/-- To make room is calm. -/
theorem makeRoom_calm (digest : Digest) (hwf : m.fs.WellFormed) (hlead : m.fs.Leads path location)
    (budget added : Nat) :
    m.Calm digest location (makeRoom Machine.host path budget added m).2 := by
  rw [makeRoom_eq hlead]
  split
  · exact .refl _ _ _
  · exact evict_calm digest hwf hlead _

/-- A refusal to create a file never counts as a stored blob. -/
theorem outcomeOfRefusal_ne_stored (error : StoreError) (size : Nat) :
    outcomeOfRefusal error ≠ .stored size := by
  unfold outcomeOfRefusal
  split
  · split <;> simp
  · simp
  · simp

/-- A blob gets an entry if its name is free and its checksum has any bytes. -/
theorem addEntry_eq (hwf : m.fs.WellFormed) (hlead : m.fs.Leads path location)
    (hname : key.IsName) {blob : Bytes} (hne : blob ≠ []) (size : Nat) :
    addEntry Machine.host digest path size key blob m =
      match m.fs.under path location key.fileName with
      | .error cause =>
        (outcomeOfRefusal (.io (entryPath path key) cause),
          m.noting (.notCreated key (.io (entryPath path key) cause)))
      | .ok (some _) =>
        (.skipped .alreadyCached,
          m.noting (.notCreated key (.io (entryPath path key) (.system .alreadyExists))))
      | .ok none =>
        if digest.of blob = [] then
          (.failed,
            (m.withFiles ((m.fs.storing (location.child key.fileName) blob).unbind
              (location.child key.fileName))).noting
                (.notWritten key (.emptyWrite (entryPath path key))))
        else
          (.stored (blob.length + digest.size),
            (m.withFiles (m.fs.storing (location.child key.fileName)
              (Entry.encode digest blob))).noting
                (.stored key blob.length (size + (blob.length + digest.size)))) := by
  have hcreate : Machine.host.create (entryPath path key) m =
      ((m.fs.createEntry (entryPath path key)).1,
        m.withFiles (m.fs.createEntry (entryPath path key)).2) := rfl
  have hwrite : ∀ (m : Machine) handle data, Machine.host.write handle data m =
      ((m.fs.writeEntry handle data).1, m.withFiles (m.fs.writeEntry handle data).2) :=
    fun _ _ _ => rfl
  have hjoin : entryPath path key = Path.join path key.fileName := rfl
  unfold addEntry
  rw [Machine.run_bind, hcreate, hjoin, FileSystem.createEntry_join hlead hname]
  rcases hunder : m.fs.under path location key.fileName with cause | node | node
  · rfl
  · have hdraft : (m.fs.drafting (Path.join path key.fileName) (location.child key.fileName)
          [] 0).writeEntry (m.fs.next + 1) blob =
        (.ok (), m.fs.drafting (Path.join path key.fileName) (location.child key.fileName)
          blob 1) := FileSystem.writeEntry_drafting hne
    simp only [Machine.run_bind, writeEntry, hwrite, Machine.fs_withFiles, hdraft]
    by_cases hsum : digest.of blob = []
    · obtain ⟨hfit, hfree⟩ := FileSystem.under_eq_ok_iff.mp hunder
      have hlead' : (m.fs.drafting (Path.join path key.fileName) (location.child key.fileName)
          blob 1).Leads path location :=
        (hlead.storing hfree blob).mono rfl fun _ _ hget _ => hget
      have hremove := FileSystem.removeEntry_join hlead' hname hfit (Table.get?_set_self _ _ _)
      have hclose : ((m.fs.drafting (Path.join path key.fileName) (location.child key.fileName)
            blob 1).unbind (location.child key.fileName)).close (m.fs.next + 1) =
          (m.fs.storing (location.child key.fileName) blob).unbind
            (location.child key.fileName) :=
        congrArg (FileSystem.unbind · _) (FileSystem.close_drafting hwf)
      simp only [hsum, if_true, FileSystem.writeEntry_drafting_nil, Machine.run_bind,
        Machine.host_report, Machine.host_remove, Machine.fs_noting, Machine.fs_withFiles, hremove,
        Machine.host_close, hclose, Machine.withFiles_noting, Machine.withFiles_withFiles]
      rfl
    · simp only [hsum, if_false, FileSystem.writeEntry_drafting hsum, Machine.run_bind,
        Machine.host_report, Machine.host_close, Machine.fs_noting, Machine.fs_withFiles,
        FileSystem.close_drafting hwf, Machine.withFiles_noting, Machine.withFiles_withFiles]
      rfl
  · rfl

/-! ## Storing as a whole -/

end Cache

/-- The host that writes in another way. -/
def Machine.writing (write : HandleId → Bytes → StateM Machine (Except StoreError Unit)) :
    Host (StateM Machine) HandleId := { host with write := write }

/-- A blob was stored: after a calm step its name was free, and then a new file was put there. -/
structure Machine.Stores (digest : Digest) (location : Location) (path : Path) (key : Key)
    (blob : Bytes) (m m' : Machine) : Prop where
  /-- Room was made, the name was free, and a file was put there. -/
  steps : ∃ roomy : Machine, m.Calm digest location roomy ∧
    roomy.fs.tree.get? (location.child key.fileName) = none ∧
    m'.fs = roomy.fs.storing (location.child key.fileName) (Entry.encode digest blob) ∧
    roomy.log <+: m'.log
  /-- The key can be the name of a file. -/
  isName : key.IsName
  /-- The name could be reached by the path. -/
  fits : FileSystem.Fits path key.fileName
  /-- The blob was not empty. -/
  blob_ne_nil : blob ≠ []

namespace Machine.Stores

variable {digest : Digest} {location : Location} {path : Path} {key : Key} {blob : Bytes}
  {m m' : Machine}

/-- To store a blob leaves the working directory where it is. -/
theorem current_eq (h : m.Stores digest location path key blob m') :
    m'.fs.current = m.fs.current := by
  obtain ⟨roomy, hcalm, -, hfs, -⟩ := h.steps
  rw [hfs]
  exact hcalm.files.current_eq

/-- To store a blob leaves paths leading where they led. -/
theorem leads (h : m.Stores digest location path key blob m') {other : Path} {place : Location}
    (hlead : m.fs.Leads other place) : m'.fs.Leads other place := by
  obtain ⟨roomy, hcalm, hfree, hfs, -⟩ := h.steps
  rw [hfs]
  exact (hcalm.leads hlead).storing hfree _

/-- To store a blob keeps the file system well formed. -/
theorem wellFormed (h : m.Stores digest location path key blob m') (hwf : m.fs.WellFormed) :
    m'.fs.WellFormed := by
  obtain ⟨roomy, hcalm, -, hfs, -⟩ := h.steps
  rw [hfs]
  exact (hcalm.wellFormed hwf).storing h.isName h.fits.2 _

/-- Calm steps may come first. -/
theorem after_calm {m₀ : Machine} (hcalm : m₀.Calm digest location m) (hwf : m₀.fs.WellFormed)
    (h : m.Stores digest location path key blob m') :
    m₀.Stores digest location path key blob m' := by
  obtain ⟨roomy, hroomy, hrest⟩ := h.steps
  exact ⟨⟨roomy, hcalm.trans hwf hroomy, hrest⟩, h.isName, h.fits, h.blob_ne_nil⟩

end Machine.Stores

namespace Cache

variable {location : Location} {m : Machine} {key : Key}

/-- Eviction does not write. -/
theorem evictFrom_writing (write : HandleId → Bytes → StateM Machine (Except StoreError Unit))
    (path : Path) (needed : Nat) (entries : List Entry) (freed : Nat) :
    evictFrom (Machine.writing write) path needed entries freed =
      evictFrom Machine.host path needed entries freed := by
  induction entries generalizing freed with
  | nil => rfl
  | cons entry rest ih =>
      simp only [evictFrom, ih]
      rfl

/-- Nor does making room. -/
theorem makeRoom_writing (write : HandleId → Bytes → StateM Machine (Except StoreError Unit))
    (path : Path) (budget added : Nat) :
    makeRoom (Machine.writing write) path budget added =
      makeRoom Machine.host path budget added := by
  unfold makeRoom evict
  simp only [evictFrom_writing]
  rfl

/-- Storing is given up at once, or room is made and an entry added. How the host writes makes no
difference before that. -/
theorem set_writing_cases (write : HandleId → Bytes → StateM Machine (Except StoreError Unit))
    (cache : Cache) (key : Key) (blob : Bytes) (m : Machine) :
    (∃ reason m', set (Machine.writing write) cache key blob m = (.skipped reason, m') ∧
        (m' = m ∨ ∃ budget, m' = m.noting (.blobTooLarge key blob.length budget))) ∨
      ∃ path budget, cache.state = .enabled path budget ∧ key.isEmpty = false ∧ blob ≠ [] ∧
        blob.length ≤ budget.toNat ∧
        set (Machine.writing write) cache key blob m =
          addEntry (Machine.writing write) cache.digest path
            (makeRoom Machine.host path budget.toNat (blob.length + cache.digest.size) m).1 key blob
            (makeRoom Machine.host path budget.toNat (blob.length + cache.digest.size) m).2 := by
  rcases hstate : cache.state with _ | ⟨path, budget⟩
  · left
    refine ⟨.disabled, m, ?_, Or.inl rfl⟩
    unfold set
    rw [hstate]
    rfl
  unfold set
  simp only [hstate, makeRoom_writing]
  by_cases hkey : key.isEmpty = true
  · rw [if_pos hkey]
    exact Or.inl ⟨.emptyKey, m, rfl, Or.inl rfl⟩
  rw [if_neg hkey]
  by_cases hempty : blob.isEmpty = true
  · rw [if_pos hempty]
    exact Or.inl ⟨.emptyBlob, m, rfl, Or.inl rfl⟩
  rw [if_neg hempty]
  by_cases hbig : budget.toNat < blob.length
  · rw [if_pos hbig]
    exact Or.inl ⟨.tooLarge, _, rfl, Or.inr ⟨budget, rfl⟩⟩
  rw [if_neg hbig]
  refine Or.inr ⟨path, budget, rfl, by simpa using hkey, ?_, Nat.le_of_not_lt hbig, rfl⟩
  rintro rfl
  exact hempty rfl

/-- Storing a blob is given up before any file is looked at, or room is made and an entry added. -/
theorem set_cases (cache : Cache) (key : Key) (blob : Bytes) (m : Machine) :
    (∃ reason m', set Machine.host cache key blob m = (.skipped reason, m') ∧
        (m' = m ∨ ∃ budget, m' = m.noting (.blobTooLarge key blob.length budget))) ∨
      ∃ path budget, cache.state = .enabled path budget ∧ key.isEmpty = false ∧ blob ≠ [] ∧
        blob.length ≤ budget.toNat ∧
        set Machine.host cache key blob m =
          addEntry Machine.host cache.digest path
            (makeRoom Machine.host path budget.toNat (blob.length + cache.digest.size) m).1 key blob
            (makeRoom Machine.host path budget.toNat (blob.length + cache.digest.size) m).2 :=
  set_writing_cases Machine.host.write cache key blob m

/-- Either a blob is stored or the step is calm. -/
theorem set_spec {cache : Cache} (hwf : m.fs.WellFormed)
    (hlead : ∀ path, cache.state.directory? = some path → m.fs.Leads path location)
    (hkey : key = .empty ∨ key.IsName) (blob : Bytes) :
    (m.Calm cache.digest location (set Machine.host cache key blob m).2 ∧
        ∀ size, (set Machine.host cache key blob m).1 ≠ .stored size) ∨
      ∃ path, cache.state.directory? = some path ∧
        (set Machine.host cache key blob m).1 = .stored (blob.length + cache.digest.size) ∧
        m.Stores cache.digest location path key blob (set Machine.host cache key blob m).2 := by
  rcases set_cases cache key blob m with
    ⟨reason, m', heq, hm'⟩ | ⟨path, budget, hstate, hnonempty, hne, -, heq⟩
  · left
    rw [heq]
    refine ⟨?_, fun size h => by cases h⟩
    rcases hm' with rfl | ⟨budget, rfl⟩
    · exact .refl _ _ _
    · exact .noting _ _ _ _
  have hname : key.IsName := hkey.resolve_left fun e => by rw [e] at hnonempty; cases hnonempty
  have hdir : cache.state.directory? = some path := by rw [hstate]; rfl
  have hlead := hlead path hdir
  rw [heq]
  have hroom := makeRoom_calm cache.digest hwf hlead budget.toNat (blob.length + cache.digest.size)
  generalize makeRoom Machine.host path budget.toNat (blob.length + cache.digest.size) m = room
    at hroom ⊢
  obtain ⟨size, roomy⟩ := room
  have hwf' : roomy.fs.WellFormed := hroom.wellFormed hwf
  simp only
  rw [addEntry_eq hwf' (hroom.leads hlead) hname hne]
  rcases hunder : roomy.fs.under path location key.fileName with cause | node | node
  · exact Or.inl ⟨hroom.trans hwf (.noting _ _ _ _), outcomeOfRefusal_ne_stored _⟩
  · obtain ⟨hfit, hfree⟩ := FileSystem.under_eq_ok_iff.mp hunder
    by_cases hsum : cache.digest.of blob = []
    · left
      have hlost := Machine.Calm.withdrawn cache.digest location hfree blob
      simp only [hsum, if_true]
      exact ⟨hroom.trans hwf (hlost.trans hwf' (.noting _ _ _ _)), fun size h => by cases h⟩
    · right
      simp only [hsum, if_false]
      exact ⟨path, hdir, trivial, ⟨roomy, hroom, hfree, rfl, List.prefix_append _ _⟩, hname, hfit,
        hne⟩
  · exact Or.inl ⟨hroom.trans hwf (.noting _ _ _ _), fun size h => by cases h⟩

end Cache

end BlobCache
