import BlobCache.Proofs.Calm
import BlobCache.Proofs.Refusals

/-!
# Looking up, checking and evicting

Everything that a cache does to its directory short of storing a blob is calm: `get_calm`,
`verify_calm`, `trim_calm` and `clear_calm`, and `evict_calm` for the eviction that makes room. The
loops behind them are opened once, by one equation for each (`evictFrom_cons`, `verifyFrom_cons`),
which says what happens to one entry and goes on with the rest.
-/

namespace BlobCache

namespace Machine

variable {digest : Digest} {location : Location} {m m' : Machine} {name : Bytes} {id : FileId}

/-- An entry may go if it was damaged or if its eviction is reported. -/
theorem Calm.unbind (hget : m.fs.tree.get? (location.child name) = some (.file id))
    (hfs : m'.fs = m.fs.spent.unbind (location.child name))
    (hlog : m.log <+: m'.log)
    (hcause : ¬Entry.Sealed digest (m.fs.contents id) ∨
      ∃ text accessed size, Path.ofText text = name ∧ .evicted text accessed size ∈ m'.log) :
    m.Calm digest location m' where
  files := by
    rw [hfs]
    exact (FileSystem.Calm.spent location m.fs).trans (FileSystem.Calm.unbind hget)
  reported := hlog
  gone other otherId hother := by
    by_cases hname : other = name
    · subst hname
      rw [hget] at hother
      cases hother
      exact Or.inr hcause
    · left
      have hne : location.child other ≠ location.child name :=
        fun e => hname (Location.child_inj.mp e).2
      rw [hfs]
      exact (Table.get?_erase_ne _ hne).trans hother

/-- To give out an identity is calm. -/
theorem Calm.spent (digest : Digest) (location : Location) (m : Machine) :
    m.Calm digest location (m.withFiles m.fs.spent) :=
  .withFiles (FileSystem.Calm.spent location m.fs) fun _ _ hget => hget

end Machine

namespace Cache

variable {digest : Digest} {location : Location} {path : Path} {m : Machine}

/-! ## Looking up -/

/-- Looking up an entry is calm, whatever comes of it. -/
theorem get_calm {cache : Cache} (hsized : cache.digest.Sized) (hwf : m.fs.WellFormed)
    (hlead : ∀ path, cache.state.directory? = some path → m.fs.Leads path location)
    {key : Key} (hkey : key = .empty ∨ key.IsName) :
    m.Calm cache.digest location (get Machine.host cache key m).2 := by
  rcases hdir : cache.state.directory? with _ | path
  · rw [get_of_disabled hdir]
    exact .refl _ _ _
  rcases hkey with rfl | hname
  · rw [get_empty]
    exact .refl _ _ _
  rw [get_eq hwf (hlead path hdir) hdir hname]
  rcases hgranted : m.fs.granted (entryPath path key) .shared with error | id
  · exact .noting _ _ _ _
  have hget := ((FileSystem.granted_eq_ok_iff (hlead path hdir) hname).mp hgranted).2.1
  rcases hcheck : Entry.check cache.digest (entryPath path key) (m.fs.contents id) with
    error | length
  · by_cases hcorrupt : error.isCorrupt = true
    · simp only [hcheck, hcorrupt, if_true]
      refine .unbind hget rfl (List.prefix_append _ _) (Or.inl ?_)
      exact Entry.not_sealed_of_isCorrupt hsized hcheck hcorrupt
    · simp only [hcheck, hcorrupt]
      exact (Machine.Calm.spent _ _ m).trans hwf (.noting _ _ _ _)
  · simp only [hcheck]
    have hstep : m.Calm cache.digest location
        (m.withFiles (m.fs.holding (entryPath path key) id)) :=
      .withFiles (FileSystem.Calm.holding hget _) fun _ _ h => h
    exact hstep.trans hwf (.noting _ _ _ _)

/-! ## Looking around -/

/-- To ask for the size of a cache is calm. -/
theorem size_calm (digest : Digest) {cache : Cache}
    (hlead : ∀ path, cache.state.directory? = some path → m.fs.Leads path location) :
    m.Calm digest location (size Machine.host cache m).2 := by
  unfold size
  rcases hdir : cache.state.directory? with _ | path
  · exact .refl _ _ _
  · simp only [sizeOf_eq (hlead path hdir)]
    exact .refl _ _ _

/-- To list its entries is calm. -/
theorem entries_calm (digest : Digest) {cache : Cache}
    (hlead : ∀ path, cache.state.directory? = some path → m.fs.Leads path location) :
    m.Calm digest location (entries Machine.host cache m).2 := by
  unfold entries
  rcases hdir : cache.state.directory? with _ | path
  · exact .refl _ _ _
  · simp only [entriesOf_eq (hlead path hdir)]
    exact .refl _ _ _

/-! ## Evicting -/

end Cache

/-- The machine after an entry was evicted. -/
def Machine.evicting (m : Machine) (location : Location) (entry : Entry) (id : FileId) : Machine :=
  (m.withFiles (m.fs.spent.unbind (location.child (Path.ofText entry.name)))).noting
    (.evicted entry.name entry.accessed (m.fs.contents id).length)

namespace Cache

variable {digest : Digest} {location : Location} {path : Path} {m : Machine}

/-- Eviction passes over an entry that cannot be locked or that may not be removed, and removes any
other one. -/
theorem evictFrom_faulty_cons (faults : Faults) (hwf : m.fs.WellFormed)
    (hlead : m.fs.Leads path location) {entry : Entry}
    (hname : Path.IsName (Path.ofText entry.name)) (needed freed : Nat) (rest : List Entry) :
    evictFrom (Machine.faultyHost faults) path needed (entry :: rest) freed m =
      match faults.granted m.fs (Path.join path (Path.ofText entry.name)) with
      | .error error =>
        evictFrom (Machine.faultyHost faults) path needed rest freed
          (m.noting (.busy entry.name error))
      | .ok id =>
        if faults.remove.contains (Path.ofText entry.name) then
          evictFrom (Machine.faultyHost faults) path needed rest freed
            ((m.withFiles m.fs.spent).noting (.notEvicted entry.name
              (Faults.refusal (Path.join path (Path.ofText entry.name)))))
        else if needed ≤ freed + (m.fs.contents id).length then
          (freed + (m.fs.contents id).length, m.evicting location entry id)
        else
          evictFrom (Machine.faultyHost faults) path needed rest
            (freed + (m.fs.contents id).length) (m.evicting location entry id) := by
  have hlast := Faults.lastName_join path hname
  have hopen : (Machine.faultyHost faults).openExclusive
      (Path.join path (Path.ofText entry.name)) = Machine.refusing faults.openExclusive
        (Path.join path (Path.ofText entry.name))
        (Machine.host.openExclusive (Path.join path (Path.ofText entry.name))) := rfl
  have hremoving : (Machine.faultyHost faults).remove (Path.join path (Path.ofText entry.name)) =
      Machine.refusing faults.remove (Path.join path (Path.ofText entry.name))
        (Machine.host.remove (Path.join path (Path.ofText entry.name))) := rfl
  rw [evictFrom, Machine.run_bind, hopen]
  unfold Faults.granted
  by_cases hbarred : faults.openExclusive.contains
      (Faults.lastName (Path.join path (Path.ofText entry.name))) = true
  · rw [Machine.refusing_of_contains hbarred, if_pos hbarred]
    rfl
  have hopened : Machine.host.openExclusive (Path.join path (Path.ofText entry.name)) m =
      ((m.fs.openEntry (Path.join path (Path.ofText entry.name)) .exclusive).1,
        m.withFiles (m.fs.openEntry (Path.join path (Path.ofText entry.name)) .exclusive).2) := rfl
  rw [Machine.refusing_of_not_contains hbarred, if_neg hbarred, hopened, FileSystem.openEntry_eq]
  rcases hgranted : m.fs.granted (Path.join path (Path.ofText entry.name)) .exclusive with
    error | id
  · rfl
  obtain ⟨hfit, hget, -, -⟩ := (FileSystem.granted_eq_ok_iff hlead hname).mp hgranted
  have hhandle := FileSystem.get?_addHandle m.fs
    (m.fs.opened (Path.join path (Path.ofText entry.name)) .exclusive id)
  have hsize : (m.fs.opened (Path.join path (Path.ofText entry.name)) .exclusive id).size =
    (m.fs.contents id).length := rfl
  have hclose := FileSystem.close_addHandle hwf
    (m.fs.opened (Path.join path (Path.ofText entry.name)) .exclusive id)
  by_cases hkept : faults.remove.contains (Path.ofText entry.name) = true
  · have hnamed : faults.remove.contains
        (Faults.lastName (Path.join path (Path.ofText entry.name))) = true := by rwa [hlast]
    have hrefused := Machine.refusing_of_contains hnamed
      (Machine.host.remove (Path.join path (Path.ofText entry.name)))
    simp only [if_pos hkept, Machine.run_bind, Machine.faultyHost_size, Machine.host_size,
      Machine.faultyHost_report, Machine.host_report, Machine.faultyHost_close,
      Machine.host_close, hremoving, hrefused, Machine.fs_noting, Machine.fs_withFiles, hclose,
      Machine.withFiles_noting, Machine.withFiles_withFiles]
  · have hlead' : (m.fs.addHandle (m.fs.opened (Path.join path (Path.ofText entry.name))
        .exclusive id)).2.Leads path location := hlead.mono rfl fun _ _ h _ => h
    have hremove := FileSystem.removeEntry_join hlead' hname hfit hget
    have hgone : ((m.fs.addHandle (m.fs.opened (Path.join path (Path.ofText entry.name))
          .exclusive id)).2.unbind (location.child (Path.ofText entry.name))).close m.fs.next =
        m.fs.spent.unbind (location.child (Path.ofText entry.name)) :=
      congrArg (FileSystem.unbind · _) hclose
    have hnamed : ¬faults.remove.contains
        (Faults.lastName (Path.join path (Path.ofText entry.name))) = true := by rwa [hlast]
    have hallowed := Machine.refusing_of_not_contains hnamed
      (Machine.host.remove (Path.join path (Path.ofText entry.name)))
    simp only [if_neg hkept, Machine.run_bind, Machine.faultyHost_size, Machine.host_size,
      Machine.faultyHost_report, Machine.host_report, Machine.faultyHost_close,
      Machine.host_close, hremoving, hallowed, Machine.fs_withFiles, hhandle, Option.map_some,
      Option.getD_some, hsize, Machine.host_remove, hremove, Machine.fs_noting, hgone,
      Machine.withFiles_withFiles, Machine.withFiles_noting]
    split
    · rfl
    · rfl

/-- Where nothing is refused, eviction passes over an entry that is not admitted and removes one
that is. -/
theorem evictFrom_cons (hwf : m.fs.WellFormed) (hlead : m.fs.Leads path location) {entry : Entry}
    (hname : Path.IsName (Path.ofText entry.name)) (needed freed : Nat) (rest : List Entry) :
    evictFrom Machine.host path needed (entry :: rest) freed m =
      match m.fs.granted (Path.join path (Path.ofText entry.name)) .exclusive with
      | .error error =>
        evictFrom Machine.host path needed rest freed (m.noting (.busy entry.name error))
      | .ok id =>
        if needed ≤ freed + (m.fs.contents id).length then
          (freed + (m.fs.contents id).length, m.evicting location entry id)
        else
          evictFrom Machine.host path needed rest (freed + (m.fs.contents id).length)
            (m.evicting location entry id) := by
  have h := evictFrom_faulty_cons .none hwf hlead hname needed freed rest
  have hremove : Faults.none.remove = [] := rfl
  simpa only [Machine.faultyHost_none, Faults.granted_none, hremove, List.contains_nil,
    Bool.false_eq_true, if_false] using h

/-- To evict an entry that is there is calm. -/
theorem evicting_calm {entry : Entry} {id : FileId}
    (hget : m.fs.tree.get? (location.child (Path.ofText entry.name)) = some (.file id)) :
    m.Calm digest location (m.evicting location entry id) := by
  refine .unbind hget rfl (List.prefix_append _ _) (Or.inr ?_)
  exact ⟨entry.name, _, _, rfl, List.mem_append_right _ (List.mem_singleton_self _)⟩

/-- Evicting an entry leaves the other names alone. -/
theorem get?_evicting_ne {entry : Entry} {other : String} (hne : other ≠ entry.name)
    (id : FileId) :
    (m.evicting location entry id).fs.tree.get? (location.child (Path.ofText other)) =
      m.fs.tree.get? (location.child (Path.ofText other)) :=
  Table.get?_erase_ne _ fun e => hne (Utf8.encode_injective (Location.child_inj.mp e).2)

/-- To evict entries is calm. -/
theorem evictFrom_calm (digest : Digest) (hwf : m.fs.WellFormed) (hlead : m.fs.Leads path location)
    {entries : List Entry} (hnames : ∀ entry ∈ entries, Path.IsName (Path.ofText entry.name))
    (needed freed : Nat) :
    m.Calm digest location (evictFrom Machine.host path needed entries freed m).2 := by
  induction entries generalizing m freed with
  | nil => exact .refl _ _ _
  | cons entry rest ih =>
      have hname := hnames entry List.mem_cons_self
      have hrest : ∀ other ∈ rest, Path.IsName (Path.ofText other.name) :=
        fun other hmem => hnames other (List.mem_cons_of_mem _ hmem)
      rw [evictFrom_cons hwf hlead hname]
      rcases hgranted : m.fs.granted (Path.join path (Path.ofText entry.name)) .exclusive with
        error | id
      · have hstep := Machine.Calm.noting digest location m (.busy entry.name error)
        exact hstep.trans hwf (ih (hstep.wellFormed hwf) (hstep.leads hlead) hrest freed)
      · have hget := ((FileSystem.granted_eq_ok_iff hlead hname).mp hgranted).2.1
        have hstep : m.Calm digest location (m.evicting location entry id) := evicting_calm hget
        simp only
        split
        · exact hstep
        · exact hstep.trans hwf (ih (hstep.wellFormed hwf) (hstep.leads hlead) hrest _)

/-- What is listed is called by names. -/
theorem isName_of_mem_entriesIn (hwf : m.fs.WellFormed) {entry : Entry}
    (h : entry ∈ Entry.inOrder (m.fs.entriesIn location)) :
    Path.IsName (Path.ofText entry.name) := by
  obtain ⟨id, hget, -⟩ := FileSystem.mem_entriesIn.mp (Entry.mem_inOrder.mp h)
  exact (hwf.named _ _ _ hget).1

/-- An eviction goes through the entries in the order of use. -/
theorem evict_eq (hlead : m.fs.Leads path location) (needed : Nat) :
    evict Machine.host path needed m =
      evictFrom Machine.host path needed (Entry.inOrder (m.fs.entriesIn location)) 0 m := by
  unfold evict
  rw [Machine.run_bind, entriesOf_eq hlead]

/-- To evict from a directory is calm. -/
theorem evict_calm (digest : Digest) (hwf : m.fs.WellFormed) (hlead : m.fs.Leads path location)
    (needed : Nat) : m.Calm digest location (evict Machine.host path needed m).2 := by
  rw [evict_eq hlead]
  exact evictFrom_calm digest hwf hlead (fun _ => isName_of_mem_entriesIn hwf) needed 0

/-- To trim a cache is calm. -/
theorem trim_calm (digest : Digest) {cache : Cache} (hwf : m.fs.WellFormed)
    (hlead : ∀ path, cache.state.directory? = some path → m.fs.Leads path location) :
    m.Calm digest location (trim Machine.host cache m).2 := by
  unfold trim
  rcases hdir : cache.state.directory? with _ | path
  · exact .refl _ _ _
  · simp only [Machine.run_bind, sizeOf_eq (hlead path hdir)]
    split
    · exact .refl _ _ _
    · exact evict_calm digest hwf (hlead path hdir) _

/-- To clear a cache is calm. -/
theorem clear_calm (digest : Digest) {cache : Cache} (hwf : m.fs.WellFormed)
    (hlead : ∀ path, cache.state.directory? = some path → m.fs.Leads path location) :
    m.Calm digest location (clear Machine.host cache m).2 := by
  unfold clear
  rcases hdir : cache.state.directory? with _ | path
  · exact .refl _ _ _
  · exact evict_calm digest hwf (hlead path hdir) _

/-! ## Checking -/

/-- A check counts an entry and closes it again, or removes it if it is damaged. -/
theorem verifyFrom_cons (hwf : m.fs.WellFormed) (hlead : m.fs.Leads path location) {entry : Entry}
    (hname : Path.IsName (Path.ofText entry.name)) (rest : List Entry) (found : VerifyReport) :
    verifyFrom Machine.host digest path (entry :: rest) found m =
      match m.fs.granted (Path.join path (Path.ofText entry.name)) .shared with
      | .error error =>
        verifyFrom Machine.host digest path rest { found with skipped := found.skipped + 1 }
          (m.noting (.unverified entry.name error))
      | .ok id =>
        match Entry.check digest (Path.join path (Path.ofText entry.name)) (m.fs.contents id) with
        | .ok _ =>
          verifyFrom Machine.host digest path rest { found with valid := found.valid + 1 }
            (m.withFiles m.fs.spent)
        | .error error =>
          if error.isCorrupt then
            verifyFrom Machine.host digest path rest
              { found with corrupt := found.corrupt ++ [entry.name] }
              ((m.withFiles (m.fs.spent.unbind (location.child (Path.ofText entry.name)))).noting
                (.corruptFound entry.name error))
          else
            verifyFrom Machine.host digest path rest { found with skipped := found.skipped + 1 }
              ((m.withFiles m.fs.spent).noting (.unverified entry.name error)) := by
  rw [verifyFrom, Machine.run_bind, readEntry_eq hwf]
  rcases hgranted : m.fs.granted (Path.join path (Path.ofText entry.name)) .shared with error | id
  · simp [FileSystem.not_isCorrupt_of_granted hgranted]
  · obtain ⟨hfit, hget, -, -⟩ := (FileSystem.granted_eq_ok_iff hlead hname).mp hgranted
    have hremove := FileSystem.removeEntry_join hlead.spent hname hfit hget
    rcases hcheck : Entry.check digest (Path.join path (Path.ofText entry.name))
        (m.fs.contents id) with error | length
    · by_cases hcorrupt : error.isCorrupt = true
      · simp [hcheck, hcorrupt, hremove]
      · simp [hcheck, hcorrupt]
    · simp [hcheck, Blob.release, FileSystem.close_holding, hwf]

/-- To check entries is calm. -/
theorem verifyFrom_calm (hsized : digest.Sized) (hwf : m.fs.WellFormed)
    (hlead : m.fs.Leads path location) {entries : List Entry}
    (hnames : ∀ entry ∈ entries, Path.IsName (Path.ofText entry.name)) (found : VerifyReport) :
    m.Calm digest location (verifyFrom Machine.host digest path entries found m).2 := by
  induction entries generalizing m found with
  | nil => exact .refl _ _ _
  | cons entry rest ih =>
      have hname := hnames entry List.mem_cons_self
      have hrest : ∀ other ∈ rest, Path.IsName (Path.ofText other.name) :=
        fun other hmem => hnames other (List.mem_cons_of_mem _ hmem)
      have hthen : ∀ {m' : Machine}, m.Calm digest location m' → ∀ found,
          m.Calm digest location (verifyFrom Machine.host digest path rest found m').2 :=
        fun hstep found =>
          hstep.trans hwf (ih (hstep.wellFormed hwf) (hstep.leads hlead) hrest found)
      rw [verifyFrom_cons hwf hlead hname]
      rcases hgranted : m.fs.granted (Path.join path (Path.ofText entry.name)) .shared with
        error | id
      · exact hthen (.noting _ _ _ _) _
      have hget := ((FileSystem.granted_eq_ok_iff hlead hname).mp hgranted).2.1
      rcases hcheck : Entry.check digest (Path.join path (Path.ofText entry.name))
          (m.fs.contents id) with error | length
      · by_cases hcorrupt : error.isCorrupt = true
        · simp only [hcheck, hcorrupt, if_true]
          refine hthen (.unbind hget rfl (List.prefix_append _ _) ?_) _
          exact Or.inl (Entry.not_sealed_of_isCorrupt hsized hcheck hcorrupt)
        · simp only [hcheck, hcorrupt]
          exact hthen ((Machine.Calm.spent _ _ m).trans hwf (.noting _ _ _ _)) _
      · simp only [hcheck]
        exact hthen (.spent _ _ m) _

/-- To check a cache is calm. -/
theorem verify_calm {cache : Cache} (hsized : cache.digest.Sized) (hwf : m.fs.WellFormed)
    (hlead : ∀ path, cache.state.directory? = some path → m.fs.Leads path location) :
    m.Calm cache.digest location (verify Machine.host cache m).2 := by
  unfold verify
  rcases hdir : cache.state.directory? with _ | path
  · exact .refl _ _ _
  · simp only [Machine.run_bind, entriesOf_eq (hlead path hdir)]
    exact verifyFrom_calm hsized hwf (hlead path hdir) (fun _ => isName_of_mem_entriesIn hwf) _

end Cache

end BlobCache
