import BlobCache.Proofs.Opening
import BlobCache.Proofs.Storing

/-!
# Looking up and loading

What a look-up finds is the content of an entry, and it is still that when the bytes are read
(`Session.lookUp_spec`). A load either hands out such a blob or answers what the compiler answers
(`Session.loadGraph_spec`); on the way it may store the compiled blob, as `set` would, and apart
from that it is calm.
-/

namespace BlobCache

namespace Machine

/-- The machine after the compiler ran. -/
def counted (m : Machine) : Machine := { m with compilations := m.compilations + 1 }

/-- To count a compilation changes the count and nothing else. -/
@[simp] theorem run_countCompilation (m : Machine) : countCompilation m = ((), m.counted) := rfl

/-- To count a compilation is calm. -/
theorem Calm.counted (digest : Digest) (location : Location) (m : Machine) :
    m.Calm digest location m.counted where
  files := .refl location m.fs
  reported := List.prefix_refl _
  gone _ _ h := Or.inl h

end Machine

/-! ## Hits -/

namespace Cache

variable {digest : Digest} {location : Location} {path : Path} {m m' : Machine} {key : Key}
  {id : FileId}

/-- The blob of an entry that is held reads as it did when it was found. -/
theorem read_holding (length : Nat)
    (hhandles : m'.fs.handles = (m.fs.holding path id).handles)
    (hcontents : m'.fs.contents id = m.fs.contents id) :
    Blob.read Machine.host (.mapped m.fs.next length) m' =
      ((m.fs.contents id).take length, m') := by
  have hmapped : m'.fs.mappedEntry m.fs.next = some (m.fs.contents id) := by
    unfold FileSystem.mappedEntry
    rw [hhandles, FileSystem.holding, Table.get?_set_self]
    show some (m'.fs.mappedView id (m.fs.contents id).length) = _
    rw [← hcontents, FileSystem.mappedView_full]
  have hhost : Machine.host.mapped m.fs.next m' = (m'.fs.mappedEntry m.fs.next, m') := rfl
  unfold Blob.read
  simp only [Machine.run_bind, hhost, hmapped]
  rfl

/-- An entry of the directory holds this blob. -/
def Holds (digest : Digest) (fs : FileSystem) (location : Location) (key : Key) (blob : Bytes) :
    Prop :=
  ∃ id, fs.tree.get? (location.child key.fileName) = some (.file id) ∧
    fs.contents id = Entry.encode digest blob ∧ Entry.encode digest blob ≠ []

/-- An entry holds one blob. -/
theorem Holds.unique {fs : FileSystem} (hsized : digest.Sized) {a b : Bytes}
    (ha : Holds digest fs location key a) (hb : Holds digest fs location key b) : a = b := by
  obtain ⟨id, hget, ha, -⟩ := ha
  obtain ⟨id', hget', hb, -⟩ := hb
  rw [hget] at hget'
  cases hget'
  exact (Entry.encode_inj hsized).mp (ha.symm.trans hb)

/-- The key of an entry can be the name of a file. -/
theorem Holds.isName {fs : FileSystem} {blob : Bytes} (h : Holds digest fs location key blob)
    (hwf : fs.WellFormed) : key.IsName := by
  obtain ⟨id, hget, -, -⟩ := h
  exact (hwf.named _ _ _ hget).1

/-- What a look-up finds is an entry that could be opened and passes. -/
theorem get_found {cache : Cache} (hwf : m.fs.WellFormed) (hkey : key = .empty ∨ key.IsName)
    {blob : Blob HandleId} (h : (get Machine.host cache key m).1 = some blob) :
    ∃ path id length, cache.state.directory? = some path ∧ key.IsName ∧
      m.fs.granted (entryPath path key) .shared = .ok id ∧
      Entry.check cache.digest (entryPath path key) (m.fs.contents id) = .ok length ∧
      blob = .mapped m.fs.next length ∧
      (get Machine.host cache key m).2 =
        (m.withFiles (m.fs.holding (entryPath path key) id)).noting (.hit key length) := by
  rcases hdir : cache.state.directory? with _ | path
  · rw [get_of_disabled hdir] at h
    cases h
  rcases hkey with rfl | hname
  · rw [get_empty] at h
    cases h
  unfold get at h ⊢
  simp only [hdir, Key.not_isEmpty_of_isName hname, Bool.false_eq_true, if_false,
    Machine.run_bind, readEntry_eq hwf] at h ⊢
  rcases hgranted : m.fs.granted (entryPath path key) .shared with error | id
  · simp [hgranted, FileSystem.not_isCorrupt_of_granted hgranted] at h
  simp only [hgranted] at h ⊢
  rcases hcheck : Entry.check cache.digest (entryPath path key) (m.fs.contents id) with
    error | length
  · simp only [hcheck] at h
    split at h
    · cases h
    · cases h
  · simp only [hcheck] at h ⊢
    exact ⟨path, id, length, rfl, hname, hgranted, hcheck, (Option.some.inj h).symm, rfl⟩

/-- What a look-up finds is the blob of an entry. -/
theorem get_some {cache : Cache} (hsized : cache.digest.Sized) (hwf : m.fs.WellFormed)
    (hlead : ∀ path, cache.state.directory? = some path → m.fs.Leads path location)
    (hkey : key = .empty ∨ key.IsName) {blob : Blob HandleId}
    (h : (get Machine.host cache key m).1 = some blob) :
    ∃ path id content, m.fs.tree.get? (location.child key.fileName) = some (.file id) ∧
      m.fs.contents id = Entry.encode cache.digest content ∧
      Entry.encode cache.digest content ≠ [] ∧ blob = .mapped m.fs.next content.length ∧
      (get Machine.host cache key m).2 =
        (m.withFiles (m.fs.holding path id)).noting (.hit key content.length) := by
  obtain ⟨path, id, length, hdir, hname, hgranted, hcheck, hblob, hafter⟩ :=
    get_found hwf hkey h
  have hget := ((FileSystem.granted_eq_ok_iff (hlead path hdir) hname).mp hgranted).2.1
  obtain ⟨hne, content, hcontent, rfl⟩ := (Entry.check_eq_ok_iff hsized).mp hcheck
  exact ⟨entryPath path key, id, content, hget, hcontent, hcontent ▸ hne, hblob, hafter⟩

end Cache

namespace Session

variable {digest : Digest} {location : Location} {m m' : Machine} {key : Key}

/-- To mark a file as used sets its time of access, or does nothing. -/
theorem touch_cases (fs : FileSystem) (path : Path) (time : Int) :
    (fs.touch path time).toOption.getD fs = fs ∨
      ∃ id, (fs.touch path time).toOption.getD fs = fs.setAccessTime id time := by
  unfold FileSystem.touch
  rcases fs.nodeAt path with cause | ⟨place, _ | _ | id⟩
  · exact Or.inl rfl
  · exact Or.inl rfl
  · exact Or.inl rfl
  · exact Or.inr ⟨id, rfl⟩

/-- Marking an entry as used changes at most an access time. -/
theorem markUsed_cases (cache : Cache) (key : Key) (m : Machine) :
    markUsed cache key m = ((), m) ∨
      ∃ id, markUsed cache key m = ((), m.withFiles (m.fs.setAccessTime id m.fs.now)) := by
  unfold markUsed
  rcases cache.state.directory? with _ | path
  · exact Or.inl rfl
  · show ((), m.withFiles ((m.fs.touch _ _).toOption.getD m.fs)) = _ ∨ ∃ id,
      ((), m.withFiles ((m.fs.touch _ _).toOption.getD m.fs)) = _
    rcases touch_cases m.fs (Cache.entryPath path key) m.fs.now with h | ⟨id, h⟩
    · exact Or.inl (by rw [h, Machine.withFiles_self])
    · exact Or.inr ⟨id, by rw [h]⟩

/-- To mark an entry as used is calm. -/
theorem markUsed_calm (digest : Digest) (location : Location) (cache : Cache) (key : Key)
    (m : Machine) : m.Calm digest location (markUsed cache key m).2 := by
  rcases markUsed_cases cache key m with h | ⟨id, h⟩ <;> rw [h]
  · exact .refl _ _ _
  · exact .withFiles (.setAccessTime location m.fs id _) fun _ _ hget => hget

/-- A blob that was found and marked as used reads as the entry does. -/
theorem read_markUsed {cache : Cache} (hsized : cache.digest.Sized) (hwf : m.fs.WellFormed)
    (hlead : ∀ path, cache.state.directory? = some path → m.fs.Leads path location)
    (hkey : key = .empty ∨ key.IsName) {blob : Blob HandleId}
    (h : (Cache.get Machine.host cache key m).1 = some blob) :
    ∃ content, Cache.Holds cache.digest m.fs location key content ∧
      blob.read Machine.host (markUsed cache key (Cache.get Machine.host cache key m).2).2 =
        (content, (markUsed cache key (Cache.get Machine.host cache key m).2).2) := by
  obtain ⟨path, id, content, hget, hcontent, hne, rfl, hafter⟩ :=
    Cache.get_some hsized hwf hlead hkey h
  refine ⟨content, ⟨id, hget, hcontent, hne⟩, ?_⟩
  have hmarked := markUsed_cases cache key (Cache.get Machine.host cache key m).2
  have hhandles : (markUsed cache key (Cache.get Machine.host cache key m).2).2.fs.handles =
      (m.fs.holding path id).handles := by
    rcases hmarked with e | ⟨_, e⟩ <;> rw [e, hafter] <;> rfl
  have hcontents : (markUsed cache key (Cache.get Machine.host cache key m).2).2.fs.contents id =
      m.fs.contents id := by
    rcases hmarked with e | ⟨_, e⟩ <;> rw [e, hafter]
    · rfl
    · exact FileSystem.contents_setAccessTime _ _ _ _
  rw [Cache.read_holding content.length hhandles hcontents, hcontent]
  simp [Entry.encode]

/-! ## Looking up -/

/-- Looking up is calm, and what is found reads as an entry. -/
theorem lookUp_spec {cache : Cache} (hsized : cache.digest.Sized) (hwf : m.fs.WellFormed)
    (hlead : ∀ path, cache.state.directory? = some path → m.fs.Leads path location)
    (hkey : key = .empty ∨ key.IsName) :
    m.Calm cache.digest location (lookUp Machine.host cache key m).2 ∧
      ((lookUp Machine.host cache key m).1 = none ∧
          (Cache.get Machine.host cache key m).1 = none ∨
        ∃ blob content, (lookUp Machine.host cache key m).1 = some blob ∧
          Cache.Holds cache.digest m.fs location key content ∧
          blob.read Machine.host (lookUp Machine.host cache key m).2 =
            (content, (lookUp Machine.host cache key m).2)) := by
  have hcalm := Cache.get_calm hsized hwf hlead hkey
  unfold lookUp
  rw [Machine.run_bind]
  rcases hget : (Cache.get Machine.host cache key m).1 with _ | blob
  · exact ⟨hcalm, Or.inl ⟨rfl, rfl⟩⟩
  · obtain ⟨content, hholds, hread⟩ := read_markUsed hsized hwf hlead hkey hget
    exact ⟨hcalm.trans hwf (markUsed_calm _ _ _ _ _), Or.inr ⟨blob, content, rfl, hholds, hread⟩⟩

/-! ## Loading -/

end Session

namespace Cache

variable {location : Location} {m : Machine} {key : Key}

/-- A blob that is offered is stored, or the step is calm. -/
theorem offer_spec {cache : Cache} (hwf : m.fs.WellFormed)
    (hlead : ∀ path, cache.state.directory? = some path → m.fs.Leads path location)
    (hkey : key = .empty ∨ key.IsName) (blob : Bytes) :
    ((offer Machine.host cache key blob m).1 = .notStored ∧
        m.Calm cache.digest location (offer Machine.host cache key blob m).2) ∨
      ∃ path, cache.state.directory? = some path ∧
        (offer Machine.host cache key blob m).1 = .stored ∧
        m.Stores cache.digest location path key blob (offer Machine.host cache key blob m).2 := by
  have hset := set_spec hwf hlead hkey blob
  unfold offer
  rw [Machine.run_bind]
  rcases houtcome : (set Machine.host cache key blob m).1 with size | reason | _ <;>
    rw [houtcome] at hset
  · right
    obtain ⟨path, hdir, -, hstores⟩ := hset.resolve_left fun h => h.2 size rfl
    exact ⟨path, hdir, rfl, hstores⟩
  · left
    rcases hset with ⟨hcalm, -⟩ | ⟨path, -, hstored, -⟩
    · exact ⟨rfl, hcalm.trans hwf (.noting _ _ _ _)⟩
    · cases hstored
  · left
    rcases hset with ⟨hcalm, -⟩ | ⟨path, -, hstored, -⟩
    · exact ⟨rfl, hcalm.trans hwf (.noting _ _ _ _)⟩
    · cases hstored

end Cache

namespace Session

variable {digest : Digest} {location : Location} {m m' : Machine} {key : Key}

/-- What a load answers if no cache takes part in it. -/
def direct (request : Request) (compiled : Except String Bytes) : Except LoadError Bytes :=
  if request.input.isEmpty then .error .emptyInput
  else if request.format = .native then .ok request.input
  else compiled.mapError .compile

/-- Some loads ask no cache: of an empty or a native input, and those that forbid it. -/
theorem loadGraph_bypassed {cache : Cache} (location : Location) (hwf : m.fs.WellFormed)
    {compiler : Option Compiler} {request : Request} (compiled : Except String Bytes)
    (h : request.input.isEmpty = true ∨ request.format = .native ∨
      request.flags.contains .disableCaching = true) :
    (loadGraph Machine.host cache compiler request compiled m).1 =
        (direct request compiled).map (fun bytes => ⟨.owned bytes, .bypassed⟩) ∧
      m.Calm cache.digest location
        (loadGraph Machine.host cache compiler request compiled m).2 := by
  unfold loadGraph Cache.load direct
  by_cases hempty : request.input.isEmpty = true
  · simp only [hempty, if_true]
    exact ⟨rfl, .refl _ _ _⟩
  by_cases hnative : request.format = .native
  · simp only [hempty, hnative, if_true]
    exact ⟨rfl, .refl _ _ _⟩
  have hflag := (h.resolve_left hempty).resolve_left hnative
  simp only [hempty, hnative, hflag, if_true, if_false]
  have hcalm := (Machine.Calm.noting cache.digest location m .cachingDisabled).trans hwf
    (.counted _ _ _)
  cases compiled with
  | error text => exact ⟨rfl, hcalm⟩
  | ok bytes => exact ⟨rfl, hcalm⟩

/-- What comes of a load. Either the compiler or the input itself answers, and the step is calm; or
an entry does; or the compiler does, and its blob is stored. -/
theorem loadGraph_spec {cache : Cache} (hsized : cache.digest.Sized) (hwf : m.fs.WellFormed)
    (hlead : ∀ path, cache.state.directory? = some path → m.fs.Leads path location)
    {compiler : Option Compiler} {request : Request}
    (hkey : cache.keyOf compiler request = .empty ∨ (cache.keyOf compiler request).IsName)
    (compiled : Except String Bytes) :
    (∃ status, status ≠ .stored ∧
      (loadGraph Machine.host cache compiler request compiled m).1 =
        (direct request compiled).map (fun bytes => ⟨.owned bytes, status⟩) ∧
      m.Calm cache.digest location
        (loadGraph Machine.host cache compiler request compiled m).2) ∨
    (∃ blob content, direct request compiled = compiled.mapError .compile ∧
      (loadGraph Machine.host cache compiler request compiled m).1 = .ok ⟨blob, .hit⟩ ∧
      Cache.Holds cache.digest m.fs location (cache.keyOf compiler request) content ∧
      blob.read Machine.host (loadGraph Machine.host cache compiler request compiled m).2 =
        (content, (loadGraph Machine.host cache compiler request compiled m).2) ∧
      m.Calm cache.digest location
        (loadGraph Machine.host cache compiler request compiled m).2) ∨
    ∃ path bytes, cache.state.directory? = some path ∧ compiled = .ok bytes ∧
      direct request compiled = .ok bytes ∧
      (loadGraph Machine.host cache compiler request compiled m).1 =
        .ok ⟨.owned bytes, .stored⟩ ∧
      m.Stores cache.digest location path (cache.keyOf compiler request) bytes
        (loadGraph Machine.host cache compiler request compiled m).2 := by
  by_cases hbypass : request.input.isEmpty = true ∨ request.format = .native ∨
      request.flags.contains .disableCaching = true
  · left
    obtain ⟨hanswer, hcalm⟩ := loadGraph_bypassed location hwf compiled hbypass
    exact ⟨.bypassed, by simp, hanswer, hcalm⟩
  obtain ⟨hempty, hnative, hflag⟩ : ¬request.input.isEmpty = true ∧ ¬request.format = .native ∧
      ¬request.flags.contains .disableCaching = true := by
    simpa only [not_or] using hbypass
  unfold loadGraph Cache.load direct
  simp only [hempty, hnative, hflag, Bool.false_eq_true, if_false, Machine.run_bind]
  have hlooked := Cache.get_calm hsized hwf hlead hkey
  rcases hget : (Cache.get Machine.host cache (cache.keyOf compiler request) m).1 with _ | blob
  · have hready := hlooked.trans hwf (.counted _ _ _)
    cases compiled with
    | error text =>
        left
        exact ⟨.bypassed, by simp, rfl, hready⟩
    | ok bytes =>
        rcases Cache.offer_spec (hready.wellFormed hwf) (fun path h => hready.leads (hlead path h))
          hkey bytes with ⟨hstatus, hcalm⟩ | ⟨path, hdir, hstatus, hstores⟩
        · left
          refine ⟨.notStored, by simp, ?_, ?_⟩
          · simp only [Machine.run_bind, Machine.run_pure, Machine.run_countCompilation, hstatus,
              reduceCtorEq, if_false]
            rfl
          · simp only [Machine.run_bind, Machine.run_pure, Machine.run_countCompilation, hstatus,
              reduceCtorEq, if_false]
            exact hready.trans hwf hcalm
        · right
          right
          refine ⟨path, bytes, hdir, rfl, rfl, ?_, ?_⟩
          · simp only [Machine.run_bind, Machine.run_pure, Machine.run_countCompilation, hstatus,
              reduceCtorEq, if_false]
          · simp only [Machine.run_bind, Machine.run_pure, Machine.run_countCompilation, hstatus,
              reduceCtorEq, if_false]
            exact hstores.after_calm hready hwf
  · right
    left
    obtain ⟨content, hholds, hread⟩ := read_markUsed hsized hwf hlead hkey hget
    exact ⟨blob, content, trivial, rfl, hholds, hread,
      hlooked.trans hwf (markUsed_calm _ _ _ _ _)⟩

end Session

end BlobCache
