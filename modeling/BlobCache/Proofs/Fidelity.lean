import BlobCache.Proofs.Checking
import BlobCache.Proofs.Keeping
import BlobCache.Proofs.Runs

/-!
# Hits are faithful

As long as nobody but caches writes to a directory, every file in it is the blob that was last
stored under its name, with its checksum. The file can be opened by every cache whose path has room
for its name, because it has one name and nobody holds more than a shared lock on it between
commands. `FileSystem.Faithful` states this, and every command keeps it up (`Session.Loyal.step`).

So a look-up hits if and only if there is an entry that it can reach, it hands out the blob that was
stored last, and it goes on doing so until the entry is evicted. A check finds nothing damaged and
passes over nothing that it can reach. `Session.hits_are_faithful` puts this together, and
`Session.misses_by_long_path` shows that a path may be too long to reach what is there.
-/

namespace BlobCache

namespace FileSystem

/-! ## Whole entries -/

/-- A file holds this blob, and everybody who can reach it can read it. -/
structure Whole (fs : FileSystem) (digest : Digest) (id : FileId) (blob : Bytes) : Prop where
  /-- The file has one name. -/
  single : fs.linkCount (.file id) ≤ 1
  /-- Nobody has an exclusive lock on it. -/
  shared : ∀ lock ∈ fs.locksOn id, lock = .shared
  /-- It holds the blob and its checksum. -/
  content : fs.contents id = Entry.encode digest blob
  /-- The blob is not empty. -/
  blob_ne_nil : blob ≠ []

/-- Every file of the directory holds the blob that was last stored under its name. -/
def Faithful (fs : FileSystem) (digest : Digest) (location : Location)
    (last : Bytes → Option Bytes) : Prop :=
  ∀ name id, fs.tree.get? (location.child name) = some (.file id) →
    ∃ blob, last name = some blob ∧ fs.Whole digest id blob

variable {fs fs' : FileSystem} {digest : Digest} {path : Path} {location : Location} {name : Bytes}
  {id : FileId} {blob : Bytes} {last : Bytes → Option Bytes}

namespace Whole

/-- A whole entry is not empty. -/
theorem encode_ne_nil (h : fs.Whole digest id blob) : Entry.encode digest blob ≠ [] :=
  fun e => h.blob_ne_nil (List.append_eq_nil_iff.mp e).1

/-- A whole entry can be opened and passes. -/
theorem granted (h : fs.Whole digest id blob) (hlead : fs.Leads path location)
    (hn : Path.IsName name) (hfit : Fits path name)
    (hget : fs.tree.get? (location.child name) = some (.file id)) :
    fs.granted (Path.join path name) .shared = .ok id := by
  refine (granted_eq_ok_iff hlead hn).mpr ⟨hfit, hget, h.single, ?_⟩
  refine List.all_eq_true.mpr fun lock hmem => ?_
  rw [h.shared lock hmem]
  rfl

/-- A whole entry passes its check, with the length of its blob. -/
theorem check (h : fs.Whole digest id blob) (hsized : digest.Sized) (path : Path) :
    Entry.check digest path (fs.contents id) = .ok blob.length :=
  (Entry.check_eq_ok_iff hsized).mpr ⟨h.content ▸ h.encode_ne_nil, blob, h.content, rfl⟩

/-- Calm changes leave an entry whole. -/
theorem calm (h : fs.Whole digest id blob) (hcalm : fs.Calm location fs')
    (hlt : id < fs.next) : fs'.Whole digest id blob where
  single := Nat.le_trans (hcalm.links_le id) h.single
  shared := hcalm.locks_shared h.shared
  content := (hcalm.contents_eq id hlt).trans h.content
  blob_ne_nil := h.blob_ne_nil

/-- A new entry is whole. -/
theorem storing_self (hwf : fs.WellFormed) (hblob : blob ≠ []) :
    (fs.storing (location.child name) (Entry.encode digest blob)).Whole digest fs.next blob where
  single := linkCount_storing_self hwf
  shared lock hmem := by
    have hlocks : fs.locksOn fs.next = [] := hwf.locksOn_next
    have hmem : lock ∈ fs.locksOn fs.next := hmem
    rw [hlocks] at hmem
    cases hmem
  content := contents_storing_self _ _ _
  blob_ne_nil := hblob

/-- A new entry leaves the others whole. -/
theorem storing_of_lt (h : fs.Whole digest id blob) (hlt : id < fs.next)
    {place : Location} {content : Bytes} :
    (fs.storing place content).Whole digest id blob where
  single := Nat.le_trans (linkCount_storing_of_lt hlt) h.single
  shared := h.shared
  content := (contents_storing_of_lt hlt).trans h.content
  blob_ne_nil := h.blob_ne_nil

end Whole

namespace Faithful

/-- After calm changes every entry is still what was last stored. -/
theorem calm (h : fs.Faithful digest location last) (hwf : fs.WellFormed)
    (hcalm : fs.Calm location fs') : fs'.Faithful digest location last := by
  intro name id hget
  obtain ⟨blob, hlast, hwhole⟩ := h name id (hcalm.file_origin hget)
  exact ⟨blob, hlast, hwhole.calm hcalm (hwf.file_lt _ _ (hcalm.file_origin hget))⟩

/-- A new entry holds what was last stored under its name. -/
theorem storing (h : fs.Faithful digest location last) (hwf : fs.WellFormed) (hblob : blob ≠ []) :
    (fs.storing (location.child name) (Entry.encode digest blob)).Faithful digest location
      fun other => if name = other then some blob else last other := by
  intro other id hget
  rw [get?_storing] at hget
  split at hget
  · rename_i hplace
    cases hget
    obtain ⟨-, rfl⟩ := Location.child_inj.mp hplace
    exact ⟨blob, if_pos rfl, .storing_self hwf hblob⟩
  · rename_i hplace
    have hne : name ≠ other := by
      rintro rfl
      exact hplace rfl
    obtain ⟨old, hlast, hwhole⟩ := h other id hget
    exact ⟨old, (if_neg hne).trans hlast, hwhole.storing_of_lt (hwf.file_lt _ _ hget)⟩

end Faithful

end FileSystem

namespace Machine.Stores

variable {digest : Digest} {location : Location} {path : Path} {key : Key} {blob : Bytes}
  {m m' : Machine} {last : Bytes → Option Bytes}

/-- Once a blob was stored, each file is what was last stored under its name. -/
theorem faithful (h : m.Stores digest location path key blob m') (hwf : m.fs.WellFormed)
    (hfaithful : m.fs.Faithful digest location last) :
    m'.fs.Faithful digest location
      fun name => if key.fileName = name then some blob else last name := by
  obtain ⟨roomy, hcalm, -, hfs, -⟩ := h.steps
  rw [hfs]
  exact (hfaithful.calm hwf hcalm.files).storing (hcalm.wellFormed hwf) h.blob_ne_nil

end Machine.Stores

/-! ## Entries that stay -/

namespace Machine

variable {digest : Digest} {location : Location} {path : Path} {key : Key} {blob name : Bytes}
  {id : FileId} {m m' : Machine}

/-- No entry of this name was reported as evicted. -/
def NotEvicted (m : Machine) (name : Bytes) : Prop :=
  ∀ text accessed size, Path.ofText text = name → .evicted text accessed size ∉ m.log

/-- What is not evicted in the end was not evicted before. -/
theorem NotEvicted.of_prefix (h : m'.NotEvicted name) (hlog : m.log <+: m'.log) :
    m.NotEvicted name :=
  fun text accessed size hname hmem => h text accessed size hname (hlog.subset hmem)

/-- Another event evicts nothing. -/
theorem NotEvicted.noting (h : m.NotEvicted name) {event : Event}
    (hevent : ∀ text accessed size, event ≠ .evicted text accessed size) :
    (m.noting event).NotEvicted name := by
  intro text accessed size hname hmem
  rcases List.mem_append.mp hmem with hmem | hmem
  · exact h text accessed size hname hmem
  · exact hevent text accessed size (List.mem_singleton.mp hmem).symm

/-- The file under a name is this one and has this content. -/
def Keeps (m : Machine) (location : Location) (name : Bytes) (id : FileId) (content : Bytes) :
    Prop :=
  m.fs.tree.get? (location.child name) = some (.file id) ∧ m.fs.contents id = content

variable {content : Bytes}

/-- A calm step keeps a sound entry that is not evicted. -/
theorem Keeps.calm (h : m.Keeps location name id content) (hwf : m.fs.WellFormed)
    (hsealed : Entry.Sealed digest content) (hcalm : m.Calm digest location m')
    (hnot : m'.NotEvicted name) : m'.Keeps location name id content := by
  obtain ⟨hget, hcontent⟩ := h
  rcases hcalm.gone name id hget with hkept | hbad | ⟨text, accessed, size, hname, hmem⟩
  · exact ⟨hkept, (hcalm.files.contents_eq id (hwf.file_lt _ _ hget)).trans hcontent⟩
  · rw [hcontent] at hbad
    exact absurd hsealed hbad
  · exact absurd hmem (hnot text accessed size hname)

/-- So does a step that stores another one. -/
theorem Keeps.stores (h : m.Keeps location name id content) (hwf : m.fs.WellFormed)
    (hsealed : Entry.Sealed digest content) (hstores : m.Stores digest location path key blob m')
    (hnot : m'.NotEvicted name) : m'.Keeps location name id content := by
  obtain ⟨roomy, hcalm, hfree, hfs, hlog⟩ := hstores.steps
  obtain ⟨hget, hcontent⟩ := h.calm hwf hsealed hcalm (hnot.of_prefix hlog)
  have hne : location.child name ≠ location.child key.fileName := by
    intro e
    rw [e, hfree] at hget
    cases hget
  have hlt := (hcalm.wellFormed hwf).file_lt _ _ hget
  unfold Keeps
  rw [hfs, FileSystem.get?_storing, if_neg hne, FileSystem.contents_storing_of_lt hlt]
  exact ⟨hget, hcontent⟩

end Machine

/-! ## Looking up and checking whole entries -/

namespace Cache

variable {location : Location} {path : Path} {m : Machine} {cache : Cache} {key : Key}
  {id : FileId} {blob : Bytes}

/-- An entry that is whole is found. -/
theorem get_whole (hsized : cache.digest.Sized) (hwf : m.fs.WellFormed)
    (hlead : m.fs.Leads path location) (hdir : cache.state.directory? = some path)
    (hfit : FileSystem.Fits path key.fileName)
    (hget : m.fs.tree.get? (location.child key.fileName) = some (.file id))
    (hwhole : m.fs.Whole cache.digest id blob) :
    (get Machine.host cache key m).1 = some (.mapped m.fs.next blob.length) := by
  have hname : key.IsName := (hwf.named _ _ _ hget).1
  have hgranted : m.fs.granted (entryPath path key) .shared = .ok id :=
    hwhole.granted hlead hname hfit hget
  rw [get_eq hwf hlead hdir hname]
  simp only [hgranted, hwhole.check hsized]

/-- A look-up evicts nothing. -/
theorem get_notEvicted (hwf : m.fs.WellFormed)
    (hlead : ∀ path, cache.state.directory? = some path → m.fs.Leads path location)
    (hkey : key = .empty ∨ key.IsName) {name : Bytes} (h : m.NotEvicted name) :
    (get Machine.host cache key m).2.NotEvicted name := by
  rcases hdir : cache.state.directory? with _ | path
  · rw [get_of_disabled hdir]
    exact h
  rcases hkey with rfl | hname
  · rw [get_empty]
    exact h
  rw [get_eq hwf (hlead path hdir) hdir hname]
  rcases m.fs.granted (entryPath path key) .shared with error | id
  · exact h.noting fun _ _ _ e => by cases e
  rcases hcheck : Entry.check cache.digest (entryPath path key) (m.fs.contents id) with
    error | length
  · simp only [hcheck]
    split
    · exact Machine.NotEvicted.noting (m := m.withFiles _) h fun _ _ _ e => by cases e
    · exact Machine.NotEvicted.noting (m := m.withFiles _) h fun _ _ _ e => by cases e
  · simp only [hcheck]
    exact Machine.NotEvicted.noting (m := m.withFiles _) h fun _ _ _ e => by cases e

/-- An entry that cannot be reached is not found. -/
theorem get_of_not_fits (hwf : m.fs.WellFormed) (hlead : m.fs.Leads path location)
    (hdir : cache.state.directory? = some path) (hkey : key = .empty ∨ key.IsName)
    (hnot : ¬FileSystem.Fits path key.fileName) : (get Machine.host cache key m).1 = none := by
  by_contra hfound
  obtain ⟨blob, hblob⟩ := Option.ne_none_iff_exists'.mp hfound
  obtain ⟨other, id, length, hother, hname, hgranted, -⟩ := get_found hwf hkey hblob
  obtain rfl : path = other := Option.some.inj (hdir.symm.trans hother)
  exact hnot ((FileSystem.granted_eq_ok_iff hlead hname).mp hgranted).1

/-- The verdict on an entry that is whole: it passes, or it cannot be reached. -/
theorem verdict_whole {digest : Digest} (hsized : digest.Sized) (hlead : m.fs.Leads path location)
    {entry : Entry} (hname : Path.IsName (Path.ofText entry.name))
    (hget : m.fs.tree.get? (location.child (Path.ofText entry.name)) = some (.file id))
    (hwhole : m.fs.Whole digest id blob) :
    isSound (m.fs.verdict digest path entry) =
        decide (FileSystem.Fits path (Path.ofText entry.name)) ∧
      isDamaged (m.fs.verdict digest path entry) = false ∧
      isPassedOver (m.fs.verdict digest path entry) =
        !decide (FileSystem.Fits path (Path.ofText entry.name)) := by
  unfold FileSystem.verdict FileSystem.reading
  by_cases hfit : FileSystem.Fits path (Path.ofText entry.name)
  · simp only [hwhole.granted hlead hname hfit hget, hwhole.check hsized, hfit]
    exact ⟨rfl, rfl, rfl⟩
  · rcases hgranted : m.fs.granted (Path.join path (Path.ofText entry.name)) .shared with
      error | found
    · have hcorrupt := FileSystem.not_isCorrupt_of_granted hgranted
      simp [isSound, isDamaged, isPassedOver, hcorrupt, hfit]
    · exact absurd ((FileSystem.granted_eq_ok_iff hlead hname).mp hgranted).1 hfit

/-- In a faithful directory a check finds nothing damaged and passes over what it cannot reach. -/
theorem verify_faithful (hsized : cache.digest.Sized) (hwf : m.fs.WellFormed)
    (hdir : cache.state.directory? = some path) (hlead : m.fs.Leads path location)
    {last : Bytes → Option Bytes} (h : m.fs.Faithful cache.digest location last) :
    (verify Machine.host cache m).1 =
      ⟨(m.fs.entriesIn location).countP fun entry =>
          FileSystem.Fits path (Path.ofText entry.name), [],
        (m.fs.entriesIn location).countP fun entry =>
          ¬FileSystem.Fits path (Path.ofText entry.name)⟩ := by
  have hverdict : ∀ entry ∈ Entry.inOrder (m.fs.entriesIn location),
      isSound (m.fs.verdict cache.digest path entry) =
          decide (FileSystem.Fits path (Path.ofText entry.name)) ∧
        isDamaged (m.fs.verdict cache.digest path entry) = false ∧
        isPassedOver (m.fs.verdict cache.digest path entry) =
          !decide (FileSystem.Fits path (Path.ofText entry.name)) := by
    intro entry hmem
    obtain ⟨id, hget, -⟩ := FileSystem.mem_entriesIn.mp (Entry.mem_inOrder.mp hmem)
    obtain ⟨blob, -, hwhole⟩ := h _ id hget
    exact verdict_whole hsized hlead (hwf.named _ _ _ hget).1 hget hwhole
  have hperm := Entry.perm_inOrder (m.fs.entriesIn location)
  rw [verify_report hwf hdir hlead, VerifyReport.ofVerdicts]
  congr 1
  · rw [← hperm.countP_eq]
    exact List.countP_congr fun entry hmem => by rw [(hverdict entry hmem).1]
  · rw [List.filter_eq_nil_iff.mpr fun entry hmem => by simp [(hverdict entry hmem).2.1],
      List.map_nil]
  · rw [← hperm.countP_eq]
    exact List.countP_congr fun entry hmem => by simp [(hverdict entry hmem).2.2]

end Cache

namespace Session

variable {digest : Digest} {location : Location} {paths : List Path} {here : Path}
  {session : Session}

/-! ## What was stored last -/

/-- The blob that was last stored under a name. -/
def lastStored (moments : List Moment) (name : Bytes) : Option Bytes :=
  ((moments.filterMap Moment.stored?).filter fun item => item.1.fileName = name).getLast?.map
    Prod.snd

/-- A moment that stores nothing leaves what was last stored. -/
theorem lastStored_append_of_none {moments : List Moment} {moment : Moment}
    (h : moment.stored? = none) : lastStored (moments ++ [moment]) = lastStored moments := by
  funext name
  unfold lastStored
  rw [List.filterMap_append, List.filterMap_cons_none h, List.filterMap_nil, List.append_nil]

/-- A moment that stores a blob is the last one to store under its name. -/
theorem lastStored_append_of_some {moments : List Moment} {moment : Moment} {key : Key}
    {blob : Bytes} (h : moment.stored? = some (key, blob)) :
    lastStored (moments ++ [moment]) =
      fun name => if key.fileName = name then some blob else lastStored moments name := by
  funext name
  unfold lastStored
  rw [List.filterMap_append, List.filterMap_cons_some h, List.filterMap_nil, List.filter_append]
  by_cases hname : key.fileName = name
  · rw [if_pos hname, List.filter_cons_of_pos (by simpa using hname), List.filter_nil,
      List.getLast?_append]
    rfl
  · rw [if_neg hname, List.filter_cons_of_neg (by simpa using hname), List.filter_nil,
      List.append_nil]

/-! ## Every step keeps entries faithful -/

/-- A session whose directory holds in each file what was last stored under its name. -/
structure Loyal (digest : Digest) (location : Location) (paths : List Path) (here : Path)
    (past : List Moment) (session : Session) : Prop where
  /-- The caches share the directory. -/
  sound : session.Sound digest location paths here
  /-- Files are what was last stored. -/
  faithful : session.machine.fs.Faithful digest location (lastStored past)

namespace Loyal

variable {past : List Moment}

/-- That time goes by changes nothing about what was stored. -/
theorem begin (h : session.Loyal digest location paths here past) :
    session.begin.Loyal digest location paths here past :=
  ⟨h.sound.begin, h.faithful.calm h.sound.wellFormed (.setClock location _ _)⟩

/-- Commands that only use the caches keep every file what was last stored. -/
theorem step (hsized : digest.Sized) (hpos : 0 < digest.size)
    (h : session.Loyal digest location paths here past) {command : Command}
    (hcommand : command.Ordinary digest paths here) :
    (session.step command).2.Loyal digest location paths here (past ++ [⟨session, command⟩]) := by
  obtain ⟨hsound, heffect⟩ := Moment.spec hsized hpos ⟨session, command⟩ h.sound hcommand
  have hbegin := h.begin
  have hwf := hbegin.sound.wellFormed
  refine ⟨hsound, ?_⟩
  generalize hstored : Moment.stored? ⟨session, command⟩ = stored at heffect
  cases heffect with
  | calm hcalm =>
      rw [lastStored_append_of_none hstored]
      exact hbegin.faithful.calm hwf hcalm.files
  | stores hmem hstores hcalm =>
      rw [lastStored_append_of_some hstored]
      exact (hstores.faithful hwf hbegin.faithful).calm (hstores.wellFormed hwf) hcalm.files

/-- However many commands are carried out, every entry is what was last stored. -/
theorem run (hsized : digest.Sized) (hpos : 0 < digest.size)
    (h : session.Loyal digest location paths here past) {commands : List Command}
    (hcommands : ∀ command ∈ commands, command.Ordinary digest paths here) :
    (finish session commands).Loyal digest location paths here (past ++ session.run commands) :=
  run_invariant (fun past session => session.Loyal digest location paths here past)
    (fun _ _ _ hcommand h => h.step hsized hpos hcommand) h hcommands

/-- An entry that is not evicted by a command is kept. -/
theorem keeps (hsized : digest.Sized) (hpos : 0 < digest.size)
    (h : session.Loyal digest location paths here past) {command : Command}
    (hcommand : command.Ordinary digest paths here) {name blob : Bytes} {id : FileId}
    (hkeeps : session.machine.Keeps location name id (Entry.encode digest blob))
    (hnot : (session.step command).2.machine.NotEvicted name) :
    (session.step command).2.machine.Keeps location name id (Entry.encode digest blob) := by
  obtain ⟨-, heffect⟩ := Moment.spec hsized hpos ⟨session, command⟩ h.sound hcommand
  have hwf := h.begin.sound.wellFormed
  have hbegin : session.begin.machine.Keeps location name id (Entry.encode digest blob) := hkeeps
  have hsealed : Entry.Sealed digest (Entry.encode digest blob) := ⟨blob, rfl⟩
  generalize Moment.stored? ⟨session, command⟩ = stored at heffect
  cases heffect with
  | calm hcalm => exact hbegin.calm hwf hsealed hcalm hnot
  | stores hmem hstores hcalm =>
      have hfull := hbegin.stores hwf hsealed hstores (hnot.of_prefix hcalm.reported)
      exact hfull.calm (hstores.wellFormed hwf) hsealed hcalm hnot

/-- An entry that is not evicted in a run is kept. -/
theorem run_keeps (hsized : digest.Sized) (hpos : 0 < digest.size)
    (h : session.Loyal digest location paths here past) {commands : List Command}
    (hcommands : ∀ command ∈ commands, command.Ordinary digest paths here) {name blob : Bytes}
    {id : FileId} (hkeeps : session.machine.Keeps location name id (Entry.encode digest blob))
    (hnot : ∀ moment ∈ session.run commands, moment.after.machine.NotEvicted name) :
    (finish session commands).machine.Keeps location name id (Entry.encode digest blob) := by
  induction commands generalizing session past with
  | nil => exact hkeeps
  | cons command rest ih =>
      have hcommand := hcommands command List.mem_cons_self
      have hnext := h.keeps hsized hpos hcommand hkeeps (hnot _ List.mem_cons_self)
      exact ih (h.step hsized hpos hcommand)
        (fun other hmem => hcommands other (List.mem_cons_of_mem _ hmem)) hnext
        fun moment hmem => hnot moment (List.mem_cons_of_mem _ hmem)

end Loyal

/-! ## What look-ups and checks answer -/

/-- To release a blob reports nothing. -/
theorem log_release_blob (blob : Blob HandleId) (m : Machine) :
    (blob.release Machine.host m).2.log = m.log := by
  cases blob with
  | owned bytes => rfl
  | mapped handle length => rfl

/-- To keep a blob or to release it reports nothing. -/
theorem log_keep (session : Session) (blob : Blob HandleId) (hold : Option String) :
    (session.keep blob hold).machine.log = session.machine.log := by
  cases hold with
  | none => exact log_release_blob blob _
  | some name =>
      show (session.release name).machine.log = _
      unfold release
      rcases session.held.get? name with _ | old
      · rfl
      · exact log_release_blob old _

/-- Marking an entry as used reports nothing. -/
theorem log_markUsed (cache : Cache) (key : Key) (m : Machine) :
    (markUsed cache key m).2.log = m.log := by
  rcases markUsed_cases cache key m with h | ⟨id, h⟩ <;> rw [h]
  rfl

/-- A look-up in a session finds what the cache finds. -/
theorem lookUp_fst (cache : Cache) (key : Key) (m : Machine) :
    (lookUp Machine.host cache key m).1 = (Cache.get Machine.host cache key m).1 := by
  unfold lookUp
  rw [Machine.run_bind]
  rcases (Cache.get Machine.host cache key m).1 with _ | found <;> rfl

/-- A look-up in a session evicts nothing. -/
theorem lookUp_notEvicted {m : Machine} {cache : Cache} {key : Key} (hwf : m.fs.WellFormed)
    (hlead : ∀ path, cache.state.directory? = some path → m.fs.Leads path location)
    (hkey : key = .empty ∨ key.IsName) {name : Bytes} (h : m.NotEvicted name) :
    (lookUp Machine.host cache key m).2.NotEvicted name := by
  have hget := Cache.get_notEvicted hwf hlead hkey h
  unfold lookUp
  rw [Machine.run_bind]
  rcases (Cache.get Machine.host cache key m).1 with _ | blob
  · exact hget
  · unfold Machine.NotEvicted
    simp only [Machine.run_bind, Machine.run_pure, log_markUsed]
    exact hget

/-- The command looks this key up in a cache that keeps its entries behind this path. -/
def Asks (session : Session) (command : Command) (key : Key) (path : Path) : Prop :=
  ∃ name on source hold, command = .onCache name (.get source hold) ∧
    session.caches.get? name = some on ∧ on.cache.state.directory? = some path ∧
    source.key? on.cache = some key

/-- Who asks for a key only uses a cache. -/
theorem Asks.ordinary {command : Command} {key : Key} {path : Path}
    (h : session.Asks command key path) (digest : Digest) (paths : List Path) (here : Path) :
    command.Ordinary digest paths here := by
  obtain ⟨name, on, source, hold, rfl, -⟩ := h
  trivial

namespace Loyal

variable {past : List Moment}

/-- A look-up hands out what was last stored if there is an entry that it can reach, and misses if
there is none. -/
theorem get_answer (hsized : digest.Sized) (hpos : 0 < digest.size)
    (h : session.Loyal digest location paths here past) {command : Command} {key : Key}
    {path : Path} (hasks : session.Asks command key path) :
    (∀ id, session.machine.fs.tree.get? (location.child key.fileName) = some (.file id) →
      FileSystem.Fits path key.fileName →
      ∃ blob summary mapped, lastStored past key.fileName = some blob ∧
        (session.step command).1 = .blob blob summary mapped) ∧
    ((∀ id, session.machine.fs.tree.get? (location.child key.fileName) ≠ some (.file id)) ∨
        ¬FileSystem.Fits path key.fileName →
      (session.step command).1 = .miss) := by
  obtain ⟨name, on, source, hold, rfl, hon, hdir, hkey⟩ := hasks
  have hbegin := h.begin
  have hwf := hbegin.sound.wellFormed
  have hserves := hbegin.sound.serves name on hon
  obtain rfl := hserves.digest_eq
  have hlead := hbegin.sound.lead hserves
  have hname := isName_of_key? hsized hpos rfl hkey
  obtain ⟨-, hlooked⟩ := lookUp_spec hsized hwf hlead hname
  rw [step_onCache hon, onCache_get hserves.faults_eq _ hkey]
  constructor
  · intro id hget hfits
    obtain ⟨blob, hlast, hwhole⟩ := hbegin.faithful _ id hget
    have hfound := Cache.get_whole hsized hwf (hlead path hdir) hdir hfits hget hwhole
    rcases hlooked with ⟨-, hmiss⟩ | ⟨found, content, hlookup, hholds, hread⟩
    · rw [hmiss] at hfound
      cases hfound
    · obtain rfl := hholds.unique hsized ⟨id, hget, hwhole.content, hwhole.encode_ne_nil⟩
      refine ⟨content, found.summary, found.isMapped, hlast, ?_⟩
      simp only [hlookup, machine_withMachine, hread]
  · intro hnone
    rcases hlooked with ⟨hlookup, -⟩ | ⟨found, content, hlookup, ⟨id, hget, -⟩, -⟩
    · simp only [hlookup]
    · rcases hnone with hnone | hnot
      · exact absurd hget (hnone id)
      · have hmiss := Cache.get_of_not_fits hwf (hlead path hdir) hdir hname hnot
        rw [lookUp_fst, hmiss] at hlookup
        cases hlookup

/-- A look-up evicts nothing. -/
theorem get_notEvicted (hsized : digest.Sized) (hpos : 0 < digest.size)
    (h : session.Loyal digest location paths here past) {command : Command} {key : Key}
    {path : Path} (hasks : session.Asks command key path) (name : Bytes) :
    (session.step command).2.machine.NotEvicted name := by
  obtain ⟨cacheName, on, source, hold, rfl, hon, -, hkey⟩ := hasks
  have hbegin := h.begin
  have hserves := hbegin.sound.serves cacheName on hon
  have hclean : session.begin.machine.NotEvicted name := fun _ _ _ _ hmem => by cases hmem
  have hlooked := lookUp_notEvicted hbegin.sound.wellFormed (hbegin.sound.lead hserves)
    (isName_of_key? hsized hpos hserves.digest_eq hkey) hclean
  rw [step_onCache hon, onCache_get hserves.faults_eq _ hkey]
  rcases (lookUp Machine.host on.cache key session.begin.machine).1 with _ | found
  · exact hlooked
  · unfold Machine.NotEvicted
    rw [log_keep]
    exact hlooked

/-- A look-up that comes after one that hit hits too, and hands out the same blob, unless the entry
was evicted in between or cannot be reached. -/
theorem get_again (hsized : digest.Sized) (hpos : 0 < digest.size)
    (h : session.Loyal digest location paths here past) {first second : Command} {key : Key}
    {path path' : Path} (hfirst : session.Asks first key path) {blob : Bytes} {summary : String}
    {mapped : Bool}
    (hblob : (session.step first).1 = .blob blob summary mapped) {between : List Command}
    (hbetween : ∀ command ∈ between, command.Ordinary digest paths here)
    (hnot : ∀ moment ∈ (session.step first).2.run between,
      moment.after.machine.NotEvicted key.fileName)
    (hsecond : (finish (session.step first).2 between).Asks second key path')
    (hfits : FileSystem.Fits path' key.fileName) :
    ∃ summary mapped,
      ((finish (session.step first).2 between).step second).1 = .blob blob summary mapped := by
  obtain ⟨hhit, hmiss⟩ := h.get_answer hsized hpos hfirst
  by_cases hpresent : (∃ id, session.machine.fs.tree.get? (location.child key.fileName) =
      some (.file id)) ∧ FileSystem.Fits path key.fileName
  · obtain ⟨⟨id, hget⟩, hreached⟩ := hpresent
    obtain ⟨found, summary', mapped', hlast, hanswer⟩ := hhit id hget hreached
    rw [hblob] at hanswer
    cases hanswer
    obtain ⟨stored, hstored, hwhole⟩ := h.faithful _ id hget
    rw [hlast] at hstored
    cases hstored
    -- the entry is kept by the look-up itself and then by the run
    have hkeeps : session.machine.Keeps location key.fileName id (Entry.encode digest blob) :=
      ⟨hget, hwhole.content⟩
    have hordinary := hfirst.ordinary digest paths here
    have hnext := h.step hsized hpos hordinary
    have hkept := h.keeps hsized hpos hordinary hkeeps (h.get_notEvicted hsized hpos hfirst _)
    obtain ⟨hget', hcontent⟩ := hnext.run_keeps hsized hpos hbetween hkept hnot
    have hend := hnext.run hsized hpos hbetween
    obtain ⟨again, summary, mapped, hlast', hanswer⟩ :=
      (hend.get_answer hsized hpos hsecond).1 id hget' hfits
    obtain ⟨stored, hstored, hwhole'⟩ := hend.faithful _ id hget'
    rw [hlast'] at hstored
    cases hstored
    obtain rfl := (Entry.encode_inj hsized).mp (hwhole'.content.symm.trans hcontent)
    exact ⟨summary, mapped, hanswer⟩
  · rw [not_and_or, not_exists] at hpresent
    rw [hmiss hpresent] at hblob
    cases hblob

/-- A check finds nothing damaged, counts what it can reach and passes over the rest. -/
theorem verify_answer (hsized : digest.Sized) (h : session.Loyal digest location paths here past)
    {name : String} {on : OpenCache} (hon : session.caches.get? name = some on) :
    (∀ path, on.cache.state.directory? = some path →
      (session.step (.onCache name .verify)).1 = .report
        ⟨(session.machine.fs.entriesIn location).countP fun entry =>
            FileSystem.Fits path (Path.ofText entry.name), [],
          (session.machine.fs.entriesIn location).countP fun entry =>
            ¬FileSystem.Fits path (Path.ofText entry.name)⟩) ∧
    (on.cache.state.directory? = none →
      (session.step (.onCache name .verify)).1 = .report ⟨0, [], 0⟩) := by
  have hbegin := h.begin
  have hserves := hbegin.sound.serves name on hon
  obtain rfl := hserves.digest_eq
  rw [step_onCache hon, onCache_verify hserves.faults_eq]
  constructor
  · intro path hdir
    rw [Cache.verify_faithful hsized hbegin.sound.wellFormed hdir
      (hbegin.sound.lead hserves path hdir) hbegin.faithful]
    rfl
  · intro hdir
    unfold Cache.verify
    rw [hdir]
    rfl

end Loyal

/-- A short path and a long one lead to the working directory of a new session. -/
theorem sound_start_by_long_path (digest : Digest) :
    (start [0x77]).Sound digest (Location.top.child [0x77]) [Path.dot, Cache.longPath]
      (workingDirectory (start [0x77]).machine.fs) := by
  refine sound_start_of_leads _ fun path hmem => ?_
  rcases List.mem_pair.mp hmem with rfl | rfl
  · decide +kernel
  · decide +kernel

/-! ## Fidelity -/

/-- After every run of commands that only use the caches of a directory that was empty, each file in
it is the blob that was last stored under its name, with its checksum, and that blob is not empty. A
look-up hits if and only if there is an entry and the path of the cache has room for its name; then
it hands out that blob, and so does every later one, by whatever path with room for the name, until
the entry is evicted. A check finds nothing damaged, and passes over just the entries for whose
names the path of the cache has no room. -/
theorem hits_are_faithful (hsized : digest.Sized) (hpos : 0 < digest.size)
    {start : Session} (hsound : start.Sound digest location paths here)
    (hempty : ∀ name, start.machine.fs.tree.get? (location.child name) = none)
    (past : List Command) (hpast : ∀ command ∈ past, command.Ordinary digest paths here) :
    let session := finish start past
    (∀ name id, session.machine.fs.tree.get? (location.child name) = some (.file id) →
      ∃ blob, lastStored (run start past) name = some blob ∧ blob ≠ [] ∧
        session.machine.fs.contents id = Entry.encode digest blob) ∧
    (∀ command key path, session.Asks command key path →
      (∀ id, session.machine.fs.tree.get? (location.child key.fileName) = some (.file id) →
        FileSystem.Fits path key.fileName →
        ∃ blob summary mapped, lastStored (run start past) key.fileName = some blob ∧
          (session.step command).1 = .blob blob summary mapped) ∧
      ((∀ id, session.machine.fs.tree.get? (location.child key.fileName) ≠ some (.file id)) ∨
          ¬FileSystem.Fits path key.fileName →
        (session.step command).1 = .miss)) ∧
    (∀ before first between, past = before ++ first :: between →
      ∀ key path, (finish start before).Asks first key path →
      ∀ blob summary mapped, ((finish start before).step first).1 = .blob blob summary mapped →
      (∀ moment ∈ run ((finish start before).step first).2 between,
        moment.after.machine.NotEvicted key.fileName) →
      ∀ second path', session.Asks second key path' → FileSystem.Fits path' key.fileName →
        ∃ summary mapped, (session.step second).1 = .blob blob summary mapped) ∧
    ∀ name on, session.caches.get? name = some on →
      (∀ path, on.cache.state.directory? = some path →
        (session.step (.onCache name .verify)).1 = .report
          ⟨(session.machine.fs.entriesIn location).countP fun entry =>
              FileSystem.Fits path (Path.ofText entry.name), [],
            (session.machine.fs.entriesIn location).countP fun entry =>
              ¬FileSystem.Fits path (Path.ofText entry.name)⟩) ∧
      (on.cache.state.directory? = none →
        (session.step (.onCache name .verify)).1 = .report ⟨0, [], 0⟩) := by
  have hstart : start.Loyal digest location paths here [] := by
    refine ⟨hsound, fun name id hget => ?_⟩
    rw [hempty] at hget
    cases hget
  have hend := hstart.run hsized hpos hpast
  refine ⟨?_, ?_, ?_, ?_⟩
  · intro name id hget
    obtain ⟨blob, hlast, hwhole⟩ := hend.faithful name id hget
    exact ⟨blob, hlast, hwhole.blob_ne_nil, hwhole.content⟩
  · exact fun command key path hasks => hend.get_answer hsized hpos hasks
  · rintro before first between rfl key path hfirst blob summary mapped hblob hnot second path'
      hsecond hfits
    have hbefore := hstart.run hsized hpos fun command hmem =>
      hpast command (List.mem_append_left _ hmem)
    rw [finish_append] at hsecond ⊢
    exact hbefore.get_again hsized hpos hfirst hblob
      (fun command hmem => hpast command (List.mem_append_right _ (List.mem_cons_of_mem _ hmem)))
      hnot hsecond hfits
  · exact fun name on hon => hend.verify_answer hsized hon

/-- A blob is stored by one cache, looked up and held by another with a smaller budget, and looked
up again after the first cache was trimmed and the held blob given up. -/
theorem get_after_trim_faithful :
    let before : List Command :=
      [.openCache "a" (.config ⟨some Path.dot, 100⟩) .weightedSum none .none,
        .openCache "b" (.config ⟨some Path.dot, 20⟩) .weightedSum none .none,
        .onCache "a" (.set (.text "k") [1, 2, 3]), .onCache "b" (.set (.text "l") [4])]
    let first : Command := .onCache "b" (.get (.text "k") (some "held"))
    let between : List Command := [.onCache "a" .trim, .releaseBlob "held"]
    let session := finish (start [0x77]) (before ++ first :: between)
    (∃ summary mapped, (session.step (.onCache "a" (.get (.text "k") none))).1 =
        .blob [1, 2, 3] summary mapped) ∧
      (session.step (.onCache "b" .verify)).1 = .report ⟨2, [], 0⟩ := by
  intro before first between session
  have hordinary : ∀ command ∈ before ++ first :: between, command.Ordinary .weightedSum
      [Path.dot] (workingDirectory (start [0x77]).machine.fs) := by
    intro command hmem
    simp only [before, between, List.cons_append, List.nil_append, List.mem_cons,
      List.not_mem_nil, or_false] at hmem
    rcases hmem with rfl | rfl | rfl | rfl | rfl | rfl | rfl
    · exact Command.ordinary_openCache List.mem_cons_self _ _ _ _
    · exact Command.ordinary_openCache List.mem_cons_self _ _ _ _
    all_goals trivial
  have hlaw := hits_are_faithful Digest.sized_weightedSum (by decide)
    (sound_start .weightedSum [0x77]) (get?_start [0x77])
  have hkey : Key.parse? "k" = some ⟨"k"⟩ := by decide +kernel
  have hopened : ∀ (session : Session) (name : String),
      (session.caches.get? name).map (·.cache.state.directory?) = some (some Path.dot) →
        ∃ on, session.caches.get? name = some on ∧ on.cache.state.directory? = some Path.dot := by
    intro session name hopen
    obtain ⟨on, hon, hdir⟩ := Option.map_eq_some_iff.mp hopen
    exact ⟨on, hon, hdir⟩
  have hasks : ∀ (session : Session) (name : String) (hold : Option String),
      (session.caches.get? name).map (·.cache.state.directory?) = some (some Path.dot) →
        session.Asks (.onCache name (.get (.text "k") hold)) ⟨"k"⟩ Path.dot := by
    intro session name hold hopen
    obtain ⟨on, hon, hdir⟩ := hopened session name hopen
    exact ⟨name, on, .text "k", hold, rfl, hon, hdir, hkey⟩
  have hfits : FileSystem.Fits Path.dot (Key.fileName ⟨"k"⟩) := by decide +kernel
  obtain ⟨-, hget, -, -⟩ := hlaw before fun command hmem =>
    hordinary command (List.mem_append_left _ hmem)
  obtain ⟨-, -, hagain, hverify⟩ := hlaw (before ++ first :: between) hordinary
  have hfirst := hasks (finish (start [0x77]) before) "b" (some "held") (by decide +kernel)
  obtain ⟨blob, summary, mapped, hlast, hblob⟩ :=
    (hget first ⟨"k"⟩ Path.dot hfirst).1 0 (by decide +kernel) hfits
  have hstored : lastStored (run (start [0x77]) before) (Key.fileName ⟨"k"⟩) = some [1, 2, 3] := by
    decide +kernel
  rw [hstored] at hlast
  cases hlast
  have hquiet : (run ((finish (start [0x77]) before).step first).2 between).all
      (fun moment => moment.after.machine.log.isEmpty) = true := by decide +kernel
  obtain ⟨on, hon, hdir⟩ := hopened session "b" (by decide +kernel)
  refine ⟨?_, ?_⟩
  · refine hagain before first between rfl ⟨"k"⟩ Path.dot hfirst _ _ _ hblob ?_ _ _
      (hasks _ "a" none (by decide +kernel)) hfits
    intro moment hmem text accessed size _ hevent
    rw [List.isEmpty_iff.mp (List.all_eq_true.mp hquiet moment hmem)] at hevent
    cases hevent
  · have hreached : ((session.machine.fs.entriesIn (Location.top.child [0x77])).countP fun entry =>
        FileSystem.Fits Path.dot (Path.ofText entry.name)) = 2 := by decide +kernel
    have hbeyond : ((session.machine.fs.entriesIn (Location.top.child [0x77])).countP fun entry =>
        ¬FileSystem.Fits Path.dot (Path.ofText entry.name)) = 0 := by decide +kernel
    have hreport := (hverify "b" on hon).1 Path.dot hdir
    rwa [hreached, hbeyond] at hreport

/-- That there is an entry is not enough: a cache that knows the directory by a path that is as long
as a path may be misses what another cache has stored. -/
theorem misses_by_long_path :
    ¬∀ (digest : Digest) (location : Location) (paths : List Path) (here : Path) (start : Session),
      digest.Sized → 0 < digest.size → start.Sound digest location paths here →
      (∀ name, start.machine.fs.tree.get? (location.child name) = none) →
      ∀ past, (∀ command ∈ past, command.Ordinary digest paths here) →
      ∀ command key path, (finish start past).Asks command key path →
      ∀ id, (finish start past).machine.fs.tree.get? (location.child key.fileName) =
          some (.file id) →
        ((finish start past).step command).1 ≠ .miss := by
  intro h
  let past : List Command :=
    [.openCache "a" (.config ⟨some Path.dot, 100⟩) .weightedSum none .none,
      .onCache "a" (.set (.text "k") [1]),
      .openCache "b" (.config ⟨some Cache.longPath, 100⟩) .weightedSum none .none]
  have hstart := sound_start_by_long_path .weightedSum
  have hpast : ∀ command ∈ past, command.Ordinary .weightedSum [Path.dot, Cache.longPath]
      (workingDirectory (start [0x77]).machine.fs) := by
    simp only [past, List.forall_mem_cons]
    exact ⟨Command.ordinary_openCache (by simp) _ _ _ _, trivial,
      Command.ordinary_openCache (by simp) _ _ _ _, fun _ hmem => nomatch hmem⟩
  let asked : Command := .onCache "b" (.get (.text "k") none)
  have hkey : Key.parse? "k" = some ⟨"k"⟩ := by decide +kernel
  obtain ⟨path, hasked⟩ : ∃ path, (finish (start [0x77]) past).Asks asked ⟨"k"⟩ path := by
    have hopen : (((finish (start [0x77]) past).caches.get? "b").bind
        (·.cache.state.directory?)).isSome = true := by decide +kernel
    obtain ⟨path, hpath⟩ := Option.isSome_iff_exists.mp hopen
    obtain ⟨on, hon, hdir⟩ := Option.bind_eq_some_iff.mp hpath
    exact ⟨path, "b", on, .text "k", none, rfl, hon, hdir, hkey⟩
  have hmiss : ∀ answer : Answer, (match answer with
      | .miss => true
      | _ => false) = true → answer = .miss := by
    intro answer h
    cases answer <;> first | rfl | cases h
  refine h .weightedSum _ _ _ _ Digest.sized_weightedSum (by decide) hstart (get?_start _) past
    hpast asked ⟨"k"⟩ path hasked 0 (by decide +kernel) (hmiss _ (by decide +kernel))

end Session

end BlobCache
