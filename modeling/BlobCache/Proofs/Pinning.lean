import BlobCache.Proofs.Keeping
import BlobCache.Proofs.Sharing

/-!
# Blobs that are held

A blob that was found in the cache keeps its file open under a shared lock and reads through the
open file. So its bytes are safe as long as it is held, whatever becomes of the name
(`FileSystem.Pins`): nobody can write the file, because whoever writes a file has locked it for
himself. And the entry is safe from the caches, because they take away only what nobody has open or
what they find damaged.

* `Session.Pinned.step`: no step comes between a held blob and its bytes.
* `Session.Moment.holds`: a look-up or a load that hits holds its blob like that.
* `Session.held_blob_pins_entry`: what a held blob means for its entry and for all who share the
  directory.
* `Session.held_blob_missed_by_long_path`: whose path has no room for the name of the entry, he
  misses it even so.
-/

namespace BlobCache

/-! ## Open files that are read -/

namespace FileSystem

/-- A file is open for reading and mapped as a whole, and it is open for nothing else anywhere. -/
structure Pins (fs : FileSystem) (handle : HandleId) (id : FileId) (content : Bytes) : Prop where
  /-- It is open under a shared lock and mapped. -/
  opened : ∃ file, fs.handles.get? handle = some file ∧ file.file = id ∧ file.lock = .shared ∧
    file.mapped = some content.length
  /-- It has this content. -/
  content_eq : fs.contents id = content
  /-- Nobody has locked it for himself. -/
  shared : ∀ lock ∈ fs.locksOn id, lock = .shared

namespace Pins

variable {fs fs' : FileSystem} {handle : HandleId} {id : FileId} {content : Bytes}
  {free : Freedom}

/-- A pinned file has a shared lock. -/
theorem shared_mem (h : fs.Pins handle id content) : .shared ∈ fs.locksOn id := by
  obtain ⟨file, hget, hfile, hlock, -⟩ := h.opened
  exact mem_locksOn.mpr ⟨handle, file, hget, hfile, hlock⟩

/-- A pinned file was given out. -/
theorem lt_next (h : fs.Pins handle id content) (hwf : fs.WellFormed) : id < fs.next := by
  obtain ⟨file, hget, hfile, -⟩ := h.opened
  exact hfile ▸ hwf.open_lt handle file hget

/-- It can be opened for reading once more. -/
theorem lockable (h : fs.Pins handle id content) : fs.lockable id .shared = true :=
  lockable_shared_iff.mpr h.shared

/-- The mapping shows the content. -/
theorem mappedEntry_eq (h : fs.Pins handle id content) : fs.mappedEntry handle = some content := by
  obtain ⟨file, hget, hfile, -, hmapped⟩ := h.opened
  unfold mappedEntry
  rw [hget]
  simp only [Option.bind_eq_bind, Option.bind_some, hmapped, hfile, ← h.content_eq, mappedView_full]
  rfl

/-- A blob of the file reads the first part of the content. -/
theorem read {m : Machine} (h : m.fs.Pins handle id content) (length : Nat) :
    Blob.read Machine.host (.mapped handle length) m = (content.take length, m) := by
  have hhost : Machine.host.mapped handle m = (m.fs.mappedEntry handle, m) := rfl
  simp only [Blob.read, Machine.run_bind, hhost, h.mappedEntry_eq]
  rfl

/-- An entry that was just opened for reading. -/
theorem holding (hlock : fs.lockable id .shared = true) (path : Path) :
    (fs.holding path id).Pins fs.next id (fs.contents id) where
  opened := ⟨_, Table.get?_set_self _ _ _, rfl, rfl, rfl⟩
  content_eq := rfl
  shared lock hmem := by
    obtain ⟨other, file, hget, hfile, rfl⟩ := mem_locksOn.mp hmem
    rw [FileSystem.holding, Table.get?_set] at hget
    split at hget
    · cases hget
      rfl
    · exact lockable_shared_iff.mp hlock _ (mem_locksOn.mpr ⟨other, file, hget, hfile, rfl⟩)

/-- Setting the times of any file leaves a file pinned. -/
theorem setAccessTime (h : fs.Pins handle id content) (other : FileId) (time : Int) :
    (fs.setAccessTime other time).Pins handle id content where
  opened := h.opened
  content_eq := (contents_setAccessTime fs other id time).trans h.content_eq
  shared := h.shared

/-- It stays so as long as nobody uses the open file, and its owner may not write it where files are
written by their paths. -/
theorem change (h : fs.Pins handle id content) (hwf : fs.WellFormed) (hguarded : fs.Guarded)
    (hnot : ¬free.handles handle) (hcontents : free.contents → fs.mayWrite id = false)
    (hchange : Change free fs fs') :
    fs'.Pins handle id content where
  opened := by
    obtain ⟨file, hget, hfile⟩ := h.opened
    exact ⟨file, hchange.handles_kept hwf hnot hget, hfile⟩
  content_eq := by
    refine (hchange.contents_eq (h.lt_next hwf) hcontents
      fun other file _ hget hfile => ?_).trans h.content_eq
    by_contra hwritable
    -- whoever may write the file has locked it for himself
    have hlock := hguarded other file hget (by simpa using hwritable)
    have hshared := h.shared _ (mem_locksOn.mpr ⟨other, file, hget, hfile, hlock⟩)
    cases hshared
  shared lock hmem := by
    obtain ⟨other, file, hget, hfile, rfl⟩ := mem_locksOn.mp hmem
    rcases hchange.handle_origin hget with ⟨old, hold, hfile', hlock, -⟩ | ⟨hlock, -⟩ | ⟨hnew, -⟩
    · exact hlock ▸ h.shared _ (mem_locksOn.mpr ⟨other, old, hold, hfile'.trans hfile, rfl⟩)
    · cases hfound : file.lock with
      | shared => rfl
      | exclusive =>
          rw [hfound, hfile, lockable_exclusive_iff] at hlock
          have hmem := h.shared_mem
          rw [hlock] at hmem
          cases hmem
    · exact absurd (h.lt_next hwf) (Nat.not_lt.mpr (Nat.le_of_eq (hnew.symm.trans hfile)))

/-- A file stays pinned as long as its handle is not free, and its content only where nobody may
write it. -/
theorem changes (h : fs.Pins handle id content) (hwf : fs.WellFormed) (hguarded : fs.Guarded)
    (hnot : ¬free.handles handle) (hcontents : free.contents → fs.mayWrite id = false)
    (hchanges : fs.Changes free fs') : fs'.Pins handle id content := by
  induction hchanges with
  | refl => exact h
  | tail hchanges hchange ih =>
      exact ih.change (Changes.wellFormed hchanges hwf) (Changes.guarded hchanges hguarded) hnot
        (fun hfree => (Changes.mayWrite_eq hchanges (h.lt_next hwf)).trans (hcontents hfree))
        hchange

end Pins

end FileSystem

/-! ## What evictions count -/

/-- The bytes that an event counts as freed. -/
def Event.freed : Event → Nat
  | .evicted _ _ size => size
  | _ => 0

/-- The bytes of all evictions that are reported. -/
def Machine.freed (m : Machine) : Nat :=
  m.log.foldr (fun event total => event.freed + total) 0

namespace Machine

/-- An event adds the bytes that it counts as freed. -/
theorem freed_noting (m : Machine) (event : Event) :
    (m.noting event).freed = m.freed + event.freed := by
  unfold freed
  rw [log_noting]
  induction m.log with
  | nil => simp
  | cons first rest ih =>
      rw [List.cons_append, List.foldr_cons, List.foldr_cons, ih, Nat.add_assoc]

end Machine

namespace Cache

variable {location : Location} {path : Path} {m : Machine} {cache : Cache}

/-- What an eviction answers is what it reports. -/
theorem evictFrom_freed (hwf : m.fs.WellFormed) (hlead : m.fs.Leads path location)
    {entries : List Entry} (hnames : ∀ entry ∈ entries, Path.IsName (Path.ofText entry.name))
    (needed freed : Nat) :
    (evictFrom Machine.host path needed entries freed m).1 + m.freed =
      freed + (evictFrom Machine.host path needed entries freed m).2.freed := by
  induction entries generalizing m freed with
  | nil => rfl
  | cons entry rest ih =>
      have hname := hnames entry List.mem_cons_self
      have hrest : ∀ other ∈ rest, Path.IsName (Path.ofText other.name) :=
        fun other hmem => hnames other (List.mem_cons_of_mem _ hmem)
      rw [evictFrom_cons hwf hlead hname]
      rcases hgranted : m.fs.granted (Path.join path (Path.ofText entry.name)) .exclusive with
        error | id
      · have hthen := ih (m := m.noting (.busy entry.name error)) hwf hlead hrest freed
        rw [Machine.freed_noting] at hthen
        exact hthen
      obtain ⟨-, hget, -, -⟩ := (FileSystem.granted_eq_ok_iff hlead hname).mp hgranted
      have hevicting : (m.evicting location entry id).freed =
          m.freed + (m.fs.contents id).length :=
        Machine.freed_noting (m.withFiles _) (.evicted entry.name entry.accessed _)
      simp only
      split
      · rw [hevicting]
        omega
      · have hcalm : m.fs.Calm location (m.evicting location entry id).fs :=
          (FileSystem.Calm.spent location m.fs).trans (.unbind hget)
        have hthen := ih (m := m.evicting location entry id) (hcalm.wellFormed hwf)
          (hcalm.leads hlead) hrest (freed + (m.fs.contents id).length)
        rw [hevicting] at hthen
        omega

/-- What an eviction answers is what it reports. -/
theorem evict_freed (hwf : m.fs.WellFormed) (hlead : m.fs.Leads path location) (needed : Nat) :
    (evict Machine.host path needed m).1 + m.freed =
      (evict Machine.host path needed m).2.freed := by
  rw [evict_eq hlead, evictFrom_freed hwf hlead (fun _ => isName_of_mem_entriesIn hwf) needed 0,
    Nat.zero_add]

/-- So is what trimming answers. -/
theorem trim_freed (hwf : m.fs.WellFormed)
    (hlead : ∀ path, cache.state.directory? = some path → m.fs.Leads path location) :
    (trim Machine.host cache m).1 + m.freed = (trim Machine.host cache m).2.freed := by
  unfold trim
  rcases hdir : cache.state.directory? with _ | path
  · exact Nat.zero_add _
  · simp only [Machine.run_bind, sizeOf_eq (hlead path hdir)]
    split
    · exact Nat.zero_add _
    · exact evict_freed hwf (hlead path hdir) _

/-- So is what clearing answers. -/
theorem clear_freed (hwf : m.fs.WellFormed)
    (hlead : ∀ path, cache.state.directory? = some path → m.fs.Leads path location) :
    (clear Machine.host cache m).1 + m.freed = (clear Machine.host cache m).2.freed := by
  unfold clear
  rcases hdir : cache.state.directory? with _ | path
  · exact Nat.zero_add _
  · exact evict_freed hwf (hlead path hdir) _

end Cache

namespace Session

variable {session after : Session} {location : Location} {m m' : Machine} {cache : Cache}
  {key : Key} {blob : Blob HandleId} {digest : Digest} {hold : String} {handle : HandleId}
  {id : FileId} {bytes : Bytes} {writable : Bool}

/-! ## Looking up and loading -/

/-- The bytes of a blob that is handed out from the cache, and whether it is mapped. -/
def Answer.found? : Answer → Option (Bytes × Bool)
  | .blob bytes _ mapped | .loaded .hit bytes mapped _ => some (bytes, mapped)
  | _ => none

/-- A look-up that hit: the entry was there and passed, and now it is held. -/
structure Finds (cache : Cache) (key : Key) (location : Location) (m m' : Machine)
    (blob : Blob HandleId) (id : FileId) (bytes : Bytes) : Prop where
  /-- The entry could be reached by its path. -/
  fits : ∀ path, cache.state.directory? = some path → FileSystem.Fits path key.fileName
  /-- The entry was there. -/
  bound : m.fs.tree.get? (location.child key.fileName) = some (.file id)
  /-- It had one name. -/
  single : m.fs.linkCount (.file id) ≤ 1
  /-- It had these bytes in it. -/
  content_eq : m.fs.contents id = Entry.encode cache.digest bytes
  /-- It passed, and would have under any path. -/
  check : ∀ path, Entry.check cache.digest path (Entry.encode cache.digest bytes) =
    .ok bytes.length
  /-- The blob reads them from a new handle. -/
  blob_eq : blob = .mapped m.fs.next bytes.length
  /-- All names are the same. -/
  tree_eq : m'.fs.tree = m.fs.tree
  /-- The entry is held. -/
  pins : m'.fs.Pins m.fs.next id (Entry.encode cache.digest bytes)

/-- A look-up that hits gets the entry and marks it as used. -/
theorem lookUp_snd (h : (Cache.get Machine.host cache key m).1 = some blob) :
    (lookUp Machine.host cache key m).2 =
      (markUsed cache key (Cache.get Machine.host cache key m).2).2 := by
  unfold lookUp
  rw [Machine.run_bind, h]
  rfl

/-- What is looked up and found was there and is held. -/
theorem lookUp_finds (hwf : m.fs.WellFormed)
    (hlead : ∀ path, cache.state.directory? = some path → m.fs.Leads path location)
    (hkey : key = .empty ∨ key.IsName)
    (h : (lookUp Machine.host cache key m).1 = some blob) :
    ∃ id bytes, Finds cache key location m (lookUp Machine.host cache key m).2 blob id bytes := by
  have hget := (lookUp_fst cache key m).symm.trans h
  have hafter := lookUp_snd hget
  obtain ⟨path, id, length, hdir, hname, hgranted, hcheck, hblob, hheld⟩ :=
    Cache.get_found hwf hkey hget
  obtain ⟨hfits, hbound, hsingle, hlock⟩ :=
    (FileSystem.granted_eq_ok_iff (hlead path hdir) hname).mp hgranted
  obtain ⟨hcontent, hlength, hall⟩ := Entry.eq_encode_of_check hcheck
  have hheldPins := FileSystem.Pins.holding hlock (Cache.entryPath path key)
  have hmarked : (lookUp Machine.host cache key m).2.fs.tree = m.fs.tree ∧
      (lookUp Machine.host cache key m).2.fs.Pins m.fs.next id (m.fs.contents id) := by
    rw [hafter, hheld]
    rcases markUsed_cases cache key
      ((m.withFiles (m.fs.holding (Cache.entryPath path key) id)).noting (.hit key length)) with
      e | ⟨other, e⟩ <;> rw [e]
    · exact ⟨rfl, hheldPins⟩
    · exact ⟨rfl, hheldPins.setAccessTime other _⟩
  refine ⟨id, (m.fs.contents id).take length, fun other hother => ?_, hbound, hsingle, hcontent,
    fun other => ?_, ?_, hmarked.1, hcontent ▸ hmarked.2⟩
  · rw [hdir] at hother
    cases hother
    exact hfits
  · rw [← hcontent, hlength]
    exact hall other
  · rw [hlength]
    exact hblob

/-- To offer a blob is no hit. -/
theorem offer_ne_hit (cache : Cache) (key : Key) (made : Bytes) (m : Machine) :
    (Cache.offer Machine.host cache key made m).1 ≠ .hit := by
  unfold Cache.offer
  rw [Machine.run_bind]
  rcases (Cache.set Machine.host cache key made m).1 with size | reason | _ <;> exact nofun

/-- A load that hits looks up. -/
theorem loadGraph_of_hit {compiler : Option Compiler} {request : Request}
    {compiled : Except String Bytes}
    (h : (loadGraph Machine.host cache compiler request compiled m).1 = .ok ⟨blob, .hit⟩) :
    (lookUp Machine.host cache (cache.keyOf compiler request) m).1 = some blob ∧
      (loadGraph Machine.host cache compiler request compiled m).2 =
        (lookUp Machine.host cache (cache.keyOf compiler request) m).2 := by
  unfold loadGraph Cache.load at h ⊢
  unfold lookUp
  by_cases hempty : request.input.isEmpty = true
  · simp only [hempty, if_true] at h
    cases h
  by_cases hnative : request.format = .native
  · simp only [hempty, hnative, if_true] at h
    cases h
  by_cases hflag : request.flags.contains .disableCaching = true
  · simp only [hempty, hnative, hflag, if_true, if_false] at h
    cases compiled <;> cases h
  simp only [hempty, hnative, hflag, Bool.false_eq_true, if_false, Machine.run_bind] at h ⊢
  rcases hget : (Cache.get Machine.host cache (cache.keyOf compiler request) m).1 with _ | found <;>
    simp only [hget] at h ⊢
  · cases compiled with
    | error text => cases h
    | ok made =>
        -- what was compiled is stored or not stored
        simp only [Machine.run_bind, Machine.run_pure, Machine.run_countCompilation] at h
        have hstatus := offer_ne_hit cache (cache.keyOf compiler request) made
          (Cache.get Machine.host cache (cache.keyOf compiler request) m).2.counted
        rw [if_neg hstatus] at h
        exact absurd (congrArg Loaded.status (Except.ok.inj h)) hstatus
  · cases h
    exact ⟨rfl, rfl⟩

/-! ## Held blobs -/

/-- A blob that is held: nobody else has its file in his hands, and it reads these bytes, which pass
as an entry. -/
structure Pinned (digest : Digest) (hold : String) (handle : HandleId) (id : FileId) (bytes : Bytes)
    (writable : Bool) (session : Session) : Prop where
  /-- The session is in order. -/
  orderly : session.Orderly
  /-- The blob is held. -/
  held : session.held.get? hold = some (.mapped handle bytes.length)
  /-- Its file is in no other hand. -/
  has : session.Has (.blob hold) handle
  /-- It is open for reading. -/
  pins : session.machine.fs.Pins handle id (Entry.encode digest bytes)
  /-- It passes. -/
  check : ∀ path, Entry.check digest path (Entry.encode digest bytes) = .ok bytes.length
  /-- Whether the owner of the file may write it. -/
  mayWrite_eq : session.machine.fs.mayWrite id = writable

/-- Giving up what was held before closes no handle that is new. -/
theorem Orderly.release_changes (horderly : session.Orderly) (found : Machine) (hold : String) :
    found.fs.Changes ⟨(· < session.machine.fs.next), False, False, False⟩
      ((session.withMachine found).release hold).machine.fs :=
  Session.release_changes (session.withMachine found) hold (horderly.inHand_lt (.blob hold))

/-- A blob that was found and is kept is held. -/
theorem Finds.pinned {found : Machine} (h : Finds cache key location session.machine found blob id
      bytes)
    (horderly : session.Orderly) (hwf : found.fs.WellFormed) (hguarded : found.fs.Guarded)
    (hmode : found.fs.mayWrite id = writable)
    (hafter : ((session.withMachine found).keep blob (some hold)).Orderly) :
    ((session.withMachine found).keep blob (some hold)).Pinned cache.digest hold
      session.machine.fs.next id bytes writable where
  orderly := hafter
  held := by
    rw [h.blob_eq]
    exact Table.get?_set_self _ _ _
  has := by
    refine horderly.has_of_new (Nat.le_refl _) fun other => ?_
    rw [inHand_keep, h.blob_eq]
    rfl
  pins := h.pins.changes hwf hguarded (Nat.lt_irrefl _) False.elim
    (horderly.release_changes found hold)
  check := h.check
  mayWrite_eq :=
    ((horderly.release_changes found hold).mayWrite_eq (h.pins.lt_next hwf)).trans hmode

namespace Pinned

/-- A held blob reads its bytes. -/
theorem readBlob (h : session.Pinned digest hold handle id bytes writable) :
    (session.step (.readBlob hold)).1.found? = some (bytes, true) := by
  have hheld : session.begin.held.get? hold = some (.mapped handle bytes.length) := h.held
  have hbegin : session.begin.machine.fs.Pins handle id (Entry.encode digest bytes) :=
    ⟨h.pins.opened, h.pins.content_eq, h.pins.shared⟩
  unfold step carryOut
  simp only [hheld, onMachine, hbegin.read]
  rw [Entry.encode, List.take_left]
  rfl

/-- Nothing that anybody does comes between a held blob and its bytes. Only the tool may write files
by their paths, and then only those that their owner may write. -/
theorem step {moment : Moment} (h : moment.before.Pinned digest hold handle id bytes writable)
    (hheld : moment.after.held.get? hold = moment.before.held.get? hold)
    (htool : (∃ words bindings, moment.command = .tool words bindings) → writable = false) :
    moment.after.Pinned digest hold handle id bytes writable := by
  have hstep := moment.keepsToFreedom h.orderly
  have hkept : moment.after.inHand (.blob hold) = some handle :=
    inHand_of_mapped (hheld.trans h.held)
  have hnot : ¬(moment.before.freedom moment.after moment.command).handles handle :=
    h.has.not_free h.orderly hkept fun _ e => by cases e
  have hwf := h.orderly.wellFormed
  have hmode := hstep.changes.mayWrite_eq (h.pins.lt_next hwf)
  have hpins := h.pins.changes hwf h.orderly.guarded hnot
    (fun htoolRuns => h.mayWrite_eq.trans (htool htoolRuns)) hstep.changes
  exact ⟨h.orderly.orderly_after hstep, hheld.trans h.held,
    h.has.has_after h.orderly hkept hstep, hpins,
    h.check, hmode.trans h.mayWrite_eq⟩

/-- The entry of a held blob is in use. -/
theorem inUse (h : session.Pinned digest hold handle id bytes writable) {name : Bytes}
    (hbound : session.machine.fs.tree.get? (location.child name) = some (.file id)) :
    session.machine.fs.InUse (· = digest) location name id where
  bound := hbound
  locked := List.ne_nil_of_mem h.pins.shared_mem
  intact := by
    refine Or.inr fun other hother path error herror => ?_
    rw [hother, h.pins.content_eq, h.check] at herror
    cases herror

end Pinned

/-! ## The entry of a held blob -/

/-- An entry stands under its name, and its file under no other. -/
structure Stands (location : Location) (name : Bytes) (id : FileId) (session : Session) : Prop where
  /-- It stands under its name. -/
  bound : session.machine.fs.tree.get? (location.child name) = some (.file id)
  /-- It has one name. -/
  single : session.machine.fs.linkCount (.file id) ≤ 1

/-- An entry stands where it stood as long as no name changes. -/
theorem Stands.of_tree {name : Bytes} (h : session.Stands location name id)
    (htree : after.machine.fs.tree = session.machine.fs.tree) : after.Stands location name id where
  bound := htree ▸ h.bound
  single := by
    unfold FileSystem.linkCount
    rw [htree]
    exact h.single

/-- As long as caches and others share the directory, the entry of a held blob stays, and it is not
evicted. -/
theorem Stands.step {moment : Moment} {name : Bytes}
    (h : moment.before.Stands location name id)
    (hpinned : moment.before.Pinned digest hold handle id bytes writable)
    (hsharing : moment.Sharing (· = digest) location name) :
    moment.after.Stands location name id ∧
      ∀ cacheName asked, moment.command = .onCache cacheName asked →
        moment.after.machine.NotEvicted name := by
  obtain ⟨hbound, hnot⟩ := moment.keeps_inUse hpinned.orderly hsharing (hpinned.inUse h.bound)
  exact ⟨⟨hbound, Nat.le_trans (moment.links_le hpinned.orderly hsharing h.bound) h.single⟩, hnot⟩

/-- The command looks a key up in a cache with this digest that shares the directory and knows it by
this path. -/
def Reads (session : Session) (command : Command) (digest : Digest) (location : Location)
    (key : Key) (path : Path) : Prop :=
  ∃ name on source again, command = .onCache name (.get source again) ∧
    session.caches.get? name = some on ∧ on.cache.digest = digest ∧
    on.Shares location session.machine.fs ∧ on.cache.state.directory? = some path ∧
    source.key? on.cache = some key

/-- As long as a blob is held and its entry stands, every cache finds it whose path has room for its
name. -/
theorem Pinned.get_hits (h : session.Pinned digest hold handle id bytes writable)
    (hstands : session.Stands location key.fileName id) {command : Command} {path : Path}
    (hreads : session.Reads command digest location key path)
    (hfits : FileSystem.Fits path key.fileName) :
    (session.step command).1.found? = some (bytes, true) := by
  obtain ⟨name, on, source, again, rfl, hon, rfl, hshares, hdir, hkey⟩ := hreads
  have hwf := h.orderly.begin.wellFormed
  have hlead := hshares.begin.leads
  have hname : key.IsName := (hwf.named _ _ _ hstands.bound).1
  have hgranted : session.begin.machine.fs.granted (Cache.entryPath path key) .shared = .ok id :=
    (FileSystem.granted_eq_ok_iff (hlead path hdir) hname).mpr
      ⟨hfits, hstands.bound, hstands.single, h.pins.lockable⟩
  have hcheck : Entry.check on.cache.digest (Cache.entryPath path key)
      (session.begin.machine.fs.contents id) = .ok bytes.length :=
    (congrArg _ h.pins.content_eq).trans (h.check _)
  have hlooked : (lookUp Machine.host on.cache key session.begin.machine).1 =
      some (.mapped session.begin.machine.fs.next bytes.length) := by
    rw [lookUp_fst, Cache.get_eq hwf (hlead path hdir) hdir hname]
    simp only [hgranted, hcheck]
  obtain ⟨found, content, hfinds⟩ := lookUp_finds hwf hlead (Or.inr hname) hlooked
  -- what is found is the entry that is held
  obtain rfl : found = id := by
    have hsame := hfinds.bound.symm.trans hstands.bound
    cases hsame
    rfl
  have hcontent : Entry.encode on.cache.digest content = Entry.encode on.cache.digest bytes :=
    hfinds.content_eq.symm.trans h.pins.content_eq
  rw [step_onCache hon, onCache_get hshares.faults_eq _ hkey, hlooked]
  simp only [machine_withMachine, hfinds.pins.read, hcontent]
  rw [Entry.encode, List.take_left]
  rfl

/-! ## Hits -/

/-- In this moment a look-up or a load finds the blob of a key in a cache and holds it. -/
def Moment.Hits (on : OpenCache) (key : Key) (hold : String) (bytes : Bytes) (moment : Moment) :
    Prop :=
  ∃ name, moment.before.caches.get? name = some on ∧
    ((∃ source, moment.command = .onCache name (.get source (some hold)) ∧
        source.key? on.cache = some key) ∨
      ∃ compiler request compiled,
        moment.command = .onCache name (.load compiler request compiled (some hold)) ∧
        on.cache.keyOf compiler request = key) ∧
    moment.answer.found? = some (bytes, true)

/-- What is known of a blob that was found and is held. -/
structure Holds (cache : Cache) (key : Key) (location : Location) (hold : String)
    (handle : HandleId) (id : FileId) (bytes : Bytes) (session after : Session) : Prop where
  /-- The blob is held. -/
  pinned : after.Pinned cache.digest hold handle id bytes (session.machine.fs.mayWrite id)
  /-- Its entry stands. -/
  stands : after.Stands location key.fileName id
  /-- It stood there before. -/
  keeps : session.machine.Keeps location key.fileName id (Entry.encode cache.digest bytes)
  /-- The path of the cache has room for its name. -/
  fits : ∀ path, cache.state.directory? = some path → FileSystem.Fits path key.fileName

/-- What is looked up and found and then kept is held. -/
theorem lookUp_holds {on : OpenCache} (horderly : session.Orderly)
    (hshares : on.Shares location session.machine.fs) (hkey : key = .empty ∨ key.IsName)
    (h : (lookUp Machine.host on.cache key session.machine).1 = some blob)
    (hafter : after = (session.withMachine
      (lookUp Machine.host on.cache key session.machine).2).keep blob (some hold))
    (horderly' : after.Orderly) :
    ∃ id bytes,
      (blob.read Machine.host (lookUp Machine.host on.cache key session.machine).2).1 = bytes ∧
        session.Holds on.cache key location hold session.machine.fs.next id bytes after := by
  obtain ⟨id, bytes, hfinds⟩ := lookUp_finds horderly.wellFormed hshares.leads hkey h
  have hdoes : session.machine.Does ⟨(session.machine.fs.next ≤ ·), True, False, False⟩
      (lookUp (Machine.faultyHost .none) on.cache key) _ :=
    lookUp_does trivial rfl .none on.cache key
  rw [Machine.faultyHost_none] at hdoes
  have hchanges := (hdoes ⟨horderly.wellFormed, horderly.legible, fun _ hle => hle⟩).1
  have hread := hfinds.pins.read bytes.length
  subst hafter
  refine ⟨id, bytes, ?_, ?_, ?_, ⟨hfinds.bound, hfinds.content_eq⟩, hfinds.fits⟩
  · rw [hfinds.blob_eq, hread, Entry.encode, List.take_left]
  · have hlt := horderly.wellFormed.file_lt _ _ hfinds.bound
    exact hfinds.pinned horderly (hchanges.wellFormed horderly.wellFormed)
      (hchanges.guarded horderly.guarded) (hchanges.mayWrite_eq hlt) horderly'
  · have hbefore : session.Stands location key.fileName id := ⟨hfinds.bound, hfinds.single⟩
    exact hbefore.of_tree ((tree_keep _ _ _).trans hfinds.tree_eq)

/-- In a moment that hits the blob comes to be held. -/
theorem Moment.holds {moment : Moment} {on : OpenCache} (horderly : moment.before.Orderly)
    (hhit : moment.Hits on key hold bytes) (hshares : on.Shares location moment.before.machine.fs) :
    ∃ handle id, moment.before.Holds on.cache key location hold handle id bytes moment.after := by
  obtain ⟨before, command⟩ := moment
  have horderly' := Moment.orderly ⟨before, command⟩ horderly
  obtain ⟨name, hon, hcommand, hanswer⟩ := hhit
  unfold Moment.answer at hanswer
  unfold Moment.after at horderly' ⊢
  rcases hcommand with ⟨source, rfl, hkey⟩ | ⟨compiler, request, compiled, rfl, rfl⟩
  · simp only [step_onCache hon, onCache_get hshares.faults_eq _ hkey] at hanswer horderly' ⊢
    rcases hlooked : (lookUp Machine.host on.cache key before.begin.machine).1 with _ | blob <;>
      simp only [hlooked] at hanswer horderly' ⊢
    · cases hanswer
    · obtain ⟨id, found, hread, hholds⟩ := lookUp_holds horderly.begin hshares.begin
        (empty_or_isName_of_key? hkey) hlooked rfl horderly'
      obtain rfl := hread.symm.trans (Prod.mk.inj (Option.some.inj hanswer)).1
      exact ⟨_, id, hholds.pinned, hholds.stands, hholds.keeps, hholds.fits⟩
  · simp only [step_onCache hon, onCache_load hshares.faults_eq] at hanswer horderly' ⊢
    rcases hloaded : (loadGraph Machine.host on.cache compiler request compiled
        before.begin.machine).1 with error | ⟨blob, _ | _ | _ | _⟩ <;>
      simp only [hloaded] at hanswer horderly' ⊢
    case ok.hit =>
      obtain ⟨hlooked, hafter⟩ := loadGraph_of_hit hloaded
      rw [hafter] at hanswer horderly' ⊢
      obtain ⟨id, found, hread, hholds⟩ := lookUp_holds horderly.begin hshares.begin
        (empty_or_isName_keyOf on.cache compiler request) hlooked rfl horderly'
      obtain rfl := hread.symm.trans (Prod.mk.inj (Option.some.inj hanswer)).1
      exact ⟨_, id, hholds.pinned, hholds.stands, hholds.keeps, hholds.fits⟩
    all_goals cases hanswer

/-- The bytes that `trim` and `clear` answer are those of the evictions they report. -/
theorem Moment.freed_eq {moment : Moment} {name : String} {asked : CacheCommand} {freed : Nat}
    (horderly : moment.before.Orderly) (hcommand : moment.command = .onCache name asked)
    (hasked : asked = .trim ∨ asked = .clear)
    (hshares : ∀ on, moment.before.caches.get? name = some on →
      on.Shares location moment.before.machine.fs)
    (hanswer : moment.answer = .number freed) : freed = moment.after.machine.freed := by
  obtain ⟨before, command⟩ := moment
  obtain rfl : command = .onCache name asked := hcommand
  unfold Moment.answer at hanswer
  unfold Moment.after
  rcases hon : before.caches.get? name with _ | on
  · rw [step_onCache_of_unknown hon] at hanswer
    cases hanswer
  have hlead := (hshares on hon).begin.leads
  have hhost : Machine.faultyHost on.faults = Machine.host := by
    rw [(hshares on hon).faults_eq, Machine.faultyHost_none]
  have hwf := horderly.begin.wellFormed
  rw [step_onCache hon] at hanswer ⊢
  unfold onCache at hanswer ⊢
  rcases hasked with rfl | rfl
  · simp only [hhost, onMachine] at hanswer ⊢
    exact (Answer.number.inj hanswer).symm.trans (Cache.trim_freed hwf hlead)
  · simp only [hhost, onMachine] at hanswer ⊢
    exact (Answer.number.inj hanswer).symm.trans (Cache.clear_freed hwf hlead)

/-! ## What a held blob means -/

/-- A look-up or a load hits in any session that any commands lead to, and its blob is held. As long
as it is, whatever else anybody does, it reads the same bytes; only the tool must not find that the
owner of the entry may write it.

As long as caches with the same digest share the directory, and whoever else removes files or makes
links leaves the entry alone, the entry stays under its name with the same content, no eviction
takes it or counts it, and every look-up of its key hits in a cache whose path has room for the
name, as that of the first one has. -/
theorem held_blob_pins_entry (directory : Bytes) (past : List Command) {hit : Moment}
    (hbefore : hit.before = finish (start directory) past) {on : OpenCache}
    (hhit : hit.Hits on key hold bytes) (hshares : on.Shares location hit.before.machine.fs)
    (rest : List Command)
    (htool : (∃ words bindings, .tool words bindings ∈ rest) →
      ∀ id, hit.before.machine.fs.tree.get? (location.child key.fileName) = some (.file id) →
        hit.before.machine.fs.mayWrite id = false)
    (hheld : ∀ later ∈ run hit.after rest, later.after.held.get? hold = hit.after.held.get? hold) :
    ((finish hit.after rest).step (.readBlob hold)).1.found? = some (bytes, true) ∧
    ((∀ later ∈ run hit.after rest, later.Sharing (· = on.cache.digest) location key.fileName) →
      (∃ id, hit.before.machine.Keeps location key.fileName id
          (Entry.encode on.cache.digest bytes) ∧
        (finish hit.after rest).machine.Keeps location key.fileName id
          (Entry.encode on.cache.digest bytes)) ∧
      (∀ later ∈ run hit.after rest, ∀ name asked, later.command = .onCache name asked →
        later.after.machine.NotEvicted key.fileName ∧
        (asked = .trim ∨ asked = .clear → ∀ freed, later.answer = .number freed →
          freed = later.after.machine.freed)) ∧
      (∀ path, on.cache.state.directory? = some path → FileSystem.Fits path key.fileName) ∧
      ∀ command path, (finish hit.after rest).Reads command on.cache.digest location key path →
        FileSystem.Fits path key.fileName →
        ((finish hit.after rest).step command).1.found? = some (bytes, true)) := by
  have horderly : hit.before.Orderly := hbefore ▸ orderly_finish (.start directory) past
  obtain ⟨handle, id, hholds⟩ := hit.holds horderly hhit hshares
  have hstep : ∀ later ∈ run hit.after rest,
      later.before.Pinned on.cache.digest hold handle id bytes
        (hit.before.machine.fs.mayWrite id) →
      later.after.Pinned on.cache.digest hold handle id bytes
        (hit.before.machine.fs.mayWrite id) := by
    intro later hmem hpinned
    have hsame := (hheld later hmem).trans (hholds.pinned.held.trans hpinned.held.symm)
    refine hpinned.step hsame fun ⟨words, bindings, hcommand⟩ => ?_
    have hmem : .tool words bindings ∈ rest := hcommand ▸ command_mem_of_mem_run hmem
    exact htool ⟨words, bindings, hmem⟩ id hholds.keeps.1
  refine ⟨(invariant_of_run _ hholds.pinned hstep).1.readBlob, fun hsharing => ?_⟩
  obtain ⟨⟨hend, hstands⟩, hall⟩ := invariant_of_run
    (fun session => session.Pinned on.cache.digest hold handle id bytes
      (hit.before.machine.fs.mayWrite id) ∧ session.Stands location key.fileName id)
    ⟨hholds.pinned, hholds.stands⟩ fun later hmem h =>
      ⟨hstep later hmem h.1, (h.2.step h.1 (hsharing later hmem)).1⟩
  refine ⟨⟨id, hholds.keeps, hstands.bound, hend.pins.content_eq⟩, ?_, hholds.fits,
    fun command path => hend.get_hits hstands⟩
  intro later hmem name asked hcommand
  obtain ⟨hpinned, hstands⟩ := hall later hmem
  have hshared := hsharing later hmem
  refine ⟨(hstands.step hpinned hshared).2 name asked hcommand, fun hasked freed hfreed => ?_⟩
  unfold Moment.Sharing at hshared
  rw [hcommand] at hshared
  exact Moment.freed_eq hpinned.orderly hcommand hasked (fun other hon => (hshared other hon).2)
    hfreed

/-- A blob is held while a second cache, into whose budget its entry does not fit, trims and stores
another blob, and the first one is cleared and verified. -/
theorem held_blob_outlives_clear :
    let open_ (name : String) (budget : UInt64) : Command :=
      .openCache name (.config ⟨some Path.dot, budget⟩) .weightedSum none .none
    let past : List Command := [open_ "a" 100, .onCache "a" (.set (.text "k") [1, 2, 3])]
    let hit : Moment :=
      ⟨finish (start [0x77]) past, .onCache "a" (.get (.text "k") (some "held"))⟩
    let rest : List Command := [open_ "b" 5, .onCache "b" .trim, .onCache "a" .clear,
      .onCache "a" .verify, .onCache "b" (.set (.text "l") [9])]
    let session := finish hit.after rest
    (session.step (.readBlob "held")).1.found? = some ([1, 2, 3], true) ∧
      (∃ id, session.machine.Keeps (Location.top.child [0x77]) (Key.fileName ⟨"k"⟩) id
        (Entry.encode .weightedSum [1, 2, 3])) ∧
      (session.step (.onCache "b" (.get (.text "k") none))).1.found? =
        some ([1, 2, 3], true) := by
  intro open_ past hit rest session
  let here := workingDirectory (start [0x77]).machine.fs
  have hopen : ∀ name budget, (open_ name budget).Ordinary .weightedSum [Path.dot] here :=
    fun _ _ => Command.ordinary_openCache List.mem_cons_self _ _ _ _
  have hpast : ∀ command ∈ past, command.Ordinary .weightedSum [Path.dot] here := by
    simp only [past, List.forall_mem_cons]
    exact ⟨hopen _ _, trivial, fun _ hmem => nomatch hmem⟩
  have hrest : ∀ command ∈ rest, command.Ordinary .weightedSum [Path.dot] here := by
    simp only [rest, List.forall_mem_cons]
    exact ⟨hopen _ _, trivial, trivial, trivial, trivial, fun _ hmem => nomatch hmem⟩
  have hbefore : hit.before.Sound .weightedSum (Location.top.child [0x77]) [Path.dot] here :=
    ((sound_start .weightedSum [0x77]).run Digest.sized_weightedSum (by decide) hpast).1
  have hafter : hit.after.Sound .weightedSum (Location.top.child [0x77]) [Path.dot] here :=
    (hit.spec Digest.sized_weightedSum (by decide) hbefore trivial).1
  obtain ⟨hend, hsharing⟩ := hafter.run Digest.sized_weightedSum (by decide) hrest
  have hkey : Key.parse? "k" = some ⟨"k"⟩ := by decide +kernel
  obtain ⟨on, hon⟩ : ∃ on, hit.before.caches.get? "a" = some on :=
    Option.isSome_iff_exists.mp (by decide +kernel)
  obtain ⟨hdigest, hshares⟩ : on.cache.digest = .weightedSum ∧
      on.Shares (Location.top.child [0x77]) hit.before.machine.fs :=
    Moment.sharing_of_sound hbefore trivial (Key.fileName ⟨"k"⟩) on hon
  have hhit : hit.Hits on ⟨"k"⟩ "held" [1, 2, 3] :=
    ⟨"a", hon, Or.inl ⟨.text "k", rfl, hkey⟩, by decide +kernel⟩
  obtain ⟨hread, hthen⟩ := held_blob_pins_entry [0x77] past rfl hhit hshares rest
    (by simp [rest, open_]) (by decide +kernel)
  rw [hdigest] at hthen
  obtain ⟨⟨id, -, hkeeps⟩, -, -, hget⟩ :=
    hthen fun later hmem => hsharing later hmem _
  refine ⟨hread, ⟨id, hkeeps⟩, hget _ Path.dot ?_ (by decide +kernel)⟩
  obtain ⟨other, hother⟩ : ∃ other, session.caches.get? "b" = some other :=
    Option.isSome_iff_exists.mp (by decide +kernel)
  have henabled : (session.caches.get? "b").map (·.cache.state.directory?) =
      some (some Path.dot) := by decide +kernel
  rw [hother] at henabled
  have hserves := hend.serves "b" other hother
  exact ⟨"b", other, .text "k", none, rfl, hother, hserves.digest_eq,
    ⟨hserves.faults_eq, hend.lead hserves⟩, Option.some.inj henabled, hkey⟩

/-- That a cache shares the directory is not enough: by a path that is as long as a path may be it
misses the entry of a blob that another cache holds. -/
theorem held_blob_missed_by_long_path :
    ¬∀ (directory : Bytes) (past : List Command) (hit : Moment) (on : OpenCache) (key : Key)
        (hold : String) (bytes : Bytes) (location : Location) (rest : List Command),
      hit.before = finish (start directory) past → hit.Hits on key hold bytes →
      on.Shares location hit.before.machine.fs →
      (∀ words bindings, .tool words bindings ∉ rest) →
      (∀ later ∈ run hit.after rest, later.after.held.get? hold = hit.after.held.get? hold) →
      (∀ later ∈ run hit.after rest, later.Sharing (· = on.cache.digest) location key.fileName) →
      ∀ command path, (finish hit.after rest).Reads command on.cache.digest location key path →
        ((finish hit.after rest).step command).1.found? = some (bytes, true) := by
  intro h
  let open_ (name : String) (path : Path) : Command :=
    .openCache name (.config ⟨some path, 100⟩) .weightedSum none .none
  let paths := [Path.dot, Cache.longPath]
  let here := workingDirectory (start [0x77]).machine.fs
  let past : List Command := [open_ "a" Path.dot, .onCache "a" (.set (.text "k") [1])]
  let hit : Moment :=
    ⟨finish (start [0x77]) past, .onCache "a" (.get (.text "k") (some "held"))⟩
  let rest : List Command := [open_ "b" Cache.longPath]
  have hstart := sound_start_by_long_path .weightedSum
  have hpast : ∀ command ∈ past, command.Ordinary .weightedSum paths here := by
    simp only [past, List.forall_mem_cons]
    exact ⟨Command.ordinary_openCache (by simp [paths]) _ _ _ _, trivial,
      fun _ hmem => nomatch hmem⟩
  have hrest : ∀ command ∈ rest, command.Ordinary .weightedSum paths here :=
    List.forall_mem_singleton.mpr (Command.ordinary_openCache (by simp [paths]) _ _ _ _)
  have hbefore : hit.before.Sound .weightedSum (Location.top.child [0x77]) paths here :=
    (hstart.run Digest.sized_weightedSum (by decide) hpast).1
  have hafter : hit.after.Sound .weightedSum (Location.top.child [0x77]) paths here :=
    (hit.spec Digest.sized_weightedSum (by decide) hbefore trivial).1
  obtain ⟨hend, hsharing⟩ := hafter.run Digest.sized_weightedSum (by decide) hrest
  have hkey : Key.parse? "k" = some ⟨"k"⟩ := by decide +kernel
  obtain ⟨on, hon⟩ : ∃ on, hit.before.caches.get? "a" = some on :=
    Option.isSome_iff_exists.mp (by decide +kernel)
  obtain ⟨hdigest, hshares⟩ : on.cache.digest = .weightedSum ∧
      on.Shares (Location.top.child [0x77]) hit.before.machine.fs :=
    Moment.sharing_of_sound hbefore trivial (Key.fileName ⟨"k"⟩) on hon
  have hhit : hit.Hits on ⟨"k"⟩ "held" [1] :=
    ⟨"a", hon, Or.inl ⟨.text "k", rfl, hkey⟩, by decide +kernel⟩
  have hopen : (((finish hit.after rest).caches.get? "b").bind
      (·.cache.state.directory?)).isSome = true := by decide +kernel
  obtain ⟨path, hpath⟩ := Option.isSome_iff_exists.mp hopen
  obtain ⟨other, hother, hdir⟩ := Option.bind_eq_some_iff.mp hpath
  have hserves := hend.serves "b" other hother
  have hmiss := h [0x77] past hit on ⟨"k"⟩ "held" [1] _ rest rfl hhit hshares
    (by simp [rest, open_]) (by decide +kernel) (hdigest ▸ fun later hmem => hsharing later hmem _)
    (.onCache "b" (.get (.text "k") none)) path
    ⟨"b", other, .text "k", none, rfl, hother, hserves.digest_eq.trans hdigest.symm,
      ⟨hserves.faults_eq, hend.lead hserves⟩, hdir, hkey⟩
  revert hmiss
  decide +kernel

end Session

end BlobCache
