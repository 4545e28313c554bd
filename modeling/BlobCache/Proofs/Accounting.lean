import BlobCache.Proofs.LostWrites
import BlobCache.Proofs.Words

/-!
# What the cache says of its size

Three numbers speak of the bytes that the cache takes: those that a listing gives, the sizes of the
files that an eviction holds, and the length of a blob with its checksum. They fit together, also
where the host refuses to lock, to remove or to write: what is refused is not counted.

* `FileSystem.Vacates`: some entries of a directory have gone, and it takes less by what they took.
* `Cache.evict_vacates`, `Cache.makeRoom_vacates`: what an eviction answers is what has gone, and
  the size that making room gives is what the directory takes then.
* `Cache.set_of_stored`: once a blob was stored, the directory has the new entry in place of what
  was evicted, and the event says how much that is.
* `Cache.accounts`: the law, with sizes as the cache itself gives them, and with the programs that
  count in words of 64 bits.

Entries with several names, entries that somebody holds and entries that the host does not let go
count as much as the others, but they are not evicted.
-/

namespace BlobCache

/-! ## What is reported on the way -/

/-- Whether an event says that a blob was stored. -/
def Event.isStore : Event → Bool
  | .stored .. => true
  | _ => false

/-- The event of a stored blob is known by its text. -/
theorem Event.isStore_iff (event : Event) : event.isStore = true ↔ event.message = "cache set" := by
  cases event <;> simp [isStore, message]

/-- On the way from one machine to another, no blob was reported as stored. -/
def Machine.StoredNone (m m' : Machine) : Prop :=
  ∃ new, m'.log = m.log ++ new ∧ ∀ event ∈ new, event.isStore = false

namespace Machine.StoredNone

variable {m m' m'' : Machine}

/-- If nothing happens, nothing is stored. -/
theorem refl (m : Machine) : m.StoredNone m :=
  ⟨[], by rw [List.append_nil], fun _ hmem => absurd hmem List.not_mem_nil⟩

/-- Nothing is stored by two programs in a row that store nothing. -/
theorem trans (h : m.StoredNone m') (h' : m'.StoredNone m'') : m.StoredNone m'' := by
  obtain ⟨new, hlog, hnew⟩ := h
  obtain ⟨new', hlog', hnew'⟩ := h'
  refine ⟨new ++ new', by rw [hlog', hlog, List.append_assoc], fun event hmem => ?_⟩
  rcases List.mem_append.mp hmem with hmem | hmem
  · exact hnew event hmem
  · exact hnew' event hmem

end Machine.StoredNone

/-- Whatever the machine is, the program reports no blob as stored. -/
def Machine.StoresNone {α : Type} (x : StateM Machine α) : Prop :=
  ∀ m : Machine, m.StoredNone (x m).2

namespace Machine.StoresNone

variable {α β : Type} {x : StateM Machine α}

/-- To return a result stores nothing. -/
theorem pure (a : α) : StoresNone (Pure.pure a) := .refl

/-- A program stores nothing if none of its parts does. -/
theorem bind {f : α → StateM Machine β} (hx : StoresNone x) (hf : ∀ a, StoresNone (f a)) :
    StoresNone (x >>= f) :=
  fun m => (hx m).trans (hf (x m).1 (x m).2)

/-- Operations on files report nothing. -/
theorem onFiles (operation : FileSystem → α × FileSystem) :
    StoresNone (Machine.onFiles operation) := fun m => .refl m

/-- Nor do questions about them. -/
theorem askFiles (question : FileSystem → α) : StoresNone (Machine.askFiles question) := .refl

/-- Nor does an operation that is refused. -/
theorem refusing {x : StateM Machine (Except StoreError α)} (hx : StoresNone x)
    (names : List Bytes) (path : Path) : StoresNone (Machine.refusing names path x) := by
  unfold Machine.refusing
  split
  · exact .pure _
  · exact hx

/-- To take note of another event stores nothing. -/
theorem note {event : Event} (h : event.isStore = false) : StoresNone (Machine.note event) :=
  fun _ => ⟨[event], rfl, by simpa using h⟩

end Machine.StoresNone

/-! ## What a directory takes less -/

/-- These entries of a directory have gone, in the order of use, and nothing else has changed but
that identities were used up. -/
structure FileSystem.Vacates (fs : FileSystem) (location : Location) (gone : List Entry)
    (fs' : FileSystem) : Prop where
  /-- They were entries of the directory. -/
  sublist : gone.Sublist (Entry.inOrder (fs.entriesIn location))
  /-- All the rest is as it was. -/
  eq : ∃ next, fs.next + gone.length ≤ next ∧ fs' = (fs.without location gone).usedUpTo next

namespace FileSystem.Vacates

variable {fs fs' : FileSystem} {location : Location} {gone : List Entry}

/-- If nothing happens, no entries have gone. -/
theorem refl (fs : FileSystem) (location : Location) : fs.Vacates location [] fs where
  sublist := List.nil_sublist _
  eq := ⟨fs.next, Nat.le_refl _, by rw [without_nil]; rfl⟩

/-- What has gone was there. -/
theorem mem_entriesIn (h : fs.Vacates location gone fs') :
    ∀ entry ∈ gone, entry ∈ fs.entriesIn location :=
  fun _ hmem => Entry.mem_inOrder.mp (h.sublist.subset hmem)

/-- The file system stays well formed. -/
theorem wellFormed (h : fs.Vacates location gone fs') (hwf : fs.WellFormed) : fs'.WellFormed := by
  obtain ⟨next, hnext, rfl⟩ := h.eq
  exact (hwf.without location gone).usedUpTo hnext

/-- Paths lead where they led. -/
theorem leads (h : fs.Vacates location gone fs') {path : Path} (hlead : fs.Leads path location) :
    fs'.Leads path location := by
  obtain ⟨next, -, rfl⟩ := h.eq
  exact (hlead.without h.mem_entriesIn).usedUpTo next

/-- The directory takes less by what has gone. -/
theorem totalIn (h : fs.Vacates location gone fs') :
    fs'.totalIn location + Entry.totalSize gone = fs.totalIn location := by
  have hnodup : gone.Nodup := (Entry.nodup_of_distinct
    (Entry.pairwise_inOrder (fs.pairwise_entriesIn location))).sublist h.sublist
  have htotal := FileSystem.totalIn_without h.mem_entriesIn hnodup
  obtain ⟨next, -, rfl⟩ := h.eq
  exact htotal

end FileSystem.Vacates

namespace Cache

variable {location : Location} {path : Path} {m : Machine} {cache : Cache} {budget : UInt64}
  {key : Key} {blob : Bytes} {stored : Nat} {faults : Faults}

/-- Eviction stores nothing, whatever is refused. -/
theorem evictFrom_storesNone (faults : Faults) (path : Path) (needed : Nat) (entries : List Entry)
    (freed : Nat) :
    Machine.StoresNone (evictFrom (Machine.faultyHost faults) path needed entries freed) := by
  have hopen : ∀ path, Machine.StoresNone ((Machine.faultyHost faults).openExclusive path) :=
    fun path => (Machine.StoresNone.onFiles (·.openEntry path .exclusive)).refusing _ path
  have hremove : ∀ path, Machine.StoresNone ((Machine.faultyHost faults).remove path) :=
    fun path => (Machine.StoresNone.onFiles (·.removeEntry path)).refusing _ path
  induction entries generalizing freed with
  | nil => exact .pure _
  | cons entry rest ih =>
      refine .bind (hopen _) fun opened => ?_
      rcases opened with error | file
      · exact .bind (.note rfl) fun _ => ih freed
      refine .bind (.askFiles _) fun size => .bind (hremove _) fun removed => ?_
      rcases removed with error | _
      · exact .bind (.note rfl) fun _ => .bind (.onFiles _) fun _ => ih freed
      refine .bind (.note rfl) fun _ => .bind (.onFiles _) fun _ => ?_
      split
      · exact .pure _
      · exact ih _

section truthful

variable (htrue : faults.Truthful)

include htrue

/-! ## What an eviction takes -/

/-- Making room stores nothing. -/
theorem makeRoom_storesNone (path : Path) (budget added : Nat) :
    Machine.StoresNone (makeRoom (Machine.faultyHost faults) path budget added) := by
  have hlisted : Machine.StoresNone (listed Machine.host path) := by
    refine .bind (.askFiles _) fun listing => ?_
    split
    · exact .pure _
    · exact .bind (.note rfl) fun _ => .pure _
  unfold makeRoom evict
  rw [sizeOf_truthful htrue, entriesOf_truthful htrue]
  refine .bind (.bind hlisted fun _ => .pure _) fun size => ?_
  split
  · exact .pure _
  · refine .bind (.bind (.bind hlisted fun _ => .pure _) fun entries => ?_) fun _ => .pure _
    exact evictFrom_storesNone faults path _ entries 0

/-- What an eviction answers is what has gone. -/
theorem evict_vacates (hwf : m.fs.WellFormed) (hlead : m.fs.Leads path location) (needed : Nat) :
    ∃ gone, m.fs.Vacates location gone (evict (Machine.faultyHost faults) path needed m).2.fs ∧
      (evict (Machine.faultyHost faults) path needed m).1 = Entry.totalSize gone := by
  obtain ⟨next, hfreed, hfs, hnext, -⟩ := evict_eq_victims_of_truthful htrue hwf hlead needed
  have hfront := Entry.victims_front needed (m.fs.removables faults path location)
  exact ⟨_, ⟨hfront.sublist.trans (FileSystem.removables_sublist faults), next, hnext, hfs⟩,
    hfreed⟩

/-- Wherever the path leads, what an eviction answers is what the directory takes less. -/
theorem evict_balances (hwf : m.fs.WellFormed) (path : Path) (needed : Nat) :
    (evict (Machine.faultyHost faults) path needed m).1 +
        (sizeOf Machine.host path (evict (Machine.faultyHost faults) path needed m).2).1 =
      (sizeOf Machine.host path m).1 := by
  by_cases hlead : ∃ location, m.fs.Leads path location
  · obtain ⟨location, hlead⟩ := hlead
    obtain ⟨gone, hvacates, hfreed⟩ := evict_vacates htrue hwf hlead needed
    rw [sizeOf_eq hlead, sizeOf_eq (hvacates.leads hlead), hfreed, Nat.add_comm]
    exact hvacates.totalIn
  · obtain ⟨hnone, hfs⟩ := evict_of_not_leads htrue hlead needed
    rw [hnone, Nat.zero_add, sizeOf_fst, sizeOf_fst, hfs]

/-! ## What storing adds -/

/-- Entries make room, and the size that is given is what the directory takes then. -/
theorem makeRoom_vacates (hwf : m.fs.WellFormed) (hlead : m.fs.Leads path location)
    (budget added : Nat) :
    ∃ gone,
      m.fs.Vacates location gone (makeRoom (Machine.faultyHost faults) path budget added m).2.fs ∧
      (makeRoom (Machine.faultyHost faults) path budget added m).1 =
        (makeRoom (Machine.faultyHost faults) path budget added m).2.fs.totalIn location := by
  unfold makeRoom
  rw [Machine.run_bind, sizeOf_truthful htrue, sizeOf_eq hlead]
  simp only
  split
  · exact ⟨[], .refl _ _, rfl⟩
  · obtain ⟨gone, hvacates, hfreed⟩ := evict_vacates htrue hwf hlead
      (Entry.totalSize (m.fs.entriesIn location) + added - budget)
    refine ⟨gone, hvacates, ?_⟩
    have htotal : Entry.totalSize (m.fs.entriesIn location) = m.fs.totalIn location := rfl
    have hless := hvacates.totalIn
    simp only [Machine.run_bind, Machine.run_pure]
    omega

omit htrue in
/-- What is stored is written as on a host that refuses nothing but writes. -/
theorem addEntry_of_stored {digest : Digest} {size : Nat}
    (h : (addEntry (Machine.faultyHost faults) digest path size key blob m).1 = .stored stored) :
    addEntry (Machine.faultyHost faults) digest path size key blob m =
      addEntry (Machine.writing (Machine.tearing faults.write)) digest path size key blob m := by
  by_cases hrefused : faults.openExclusive.contains (Faults.lastName (entryPath path key)) = true
  · have hcreate : (Machine.faultyHost faults).create (entryPath path key) m =
      (.error (Faults.refusal (entryPath path key)), m) := Machine.refusing_of_contains hrefused _ m
    unfold addEntry at h
    simp only [Machine.run_bind, hcreate, Machine.run_pure] at h
    exact absurd h (outcomeOfRefusal_ne_stored _ _)
  · have hcreate : (Machine.faultyHost faults).create (entryPath path key) =
      Machine.host.create (entryPath path key) := Machine.refusing_of_not_contains hrefused _
    have hwrite : ∀ file, writeEntry (Machine.faultyHost faults) digest file blob =
      writeEntry (Machine.writing (Machine.tearing faults.write)) digest file blob := fun _ => rfl
    unfold addEntry at h ⊢
    simp only [Machine.run_bind, hcreate, hwrite, Machine.writing_create] at h ⊢
    generalize Machine.host.create (entryPath path key) m = created at h ⊢
    obtain ⟨error | file, m'⟩ := created
    · rfl
    simp only [Machine.run_bind] at h ⊢
    generalize writeEntry (Machine.writing (Machine.tearing faults.write)) digest file blob m' =
      written at h ⊢
    obtain ⟨error | _, m''⟩ := written
    · simp only [Machine.run_bind, Machine.run_pure] at h
      cases h
    · rfl

/-- Once a blob was stored, some entries have made room, and there is a new one under a name that
was free by then. That is reported last, with what the directory takes. -/
theorem set_of_stored (hstate : cache.state = .enabled path budget) (hpath : path ≠ [])
    (hwf : m.fs.WellFormed) (hkey : key = .empty ∨ key.IsName)
    (h : (set (Machine.faultyHost faults) cache key blob m).1 = .stored stored) :
    stored = blob.length + cache.digest.size ∧
      ∃ location gone roomy, m.fs.Leads path location ∧ m.fs.Vacates location gone roomy.fs ∧
        m.StoredNone roomy ∧ roomy.fs.tree.get? (location.child key.fileName) = none ∧
        (set (Machine.faultyHost faults) cache key blob m).2 =
          (roomy.withFiles (roomy.fs.storing (location.child key.fileName)
            (Entry.encode cache.digest blob))).noting
              (.stored key blob.length (roomy.fs.totalIn location + stored)) := by
  obtain ⟨hnonempty, hne, heq⟩ := set_eq_of_stored hstate h
  have hname : key.IsName := hkey.resolve_left fun e => by rw [e] at hnonempty; cases hnonempty
  rw [heq] at h
  have hadd := addEntry_of_stored h
  rw [heq, hadd]
  rw [hadd] at h
  obtain ⟨handle, hmade⟩ := addEntry_stored _ h
  by_cases hlead : ∃ location, m.fs.Leads path location
  · obtain ⟨location, hlead⟩ := hlead
    obtain ⟨gone, hvacates, hsize⟩ := makeRoom_vacates htrue hwf hlead budget.toNat
      (blob.length + cache.digest.size)
    have hnone := makeRoom_storesNone htrue path budget.toNat (blob.length + cache.digest.size) m
    generalize makeRoom (Machine.faultyHost faults) path budget.toNat
      (blob.length + cache.digest.size) m = room at h hmade hvacates hsize hnone ⊢
    obtain ⟨size, roomy⟩ := room
    have hwf' := hvacates.wellFormed hwf
    have hlead' := hvacates.leads hlead
    rw [entryPath, FileSystem.createEntry_join hlead' hname] at hmade
    rcases hunder : roomy.fs.under path location key.fileName with cause | _ | node <;>
      rw [hunder] at hmade
    · cases hmade
    · obtain ⟨hfit, hfree⟩ := FileSystem.under_eq_ok_iff.mp hunder
      rw [addEntry_torn hwf' hlead' hname hne hfit hfree] at h ⊢
      rcases htorn : Faults.torn faults.write cache.digest (entryPath path key) blob with
        _ | ⟨part, error⟩ <;> rw [htorn] at h
      · obtain rfl : blob.length + cache.digest.size = stored := SetOutcome.stored.inj h
        have hsize : size = roomy.fs.totalIn location := hsize
        exact ⟨rfl, location, gone, roomy, hlead, hvacates, hnone, hfree, by rw [hsize]⟩
      · cases h
    · cases hmade
  · rw [makeRoom_of_not_leads htrue hlead] at hmade
    exact absurd (FileSystem.leads_of_createEntry hpath hname hmade) hlead

end truthful

/-! ## The law -/

/-- The sizes that a cache gives, answers and reports fit together. -/
structure Accounts (host : Host (StateM Machine) HandleId) (cache : Cache) (path : Path)
    (m : Machine) : Prop where
  /-- Trimming answers how much smaller the cache has become. -/
  trimmed : (trim host cache m).1 + (size host cache (trim host cache m).2).1 =
    (size host cache m).1
  /-- So does clearing. -/
  cleared : (clear host cache m).1 + (size host cache (clear host cache m).2).1 =
    (size host cache m).1
  /-- No eviction frees more than the cache takes. -/
  evicted_le : ∀ needed, (evict host path needed m).1 ≤ (size host cache m).1
  /-- A blob that is stored makes the cache larger by the new entry and smaller by what was
  evicted. One event says that it was stored, the last one, and it gives the size of the cache. -/
  storing : ∀ key blob bytes, key = .empty ∨ key.IsName →
    (set host cache key blob m).1 = .stored bytes →
    bytes = blob.length + cache.digest.size ∧
      (∃ location, m.fs.Leads path location ∧
        (size host cache (set host cache key blob m).2).1 +
            Entry.totalSize (m.fs.evicted (set host cache key blob m).2.fs location) =
          (size host cache m).1 + bytes) ∧
      ∃ before event,
        (set host cache key blob m).2.log = m.log ++ before ++ [event] ∧
        (∀ other ∈ before, other.message ≠ "cache set") ∧ event.message = "cache set" ∧
        event.fields.lookup "cache_size" =
          some (.number (size host cache (set host cache key blob m).2).1)
  /-- As long as sizes are words, trimming, clearing and storing can count in words: no sum is too
  large, and nothing is taken from less. -/
  words : cache.CountsInWords host m
  /-- Reading an entry can in any case. -/
  reading_words : ∀ path, Exact m (InWords.readEntry host cache.digest path)
    (readEntry host cache.digest path)

/-- The accounts of a cache are exact, whatever is in its directory, whoever holds it, and whatever
the host refuses to lock, to remove, to map or to write. -/
theorem accounts (htrue : faults.Truthful) (hstate : cache.state = .enabled path budget)
    (hpath : path ≠ []) (hsized : cache.digest.Sized) (hwf : m.fs.WellFormed) :
    cache.Accounts (Machine.faultyHost faults) path m := by
  have hdir : cache.state.directory? = some path := by rw [hstate]; rfl
  have hsize : ∀ m, (size (Machine.faultyHost faults) cache m).1 =
      (sizeOf Machine.host path m).1 := by
    intro m
    rw [size_truthful htrue]
    unfold size
    rw [hdir]
  constructor
  case trimmed =>
    unfold trim
    simp only [hdir, hsize, Machine.run_bind, sizeOf_truthful htrue]
    have hfs := sizeOf_fs path m
    split
    · rw [Machine.run_pure, Nat.zero_add, sizeOf_fst, hfs, ← sizeOf_fst]
    · have hbalance := evict_balances htrue (m := (sizeOf Machine.host path m).2)
        (hfs.symm ▸ hwf) path ((sizeOf Machine.host path m).1 - cache.state.budget.toNat)
      rw [hbalance, sizeOf_fst, hfs, ← sizeOf_fst]
  case cleared =>
    unfold clear
    simp only [hdir, hsize]
    exact evict_balances htrue hwf path everything
  case evicted_le =>
    intro needed
    rw [hsize]
    exact evict_le htrue hwf path needed
  case storing =>
    intro key blob bytes hkey h
    obtain ⟨hbytes, location, gone, roomy, hlead, hvacates, ⟨before, hroomy, hbefore⟩, hfree,
      hset⟩ := set_of_stored htrue hstate hpath hwf hkey h
    have hlead' := (hvacates.leads hlead).storing hfree (Entry.encode cache.digest blob)
    have hadded : (roomy.fs.storing (location.child key.fileName)
        (Entry.encode cache.digest blob)).totalIn location = roomy.fs.totalIn location + bytes := by
      rw [hbytes, ← Entry.length_encode hsized]
      exact FileSystem.totalIn_storing (hvacates.wellFormed hwf) hfree _
    have hevicted : m.fs.evicted (roomy.fs.storing (location.child key.fileName)
        (Entry.encode cache.digest blob)) location = gone := by
      refine FileSystem.evicted_eq hvacates.sublist fun entry hentry => ?_
      obtain ⟨next, hnext, hfs⟩ := hvacates.eq
      exact set_ne_iff hwf hvacates.mem_entriesIn (by rw [hfs]; rfl)
        (by rw [hfs]; exact Nat.le_of_add_right_le hnext) (Or.inr ⟨hfree, rfl⟩) hentry
    have hafter : (set (Machine.faultyHost faults) cache key blob m).2.fs =
        roomy.fs.storing (location.child key.fileName) (Entry.encode cache.digest blob) := by
      rw [hset]
      rfl
    have hlog : (set (Machine.faultyHost faults) cache key blob m).2.log =
        m.log ++ before ++ [.stored key blob.length (roomy.fs.totalIn location + bytes)] := by
      rw [hset, ← hroomy]
      rfl
    rw [← hafter] at hlead' hadded hevicted
    rw [size_truthful htrue, size_eq hstate hlead, size_eq hstate hlead', hadded]
    refine ⟨hbytes, ⟨location, hlead, ?_⟩, before, _, hlog, ?_, rfl, rfl⟩
    · rw [hevicted]
      have hless := hvacates.totalIn
      omega
    · intro other hmem hmessage
      have hstore := (Event.isStore_iff other).mpr hmessage
      rw [hbefore other hmem] at hstore
      cases hstore
  case words => exact countsInWords htrue cache hwf
  case reading_words => exact readEntry_exact faults cache.digest

/-- In a budget of twenty bytes an entry of twelve should make way for another one, but the host
refuses to remove it. It is not counted as freed: clearing frees nothing, and with the other entry
the cache takes twenty-four bytes. -/
theorem accounts_of_refused_removal :
    let cache : Cache := ⟨.enabled Path.dot 20, .weightedSum, 0⟩
    let faults : Faults := { Faults.none with remove := [Key.fileName ⟨"a"⟩] }
    let host := Machine.faultyHost faults
    let session := Session.finish (.start [0x77])
      [.openCache "c" (.config ⟨some Path.dot, 20⟩) .weightedSum none faults,
        .onCache "c" (.set (.text "a") [1, 2, 3, 4, 5, 6, 7, 8])]
    let after := session.finish [.onCache "c" (.set (.text "b") [8, 7, 6, 5, 4, 3, 2, 1])]
    cache.Accounts host Path.dot session.machine ∧ cache.Accounts host Path.dot after.machine ∧
      (size host cache session.machine).1 = 12 ∧ (clear host cache session.machine).1 = 0 ∧
      (set host cache ⟨"b"⟩ [8, 7, 6, 5, 4, 3, 2, 1] session.machine).1 = .stored 12 ∧
      (size host cache after.machine).1 = 24 := by
  intro cache faults host session after
  have hstate : cache.state = .enabled Path.dot 20 := rfl
  have horderly : session.Orderly := Session.orderly_finish (.start _) _
  have hafter : after.Orderly := Session.orderly_finish horderly _
  refine ⟨accounts ⟨rfl, rfl⟩ hstate ?_ Digest.sized_weightedSum horderly.wellFormed,
    accounts ⟨rfl, rfl⟩ hstate ?_ Digest.sized_weightedSum hafter.wellFormed, ?_, ?_, ?_, ?_⟩ <;>
    decide +kernel

end Cache

end BlobCache
