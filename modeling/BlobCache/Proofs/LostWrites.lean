import BlobCache.Proofs.Opening
import BlobCache.Proofs.Recency

/-!
# Writes that fail

`Cache.lost_writes` says what it comes to that a blob or its checksum cannot be written, for `set`,
for a look-up after it and for another `set`: the outcome says so, nothing is left of the blob
(`Cache.Forgoes`), and what is stored is in its file as a whole.
-/

namespace BlobCache

namespace Cache

variable {write : Nat → Option Nat} {digest : Digest} {location : Location} {path : Path}
  {m : Machine} {key : Key} {blob : Bytes}

/-! ## Storing a blob -/

/-- Both writes of an entry are made by the host that was asked. -/
theorem set_torn {cache : Cache} {budget : UInt64} (hstate : cache.state = .enabled path budget)
    (hname : key.IsName) (hne : blob ≠ []) (hfits : blob.length ≤ budget.toNat) :
    set (Machine.writing (Machine.tearing write)) cache key blob m =
      addEntry (Machine.writing (Machine.tearing write)) cache.digest path
        (makeRoom Machine.host path budget.toNat (blob.length + cache.digest.size) m).1 key blob
        (makeRoom Machine.host path budget.toNat (blob.length + cache.digest.size) m).2 := by
  unfold set
  simp [hstate, Key.not_isEmpty_of_isName hname, hne, Nat.not_lt.mpr hfits, makeRoom_writing]

/-- If an entry can be created once room was made, then behind the path of a directory in which its
name is free. -/
theorem created_after_makeRoom (hwf : m.fs.WellFormed) (hpath : path ≠ []) (hname : key.IsName)
    (budget added : Nat) {size : Nat} {roomy : Machine}
    (hroom : makeRoom Machine.host path budget added m = (size, roomy)) {handle : HandleId}
    (hmade : (roomy.fs.createEntry (entryPath path key)).1 = .ok handle) :
    ∃ location, m.fs.Leads path location ∧ roomy.fs.WellFormed ∧ roomy.fs.Leads path location ∧
      FileSystem.Fits path key.fileName ∧
      roomy.fs.tree.get? (location.child key.fileName) = none ∧
      roomy.fs.handles = m.fs.handles := by
  by_cases hlead : ∃ location, m.fs.Leads path location
  · obtain ⟨location, hlead⟩ := hlead
    obtain ⟨size', roomy', hroom', hfs, hwf', hlead'⟩ := makeRoom_leaves hwf hlead budget added
    cases hroom.symm.trans hroom'
    rw [entryPath, FileSystem.createEntry_join hlead' hname] at hmade
    rcases hunder : roomy.fs.under path location key.fileName with cause | _ | node <;>
      rw [hunder] at hmade
    · cases hmade
    · obtain ⟨hfit, hfree⟩ := FileSystem.under_eq_ok_iff.mp hunder
      refine ⟨location, hlead, hwf', hlead', hfit, hfree, ?_⟩
      rw [hfs]
      rfl
    · cases hmade
  · have hsame := makeRoom_fs_of_not_leads hlead budget added
    rw [hroom] at hsame
    rw [hsame] at hmade
    exact absurd (FileSystem.leads_of_createEntry hpath hname hmade) hlead

/-- Under a name that stands for nothing a look-up finds nothing. -/
theorem get_of_vacant {cache : Cache} (hwf : m.fs.WellFormed)
    (hdir : cache.state.directory? = some path) (hlead : m.fs.Leads path location)
    (hname : key.IsName) (hvacant : m.fs.tree.get? (location.child key.fileName) = none) :
    (get Machine.host cache key m).1 = none := by
  rw [get_eq hwf hlead hdir hname]
  rcases hgranted : m.fs.granted (entryPath path key) .shared with error | id
  · rfl
  · obtain ⟨-, hget, -⟩ := (FileSystem.granted_eq_ok_iff hlead hname).mp hgranted
    rw [hvacant] at hget
    cases hget

end Cache

/-- A file with this content stands at a place. -/
def FileSystem.Carries (fs : FileSystem) (place : Location) (content : Bytes) : Prop :=
  ∃ id, fs.tree.get? place = some (.file id) ∧ fs.contents id = content

/-- A new entry carries what was written to it. -/
theorem FileSystem.carries_storing (fs : FileSystem) (place : Location) (content : Bytes) :
    (fs.storing place content).Carries place content :=
  ⟨fs.next, Table.get?_set_self _ _ _, fs.contents_storing_self place content⟩

namespace Cache

section lost

variable {write : Nat → Option Nat} {cache : Cache} {path : Path} {budget : UInt64}
  {location : Location} {m : Machine} {key : Key} {blob : Bytes}

/-- A blob that fits is stored under a free name if both its writes go through. -/
theorem set_spared (hstate : cache.state = .enabled path budget) (hwf : m.fs.WellFormed)
    (hlead : m.fs.Leads path location) (hname : key.IsName)
    (hfit : FileSystem.Fits path key.fileName)
    (hfree : m.fs.tree.get? (location.child key.fileName) = none) (hne : blob ≠ [])
    (hfits : blob.length ≤ budget.toNat) (hspares : Faults.Spares write cache.digest blob) :
    (set (Machine.writing (Machine.tearing write)) cache key blob m).1 =
        .stored (blob.length + cache.digest.size) ∧
      (set (Machine.writing (Machine.tearing write)) cache key blob m).2.fs.Carries
        (location.child key.fileName) (Entry.encode cache.digest blob) := by
  obtain ⟨size, roomy, hroom, hfs, hwf', hlead'⟩ := makeRoom_leaves hwf hlead budget.toNat
    (blob.length + cache.digest.size)
  have hvacant : roomy.fs.tree.get? (location.child key.fileName) = none := by
    rw [hfs, FileSystem.get?_without, hfree, ite_self]
  rw [set_torn hstate hname hne hfits, hroom, addEntry_torn hwf' hlead' hname hne hfit hvacant,
    Faults.torn_eq_none_iff.mpr hspares]
  exact ⟨rfl, roomy.fs.carries_storing _ _⟩

/-- What is left of a blob that was to be stored and could not be written: nothing. `roomy` is the
machine once room had been made. -/
structure Forgoes (cache : Cache) (path : Path) (location : Location) (key : Key) (blob : Bytes)
    (roomy m' : Machine) : Prop where
  /-- The path still leads to the directory. -/
  leads : m'.fs.Leads path location
  /-- The name stands for nothing. -/
  vacant : m'.fs.tree.get? (location.child key.fileName) = none
  /-- Every other name stands for what it stood for. -/
  tree_eq : m'.fs.tree = roomy.fs.tree
  /-- No handle is left open. -/
  handles_eq : m'.fs.handles = roomy.fs.handles
  /-- A look-up misses. -/
  misses : ∀ write, (get (Machine.faultyHost (.ofWrites write)) cache key m').1 = none
  /-- The blob is stored by the next `set` that is not kept from writing, even if it comes some calm
  steps later, as long as nothing else has taken the name. -/
  recovers : ∀ write, Faults.Spares write cache.digest blob →
    ∀ later, m'.Calm cache.digest location later →
      later.fs.tree.get? (location.child key.fileName) = none →
      (set (Machine.faultyHost (.ofWrites write)) cache key blob later).1 =
          .stored (blob.length + cache.digest.size) ∧
        (set (Machine.faultyHost (.ofWrites write)) cache key blob later).2.fs.Carries
          (location.child key.fileName) (Entry.encode cache.digest blob)

/-- Where a new file has been removed again nothing is left. -/
theorem forgoes_of_withdrawn (hstate : cache.state = .enabled path budget)
    {roomy : Machine} (hwf : roomy.fs.WellFormed) (hlead : roomy.fs.Leads path location)
    (hname : key.IsName) (hfit : FileSystem.Fits path key.fileName)
    (hfree : roomy.fs.tree.get? (location.child key.fileName) = none) (hne : blob ≠ [])
    (hfits : blob.length ≤ budget.toNat) (part : Bytes) (event : Event) :
    cache.Forgoes path location key blob roomy
      ((roomy.withFiles ((roomy.fs.storing (location.child key.fileName) part).unbind
        (location.child key.fileName))).noting event) := by
  have hdir : cache.state.directory? = some path := by rw [hstate]; rfl
  have hcalm := (Machine.Calm.withdrawn cache.digest location hfree part).trans hwf
    (.noting _ _ _ event)
  have hwf' := hcalm.wellFormed hwf
  have hlead' := hcalm.leads hlead
  have hunbound := @FileSystem.unbind_storing _ _ part hfree
  constructor
  case leads => exact hlead'
  case vacant => rw [Machine.fs_noting, Machine.fs_withFiles, hunbound, hfree]
  case tree_eq => rw [Machine.fs_noting, Machine.fs_withFiles, hunbound]
  case handles_eq => rw [Machine.fs_noting, Machine.fs_withFiles, hunbound]
  case misses =>
    intro write
    rw [Machine.faultyHost_ofWrites]
    refine get_of_vacant hwf' hdir hlead' hname ?_
    rw [Machine.fs_noting, Machine.fs_withFiles, hunbound, hfree]
  case recovers =>
    intro write hspares later hlater hvacant
    rw [Machine.faultyHost_ofWrites]
    exact set_spared hstate (hlater.wellFormed hwf') (hlater.leads hlead') hname hfit hvacant hne
      hfits hspares

/-- A blob that is stored is in its file as a whole, with its checksum behind it. -/
theorem carries_of_stored (hstate : cache.state = .enabled path budget) (hpath : path ≠ [])
    (hwf : m.fs.WellFormed) (hkey : key = .empty ∨ key.IsName) {stored : Nat}
    (h : (set (Machine.writing (Machine.tearing write)) cache key blob m).1 = .stored stored) :
    stored = blob.length + cache.digest.size ∧ Faults.Spares write cache.digest blob ∧
      ∃ location,
        (set (Machine.writing (Machine.tearing write)) cache key blob m).2.fs.Leads path location ∧
        (set (Machine.writing (Machine.tearing write)) cache key blob m).2.fs.Carries
          (location.child key.fileName) (Entry.encode cache.digest blob) := by
  rcases set_writing_cases (Machine.tearing write) cache key blob m with
    ⟨reason, m', heq, -⟩ | ⟨path', budget', hstate', hnonempty, hne, -, heq⟩
  · rw [heq] at h
    cases h
  rw [hstate] at hstate'
  cases hstate'
  have hname : key.IsName := hkey.resolve_left fun e => by rw [e] at hnonempty; cases hnonempty
  rw [heq] at h ⊢
  rcases hroom : makeRoom Machine.host path budget.toNat (blob.length + cache.digest.size) m with
    ⟨size, roomy⟩
  rw [hroom] at h
  obtain ⟨handle, hmade⟩ := addEntry_stored (Machine.tearing write) h
  obtain ⟨location, -, hwf', hlead', hfit, hfree, -⟩ :=
    created_after_makeRoom hwf hpath hname _ _ hroom hmade
  rw [addEntry_torn hwf' hlead' hname hne hfit hfree] at h ⊢
  rcases htorn : Faults.torn write cache.digest (entryPath path key) blob with _ | ⟨part, error⟩
  · rw [htorn] at h
    refine ⟨(SetOutcome.stored.inj h).symm, Faults.torn_eq_none_iff.mp htorn, location, ?_, ?_⟩
    · exact hlead'.storing hfree _
    · exact roomy.fs.carries_storing _ _
  · rw [htorn] at h
    cases h

/-- A blob that is stored is in its file as a whole, with its checksum behind it. If an entry can be
created for it but not written as a whole, whichever of the two writes fails and after however many
bytes, or because a checksum without bytes cannot be written, the outcome says so and nothing is
left. -/
theorem lost_writes (hstate : cache.state = .enabled path budget) (hpath : path ≠ [])
    (hwf : m.fs.WellFormed) (hkey : key = .empty ∨ key.IsName) (blob : Bytes)
    (write : Nat → Option Nat) :
    let host := Machine.faultyHost (.ofWrites write)
    let roomy := (makeRoom host path budget.toNat (blob.length + cache.digest.size) m).2
    (∀ stored, (set host cache key blob m).1 = .stored stored →
      stored = blob.length + cache.digest.size ∧ Faults.Spares write cache.digest blob ∧
        ∃ location, (set host cache key blob m).2.fs.Leads path location ∧
          (set host cache key blob m).2.fs.Carries (location.child key.fileName)
            (Entry.encode cache.digest blob)) ∧
    (key.IsName → blob ≠ [] → blob.length ≤ budget.toNat →
      (∃ handle, (host.create (entryPath path key) roomy).1 = .ok handle) →
      ¬Faults.Spares write cache.digest blob →
        (set host cache key blob m).1 = .failed ∧
          (set host cache key blob m).2.fs.handles = m.fs.handles ∧
          (∀ id, m.fs.next ≤ id → (set host cache key blob m).2.fs.locksOn id = []) ∧
          ∃ location, m.fs.Leads path location ∧
            cache.Forgoes path location key blob roomy (set host cache key blob m).2) := by
  intro host roomy
  have hhost : host = Machine.writing (Machine.tearing write) := Machine.faultyHost_ofWrites write
  have hroomy : roomy =
      (makeRoom Machine.host path budget.toNat (blob.length + cache.digest.size) m).2 := by
    show (makeRoom host _ _ _ m).2 = _
    rw [hhost, makeRoom_writing]
  rw [hroomy, hhost]
  refine ⟨fun stored h => carries_of_stored hstate hpath hwf hkey h, ?_⟩
  rintro hname hne hfits ⟨handle, hmade⟩ hspares
  rw [set_torn hstate hname hne hfits]
  rcases hroom : makeRoom Machine.host path budget.toNat (blob.length + cache.digest.size) m with
    ⟨size, roomed⟩
  rw [hroom] at hmade
  obtain ⟨location, hlead, hwf', hlead', hfit, hfree, hhandles⟩ :=
    created_after_makeRoom hwf hpath hname _ _ hroom hmade
  obtain ⟨⟨part, error⟩, htorn⟩ : ∃ torn,
      Faults.torn write cache.digest (entryPath path key) blob = some torn :=
    Option.ne_none_iff_exists'.mp fun e => hspares (Faults.torn_eq_none_iff.mp e)
  rw [addEntry_torn hwf' hlead' hname hne hfit hfree, htorn]
  have hforgoes := forgoes_of_withdrawn hstate hwf' hlead' hname hfit hfree hne hfits part
    (.notWritten key error)
  refine ⟨rfl, hforgoes.handles_eq.trans hhandles, fun id hid => ?_, location, hlead, hforgoes⟩
  refine List.eq_nil_iff_forall_not_mem.mpr fun lock hlock => ?_
  -- a lock is held by a handle that was open before, and that is on a file that was there before
  obtain ⟨other, file, hget, rfl, -⟩ := FileSystem.mem_locksOn.mp hlock
  rw [hforgoes.handles_eq, hhandles] at hget
  exact absurd (hwf.open_lt other file hget) (Nat.not_lt.mpr hid)

/-- Beside another entry, two bytes of the checksum of a blob are written and then no more. Nothing
is left of the blob, and the next time it is stored. -/
theorem lost_writes_in_checksum :
    let cache : Cache := ⟨.enabled Path.dot 100, .weightedSum, 0⟩
    let place := (Location.top.child [0x77]).child (Key.fileName ⟨"a"⟩)
    let m := (Session.finish (.start [0x77])
      [.openCache "c" (.config ⟨some Path.dot, 100⟩) .weightedSum none .none,
        .onCache "c" (.set (.text "b") [9])]).machine
    let torn := set (Machine.faultyHost (.ofWrites fun i => if i = 1 then some 2 else none)) cache
      ⟨"a"⟩ [1, 2, 3] m
    let again := set (Machine.faultyHost (.ofWrites fun _ => none)) cache ⟨"a"⟩ [1, 2, 3] torn.2
    torn.1 = .failed ∧ torn.2.fs.tree.get? place = none ∧
      (∀ id, m.fs.next ≤ id → torn.2.fs.locksOn id = []) ∧
      again.1 = .stored 7 ∧
      again.2.fs.Carries place (Entry.encode cache.digest [1, 2, 3]) := by
  intro cache place m
  have hwf : m.fs.WellFormed := (Session.orderly_finish (.start _) _).wellFormed
  have ha : Key.IsName ⟨"a"⟩ := by decide +kernel
  have hlead : m.fs.Leads Path.dot (Location.top.child [0x77]) := by decide +kernel
  have hstate : cache.state = .enabled Path.dot 100 := rfl
  obtain ⟨hfailed, -, hunlocked, location, hlead', hforgoes⟩ :=
    (lost_writes hstate (by decide) hwf (Or.inr ha) [1, 2, 3]
      fun i => if i = 1 then some 2 else none).2 ha (by decide) (by decide +kernel)
      ⟨m.fs.next + 1, by decide +kernel⟩ fun hspares => nomatch hspares.second
  cases hlead.symm.trans hlead'
  obtain ⟨hagain, hcarries⟩ := hforgoes.recovers (fun _ => none)
    ⟨rfl, rfl, by decide +kernel⟩ _ (.refl _ _ _) hforgoes.vacant
  exact ⟨hfailed, hforgoes.vacant, hunlocked, hagain, hcarries⟩

end lost

end Cache

end BlobCache
