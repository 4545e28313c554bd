import BlobCache.Proofs.Disabled
import BlobCache.Proofs.Recency

/-!
# Trimming and clearing settle at once

What is left when a cache was trimmed or cleared gives a second call nothing to do.

* `FileSystem.barred`: the entries of a directory that cannot be evicted, because their file has
  another name, or somebody has locked it, or their path is too long.
* `FileSystem.evictables_without_front`: once the first of the evictable entries have gone, the
  others are still evictable, and nothing else has become so. An eviction in two parts therefore
  takes what one would (`FileSystem.without_append`).
* `Cache.settles_at_once`: a trimmed cache is within its budget or has only barred entries left, a
  cleared one has just the barred entries, and further calls change nothing.

Clearing is an eviction of as many bytes as a word can count. It takes everything as long as there
are fewer; beyond that entries that could be evicted may remain (`Cache.clear_leaves_free_entries`).
-/

namespace BlobCache

namespace FileSystem

variable {fs : FileSystem} {path : Path} {location : Location} {gone rest : List Entry}
  {entry : Entry}

/-! ## What cannot be evicted -/

/-- The entries of a directory that cannot be evicted by this path, in the order of use. -/
def barred (fs : FileSystem) (path : Path) (location : Location) : List Entry :=
  (Entry.inOrder (fs.entriesIn location)).filter fun entry =>
    match fs.tree.get? (placeOf location entry) with
    | some (.file id) => 1 < fs.linkCount (.file id) ∨ fs.locksOn id ≠ [] ∨
        pathLimit ≤ (Path.join path (Path.ofText entry.name)).length
    | _ => false

/-- What is barred is what cannot be evicted. -/
theorem mem_barred :
    entry ∈ fs.barred path location ↔
      entry ∈ fs.entriesIn location ∧ entry ∉ fs.evictables path location := by
  unfold barred
  rw [List.mem_filter, Entry.mem_inOrder]
  refine and_congr_right fun hentry => ?_
  obtain ⟨id, hget, hunder⟩ := mem_entriesIn.mp hentry
  have hplace : fs.tree.get? (placeOf location entry) = some (.file id) := hget
  have hnamed : 1 ≤ fs.linkCount (.file id) := one_le_linkCount hplace
  rw [hplace, decide_eq_true_eq, mem_evictables]
  constructor
  · rintro hbarred ⟨other, hother, -, hsingle, hfree, hshort⟩
    cases hplace.symm.trans hother
    rcases hbarred with hlinks | hlocked | hlong
    · omega
    · exact hlocked hfree
    · omega
  · intro hnot
    by_contra hfree
    simp only [not_or, Nat.not_lt, ne_eq, not_not, Nat.not_le] at hfree
    exact hnot ⟨id, hget, hunder, Nat.le_antisymm hfree.1 hnamed, hfree.2.1, hfree.2.2⟩

/-- Barred entries are in the order in which all entries are. -/
theorem barred_sublist (fs : FileSystem) (path : Path) (location : Location) :
    (fs.barred path location).Sublist (Entry.inOrder (fs.entriesIn location)) := List.filter_sublist

/-- Where nothing can be evicted, all entries are barred. -/
theorem barred_of_evictables_nil (h : fs.evictables path location = []) :
    fs.barred path location = Entry.inOrder (fs.entriesIn location) := by
  have hdistinct := Entry.pairwise_inOrder (fs.pairwise_entriesIn location)
  have hsorted := Entry.sorted_inOrder (fs.entriesIn location)
  have hsub := fs.barred_sublist path location
  refine Entry.eq_of_mem_iff (hdistinct.sublist hsub) hdistinct (hsorted.sublist hsub) hsorted
    fun entry => ?_
  rw [mem_barred, Entry.mem_inOrder, h]
  simp

/-- Once everything that could be evicted has gone, just the barred entries are left. -/
theorem inOrder_without_evictables :
    Entry.inOrder ((fs.without location (fs.evictables path location)).entriesIn location) =
      fs.barred path location := by
  have hdistinct := Entry.pairwise_inOrder (fs.pairwise_entriesIn location)
  have hsorted := Entry.sorted_inOrder (fs.entriesIn location)
  have hsub := fs.barred_sublist path location
  refine Entry.eq_of_mem_iff (Entry.pairwise_inOrder (pairwise_entriesIn _ _))
    (hdistinct.sublist hsub) (Entry.sorted_inOrder _) (hsorted.sublist hsub) fun entry => ?_
  rw [Entry.mem_inOrder, mem_barred,
    mem_entriesIn_without fun _ hmem => mem_entriesIn_of_mem_evictables hmem]

/-! ## Evicting in two parts -/

/-- Entries that go one list after the other go as one list. -/
theorem without_append (fs : FileSystem) (location : Location) (gone rest : List Entry) :
    (fs.without location gone).without location rest = fs.without location (gone ++ rest) := by
  induction gone generalizing fs with
  | nil => rw [without_nil, List.nil_append]
  | cons entry gone ih => rw [without_cons, ih, List.cons_append, without_cons]

/-- Once the first of the evictable entries have gone, the others can be evicted. -/
theorem evictables_without_front (h : fs.evictables path location = gone ++ rest) :
    (fs.without location gone).evictables path location = rest := by
  have hsorted := fs.sorted_evictables path location
  rw [h] at hsorted
  have hrest := (List.pairwise_append.mp hsorted).2.1
  have hafter := (fs.without location gone).sorted_evictables path location
  refine Entry.eq_of_mem_iff (hafter.imp And.right) (hrest.imp And.right) (hafter.imp And.left)
    (hrest.imp And.left) fun entry => ?_
  rw [mem_evictables_without fun _ hmem => h ▸ List.mem_append_left _ hmem, h, List.mem_append]
  constructor
  · rintro ⟨hmem, hkept⟩
    exact hmem.resolve_left hkept
  · intro hmem
    refine ⟨Or.inr hmem, fun hgone => ?_⟩
    exact ((List.pairwise_append.mp hsorted).2.2 entry hgone entry hmem).2 rfl

/-- Once all that can be evicted has gone nothing can be. -/
theorem evictables_without_evictables :
    (fs.without location (fs.evictables path location)).evictables path location = [] :=
  evictables_without_front (List.append_nil _).symm

end FileSystem

namespace Cache

variable {location : Location} {path : Path} {m : Machine} {cache : Cache} {budget : UInt64}

/-- The entries of a cache that cannot be evicted, in the order of use. -/
def barred (cache : Cache) (fs : FileSystem) : List Entry :=
  match cache.state.directory? with
  | none => []
  | some path =>
    match fs.nodeAt path with
    | .ok (location, .directory) => fs.barred path location
    | _ => []

/-- Clearing asks for something. -/
theorem everything_pos : 0 < everything := by decide

/-- No eviction frees more than the evictable entries take. -/
theorem evict_le_evictables (hwf : m.fs.WellFormed) (hlead : m.fs.Leads path location)
    (needed : Nat) :
    (evict Machine.host path needed m).1 ≤ Entry.totalSize (m.fs.evictables path location) := by
  rw [(evict_eq_victims hwf hlead needed).1, FileSystem.candidates_eq_evictables hwf hlead]
  obtain ⟨rest, hparts⟩ := Entry.victims_front needed (m.fs.evictables path location)
  rw [← hparts, Entry.totalSize_append, hparts]
  exact Nat.le_add_right _ _

/-! ## A cache with a directory -/

section leads

variable (hstate : cache.state = .enabled path budget)

include hstate

/-- What is barred in a cache is what is barred in its directory. -/
theorem barred_of_leads (hlead : m.fs.Leads path location) :
    cache.barred m.fs = m.fs.barred path location := by
  unfold barred
  simp only [hstate, CacheState.directory?, show m.fs.nodeAt path = .ok (location, .directory) from
    hlead]

/-- To clear is to evict as much as can be counted. -/
theorem clear_eq_evict : clear Machine.host cache = evict Machine.host path everything := by
  unfold clear
  simp only [hstate, CacheState.directory?]

/-- Clearing takes everything that can be evicted, if it does not come to the end of what it can
count. -/
theorem clear_eq_without (hwf : m.fs.WellFormed) (hlead : m.fs.Leads path location)
    (hcounted : (clear Machine.host cache m).1 < everything) :
    (clear Machine.host cache m).1 = Entry.totalSize (m.fs.evictables path location) ∧
      (clear Machine.host cache m).2.fs =
        m.fs.without location (m.fs.evictables path location) := by
  rw [clear_eq_evict hstate] at hcounted ⊢
  obtain ⟨gone, hfront, hfreed, hfs⟩ :=
    evict_eq_without hwf hlead everything_pos
  have hall : gone = m.fs.evictables path location := hfront.enough.resolve_left (by omega)
  exact hall ▸ ⟨hfreed, hfs⟩

/-- Where nothing can be evicted, neither trimming nor clearing does anything. -/
theorem still_of_evictables_nil (hwf : m.fs.WellFormed) (hlead : m.fs.Leads path location)
    (hnone : m.fs.evictables path location = []) :
    ((trim Machine.host cache m).1 = 0 ∧ (trim Machine.host cache m).2.fs = m.fs) ∧
      (clear Machine.host cache m).1 = 0 ∧ (clear Machine.host cache m).2.fs = m.fs := by
  constructor
  · obtain ⟨gone, hfront, hfreed, hfs⟩ := trim_eq_without hstate hwf hlead
    have hnil : gone = [] := List.prefix_nil.mp (hnone ▸ hfront.isFront)
    rw [hfreed, hfs, hnil]
    exact ⟨rfl, FileSystem.without_nil _ _⟩
  · obtain ⟨gone, hfront, hfreed, hfs⟩ :=
      evict_eq_without hwf hlead everything_pos
    have hnil : gone = [] := List.prefix_nil.mp (hnone ▸ hfront.isFront)
    rw [clear_eq_evict hstate, hfreed, hfs, hnil]
    exact ⟨rfl, FileSystem.without_nil _ _⟩

/-- Nothing is trimmed within the budget. -/
theorem trim_of_size_le (hlead : m.fs.Leads path location)
    (hfits : (size Machine.host cache m).1 ≤ budget.toNat) :
    (trim Machine.host cache m).1 = 0 ∧ (trim Machine.host cache m).2.fs = m.fs := by
  have htotal : Entry.totalSize (m.fs.entriesIn location) = m.fs.totalIn location := rfl
  rw [size_eq hstate hlead] at hfits
  unfold trim
  simp only [hstate, CacheState.directory?, CacheState.budget, Machine.run_bind, sizeOf_eq hlead,
    htotal, if_pos hfits]
  exact ⟨rfl, rfl⟩

end leads

/-! ## A cache without a directory -/

/-- Where no path leads to a directory, there is nothing to trim, to clear or to list. -/
theorem still_of_not_leads
    (hnot : ∀ path, cache.state.directory? = some path → ¬∃ location, m.fs.Leads path location) :
    ((trim Machine.host cache m).1 = 0 ∧ (trim Machine.host cache m).2.fs = m.fs) ∧
      ((clear Machine.host cache m).1 = 0 ∧ (clear Machine.host cache m).2.fs = m.fs) ∧
      (size Machine.host cache m).1 = 0 ∧ (entries Machine.host cache m).1 = [] ∧
      cache.barred m.fs = [] := by
  rcases hdir : cache.state.directory? with _ | path
  · unfold trim clear size entries barred
    simp only [hdir, Machine.run_pure, and_self]
  · have hnot' := hnot path hdir
    obtain ⟨error, hsize⟩ := sizeOf_of_not_leads hnot'
    obtain ⟨error', hentries⟩ := entriesOf_of_not_leads hnot'
    have hbarred : cache.barred m.fs = [] := by
      unfold barred
      simp only [hdir]
      rcases hnode : m.fs.nodeAt path with cause | ⟨location, _ | _ | _⟩
      · rfl
      · exact absurd ⟨location, hnode⟩ hnot'
      · rfl
      · rfl
    unfold trim clear size entries evict
    simp only [hdir, Machine.run_bind, hsize, hentries]
    exact ⟨⟨rfl, rfl⟩, ⟨rfl, rfl⟩, trivial, trivial, hbarred⟩

/-! ## The law of settling -/

/-- One call of an operation that makes room does all that further calls could. -/
structure Settles (cache : Cache) (m : Machine) : Prop where
  /-- A trimmed cache is within its budget, or nothing that is left can be evicted. -/
  trimmed : (size Machine.host cache (trim Machine.host cache m).2).1 ≤ cache.state.budget.toNat ∨
    (entries Machine.host cache (trim Machine.host cache m).2).1 =
      cache.barred (trim Machine.host cache m).2.fs
  /-- Trimming once more frees nothing and changes nothing. -/
  trim_trim : (trim Machine.host cache (trim Machine.host cache m).2).1 = 0 ∧
    (trim Machine.host cache (trim Machine.host cache m).2).2.fs =
      (trim Machine.host cache m).2.fs
  /-- Of a cleared cache just the entries are left that could not be evicted. -/
  cleared : (clear Machine.host cache m).1 < everything →
    (entries Machine.host cache (clear Machine.host cache m).2).1 = cache.barred m.fs
  /-- Clearing once more frees nothing and changes nothing. -/
  clear_clear : (clear Machine.host cache m).1 < everything →
    (clear Machine.host cache (clear Machine.host cache m).2).1 = 0 ∧
      (clear Machine.host cache (clear Machine.host cache m).2).2.fs =
        (clear Machine.host cache m).2.fs
  /-- Nor does trimming a cleared cache. -/
  trim_clear : (clear Machine.host cache m).1 < everything →
    (trim Machine.host cache (clear Machine.host cache m).2).1 = 0 ∧
      (trim Machine.host cache (clear Machine.host cache m).2).2.fs =
        (clear Machine.host cache m).2.fs
  /-- Clearing a trimmed cache leaves what clearing it at once does. -/
  clear_trim : (clear Machine.host cache m).1 < everything →
    (clear Machine.host cache (trim Machine.host cache m).2).2.fs =
      (clear Machine.host cache m).2.fs
  /-- As long as sizes are words, all of this can be counted in words. -/
  words : cache.CountsInWords Machine.host m

/-- A cache whose directory is there settles at once. -/
theorem settles_of_leads (hstate : cache.state = .enabled path budget) (hwf : m.fs.WellFormed)
    (hlead : m.fs.Leads path location) : cache.Settles m := by
  have hdir : cache.state.directory? = some path := by rw [hstate]; rfl
  -- what was trimmed went from the front, and the rest is what is over
  obtain ⟨gone, hfront, htrimmed, htrim⟩ := trim_eq_without hstate hwf hlead
  obtain ⟨rest, hparts⟩ := hfront.isFront
  have hlisted := FileSystem.mem_entriesIn_of_front hfront
  have hwf' : (trim Machine.host cache m).2.fs.WellFormed := htrim ▸ hwf.without location gone
  have hlead' : (trim Machine.host cache m).2.fs.Leads path location :=
    htrim ▸ hlead.without hlisted
  have hrest : (trim Machine.host cache m).2.fs.evictables path location = rest :=
    htrim ▸ FileSystem.evictables_without_front hparts.symm
  -- what was cleared is everything
  have hnone : (clear Machine.host cache m).1 < everything →
      (clear Machine.host cache m).2.fs.WellFormed ∧
        (clear Machine.host cache m).2.fs.Leads path location ∧
        (clear Machine.host cache m).2.fs.evictables path location = [] := by
    intro hcounted
    rw [(clear_eq_without hstate hwf hlead hcounted).2]
    exact ⟨hwf.without location _,
      hlead.without fun _ hmem => FileSystem.mem_entriesIn_of_mem_evictables hmem,
      FileSystem.evictables_without_evictables⟩
  constructor
  case trimmed =>
    rcases Nat.lt_or_ge budget.toNat
      (size Machine.host cache (trim Machine.host cache m).2).1 with hover | hfits
    · have hnil := evictables_of_trimmed hstate hwf hlead hover
      right
      rw [entries_of_leads hdir hlead', barred_of_leads hstate hlead',
        FileSystem.barred_of_evictables_nil hnil]
    · rw [hstate]
      exact Or.inl hfits
  case trim_trim =>
    rcases Nat.lt_or_ge budget.toNat
      (size Machine.host cache (trim Machine.host cache m).2).1 with hover | hfits
    · have hnil := evictables_of_trimmed hstate hwf hlead hover
      exact (still_of_evictables_nil hstate hwf' hlead' hnil).1
    · exact trim_of_size_le hstate hlead' hfits
  case cleared =>
    intro hcounted
    rw [entries_of_leads hdir (hnone hcounted).2.1, barred_of_leads hstate hlead,
      (clear_eq_without hstate hwf hlead hcounted).2]
    exact FileSystem.inOrder_without_evictables
  case clear_clear =>
    intro hcounted
    obtain ⟨hwf'', hlead'', hnil⟩ := hnone hcounted
    exact (still_of_evictables_nil hstate hwf'' hlead'' hnil).2
  case trim_clear =>
    intro hcounted
    obtain ⟨hwf'', hlead'', hnil⟩ := hnone hcounted
    exact (still_of_evictables_nil hstate hwf'' hlead'' hnil).1
  case clear_trim =>
    intro hcounted
    obtain ⟨hfreed, hclear⟩ := clear_eq_without hstate hwf hlead hcounted
    have hsum : Entry.totalSize gone + Entry.totalSize rest =
        Entry.totalSize (m.fs.evictables path location) := by
      rw [← hparts, Entry.totalSize_append]
    -- the rest of them takes less than all of them, so it is counted as well
    have hcounted' : (clear Machine.host cache (trim Machine.host cache m).2).1 < everything := by
      have hle := evict_le_evictables hwf' hlead' everything
      rw [hrest] at hle
      rw [clear_eq_evict hstate]
      omega
    rw [(clear_eq_without hstate hwf' hlead' hcounted').2, hrest, htrim,
      FileSystem.without_append, hparts, hclear]
  case words => exact host_countsInWords cache hwf

/-- So does one that has no directory, or whose directory is not there. -/
theorem settles_of_not_leads (hwf : m.fs.WellFormed)
    (hnot : ∀ path, cache.state.directory? = some path → ¬∃ location, m.fs.Leads path location) :
    cache.Settles m := by
  obtain ⟨⟨-, htrim⟩, ⟨-, hclear⟩, -, -, hbarred⟩ := still_of_not_leads hnot
  have htrimmed := still_of_not_leads (htrim.symm ▸ hnot)
  have hcleared := still_of_not_leads (hclear.symm ▸ hnot)
  constructor
  case trimmed => exact Or.inl (htrimmed.2.2.1 ▸ Nat.zero_le _)
  case trim_trim => exact htrimmed.1
  case cleared => exact fun _ => hcleared.2.2.2.1.trans hbarred.symm
  case clear_clear => exact fun _ => hcleared.2.1
  case trim_clear => exact fun _ => hcleared.1
  case clear_trim => exact fun _ => htrimmed.2.1.2.trans (htrim.trans hclear.symm)
  case words => exact host_countsInWords cache hwf

/-- Trimming and clearing settle at once, whatever is in the directory and whoever holds it, and
also where there is no directory. -/
theorem settles_at_once (cache : Cache) (hwf : m.fs.WellFormed) : cache.Settles m := by
  by_cases hlead : ∃ path, cache.state.directory? = some path ∧ ∃ location, m.fs.Leads path location
  · obtain ⟨path, hdir, location, hlead⟩ := hlead
    rcases hstate : cache.state with _ | ⟨directory, budget⟩
    · rw [hstate] at hdir
      cases hdir
    · rw [hstate] at hdir
      cases hdir
      exact settles_of_leads hstate hwf hlead
  · apply settles_of_not_leads hwf
    intro path hdir hleads
    exact hlead ⟨path, hdir, hleads⟩

/-- Of five files, one is read, one has a second name and one is empty. A cache with a budget of six
bytes is trimmed and cleared. -/
theorem settles_around_entries_in_use :
    let cache : Cache := ⟨.enabled Path.dot 6, .weightedSum, 0⟩
    let here := Location.top.child [0x77]
    let session := Session.finish (.start [0x77])
      [.openCache "c" (.config ⟨some Path.dot, 100⟩) .weightedSum none .none,
        .onCache "c" (.set (.text "a") [1]), .onCache "c" (.set (.text "b") [1, 2]),
        .meddle (.addName (Path.ofText "b2") (Path.ofText "b")),
        .meddle (.write (Path.ofText "e") [] none),
        .onCache "c" (.set (.text "k") [1, 2, 3]), .onCache "c" (.get (.text "k") (some "held"))]
    session.machine.fs.WellFormed ∧ cache.Settles session.machine ∧
      (session.machine.fs.entriesIn here).length = 5 ∧
      (clear Machine.host cache session.machine).1 = 5 ∧
      ((entries Machine.host cache (clear Machine.host cache session.machine).2).1.map
        (·.name)) = ["b", "b2", "k"] := by
  intro cache here session
  have horderly : session.Orderly := Session.orderly_finish (.start _) _
  have hwf := horderly.wellFormed
  have hlead : session.machine.fs.Leads Path.dot here := by decide +kernel
  have hlaw := settles_at_once cache hwf
  let listed : List Entry :=
    [⟨"a", 5, 1000001000000000⟩, ⟨"b", 6, 1000002000000000⟩, ⟨"b2", 6, 1000002000000000⟩,
      ⟨"e", 0, 1000004000000000⟩, ⟨"k", 7, 1000006000000000⟩]
  have hlisted : session.machine.fs.entriesIn here = listed := by decide +kernel
  have hsorted : Entry.inOrder listed = listed := List.mergeSort_of_pairwise (by decide +kernel)
  have hcleared : (clear Machine.host cache session.machine).1 = 5 := by
    rw [clear_eq_evict rfl, (evict_eq_victims hwf hlead everything).1,
      FileSystem.candidates_eq_evictables hwf hlead, FileSystem.evictables, FileSystem.unheld,
      hlisted, hsorted]
    decide +kernel
  have hbarred : (cache.barred session.machine.fs).map (·.name) = ["b", "b2", "k"] := by
    rw [barred_of_leads rfl hlead, FileSystem.barred, hlisted, hsorted]
    decide +kernel
  refine ⟨hwf, hlaw, by rw [hlisted]; rfl, hcleared, ?_⟩
  rw [hlaw.cleared (by rw [hcleared]; decide), hbarred]

/-- A file of this content in an empty directory, and after it an empty one. -/
def crowded (content : Bytes) : FileSystem :=
  let here := Location.top.child [0x77]
  ((FileSystem.initial [0x77]).storing (here.child (Path.ofText "a")) content).storing
    (here.child (Path.ofText "b")) []

/-- It is not so that clearing leaves only what has a second name or is locked. By a path that is as
long as a path may be nothing can be reached. And by any path, once more bytes are free than a word
can count, no more is evicted. -/
theorem clear_leaves_free_entries :
    (¬∀ (cache : Cache) (path : Path) (budget : UInt64) (location : Location) (m : Machine),
      cache.state = .enabled path budget → m.fs.WellFormed → m.fs.Leads path location →
      ∀ entry ∈ (entries Machine.host cache (clear Machine.host cache m).2).1,
        entry ∉ m.fs.unheld location) ∧
    ¬∀ (cache : Cache) (path : Path) (budget : UInt64) (location : Location) (m : Machine),
      cache.state = .enabled path budget → m.fs.WellFormed → m.fs.Leads path location →
      ∀ entry ∈ (entries Machine.host cache (clear Machine.host cache m).2).1,
        entry ∉ m.fs.evictables path location := by
  constructor
  · intro h
    let stored := Session.finish (.start [0x77])
      [.openCache "c" (.config ⟨some Path.dot, 100⟩) .weightedSum none .none,
        .onCache "c" (.set (.text "a") [1])]
    have horderly : stored.Orderly := Session.orderly_finish (.start _) _
    have hheld := h ⟨.enabled longPath 100, .weightedSum, 0⟩ longPath 100
      (Location.top.child [0x77]) stored.machine rfl horderly.wellFormed (by decide +kernel)
      ⟨"a", 5, 1000001000000000⟩
    revert hheld
    decide +kernel
  · intro h
    let content : Bytes := List.replicate everything 0
    let here := Location.top.child [0x77]
    let m : Machine := ⟨crowded content, [], 0⟩
    let a : Entry := m.fs.entryUnder "a" 0
    let b : Entry := m.fs.entryUnder "b" 2
    have hwf : m.fs.WellFormed :=
      ((FileSystem.wellFormed_initial [0x77]).storing (by decide) (by decide) content).storing
        (by decide) (by decide) []
    have hlead : m.fs.Leads Path.dot here := by rfl
    have ha : a ∈ m.fs.evictables Path.dot here :=
      FileSystem.mem_evictables.mpr ⟨0, by rfl, rfl, by rfl, by rfl, by decide⟩
    have hb : b ∈ m.fs.evictables Path.dot here :=
      FileSystem.mem_evictables.mpr ⟨2, by rfl, rfl, by rfl, by rfl, by decide⟩
    have hlarge : everything ≤ a.size := Nat.le_of_eq List.length_replicate.symm
    have hbefore : a.before b = true := Entry.before_iff.mpr (Or.inr ⟨by rfl, by decide⟩)
    obtain ⟨gone, hfront, -, hfs⟩ := evict_eq_without hwf hlead everything_pos
    have hlisted := FileSystem.mem_entriesIn_of_front hfront
    have hkept : b ∉ gone := hfront.not_mem_of_before (m.fs.sorted_evictables Path.dot here) ha hb
      hbefore (by decide) hlarge
    have hlead' : (evict Machine.host Path.dot everything m).2.fs.Leads Path.dot here :=
      hfs ▸ hlead.without hlisted
    refine h ⟨.enabled Path.dot 100, .weightedSum, 0⟩ Path.dot 100 here m rfl hwf hlead b ?_ hb
    rw [clear_eq_evict rfl, entries_of_leads rfl hlead', Entry.mem_inOrder, hfs]
    exact (FileSystem.mem_entriesIn_without hlisted).mpr
      ⟨FileSystem.mem_entriesIn_of_mem_evictables hb, hkept⟩

end Cache

end BlobCache
