import BlobCache.Cli.Tool
import BlobCache.Proofs.Recency
import Mathlib.Algebra.GroupWithZero.Nat

/-!
# The order of a scan

A directory is gone through in whatever order the system hands out its files. Everything that the
cache says and does depends on a scan through the sorted list of the entries or through the sum of
their sizes, and both are the same for any two orders.

* `Host.withList`: a host that lists directories in another way. `Listing.Reordered` says when two
  listings tell of the same files, and `Reordered` when two ways to list always do.
* `Cache.set_withList`, `Cache.trim_withList` and the like: operations on hosts that list in
  different orders are one and the same program, in any monad.
* `Machine.ScanOrder`: an order in which the files of the machine are visited. It may be another one
  for every scan.
* `Cache.scan_order_irrelevant`: operations do not depend on it, entries are listed in the order of
  use and each of them once, and the tool shows the same entries and the same size.
-/

namespace BlobCache

/-! ## Ways to list a directory -/

/-- Two listings tell of the same files, each once, and broke off for the same reason. -/
structure Listing.Reordered (a b : Listing) : Prop where
  /-- The same files are in both. -/
  perm : a.entries.Perm b.entries
  /-- No file is listed twice. -/
  distinct : a.entries.Pairwise fun x y => x.name ≠ y.name
  /-- They end in the same way. -/
  error_eq : a.error = b.error

section hosts

variable {m : Type → Type} {φ : Type}

/-- The host with another way to list directories. -/
def Host.withList (host : Host m φ) (list : Path → m Listing) : Host m φ :=
  { host with list := list }

variable [Monad m]

/-- Two ways to list look once, at the same time, and tell of the same files in some order. -/
def Reordered (list list' : Path → m Listing) : Prop :=
  ∀ path, ∃ look : m { both : Listing × Listing // both.1.Reordered both.2 },
    list path = (fun both => both.1.1) <$> look ∧ list' path = (fun both => both.1.2) <$> look

end hosts

namespace Entry

variable {a b : Entry} {entries other : List Entry}

/-- The same entries with different names are the same when they are in order. -/
theorem inOrder_eq_of_perm (hperm : entries.Perm other)
    (hdistinct : entries.Pairwise fun a b => a.name ≠ b.name) :
    inOrder entries = inOrder other := by
  have hsame : (inOrder entries).Perm (inOrder other) :=
    (perm_inOrder entries).trans (hperm.trans (perm_inOrder other).symm)
  exact eq_of_perm hsame (pairwise_inOrder hdistinct) (sorted_inOrder entries)
    (sorted_inOrder other)

/-- One entry was used before another, or at the same time and its name is the lesser one. -/
def Precedes (a b : Entry) : Prop :=
  a.accessed < b.accessed ∨ a.accessed = b.accessed ∧ Utf8.encode a.name < Utf8.encode b.name

/-- What comes before an entry of another name precedes it. -/
theorem precedes_of_before (hbefore : a.before b = true) (hne : a.name ≠ b.name) :
    a.Precedes b := by
  rcases before_iff.mp hbefore with hlt | ⟨heq, hle⟩
  · exact Or.inl hlt
  · refine Or.inr ⟨heq, ?_⟩
    rcases List.le_iff_lt_or_eq.mp hle with hlt | hsame
    · exact hlt
    · exact absurd (Utf8.encode_injective hsame) hne

/-- Entries take the sum of their sizes. -/
theorem totalSize_eq_sum (entries : List Entry) :
    totalSize entries = (entries.map (·.size)).sum := by
  induction entries with
  | nil => rfl
  | cons entry rest ih => rw [totalSize_cons, ih, List.map_cons, List.sum_cons]

end Entry

namespace Cache

variable {m : Type → Type} [Monad m] {φ : Type} {list list' : Path → m Listing}

/-! ## What does not list -/

section withList

variable (host : Host m φ) (list : Path → m Listing)

/-- To evict entries lists nothing. -/
theorem evictFrom_withList (path : Path) (needed : Nat) (entries : List Entry) (freed : Nat) :
    evictFrom (host.withList list) path needed entries freed =
      evictFrom host path needed entries freed := by
  induction entries generalizing freed with
  | nil => rfl
  | cons entry rest ih =>
      unfold evictFrom
      simp only [ih]
      rfl

/-- To check entries lists nothing. -/
theorem verifyFrom_withList (digest : Digest) (path : Path) (entries : List Entry)
    (found : VerifyReport) :
    verifyFrom (host.withList list) digest path entries found =
      verifyFrom host digest path entries found := by
  induction entries generalizing found with
  | nil => rfl
  | cons entry rest ih =>
      unfold verifyFrom
      simp only [ih]
      rfl

/-- To add an entry lists nothing. -/
theorem addEntry_withList (digest : Digest) (path : Path) (size : Nat) (key : Key) (blob : Bytes) :
    addEntry (host.withList list) digest path size key blob =
      addEntry host digest path size key blob := rfl

/-- To report events lists nothing. -/
theorem reportAll_withList (events : List Event) :
    reportAll (host.withList list) events = reportAll host events := by
  induction events with
  | nil => rfl
  | cons event rest ih =>
      unfold reportAll
      rw [ih]
      rfl

end withList

/-! ## Programs that list -/

section reordered

variable [LawfulMonad m] (host : Host m φ) (hsame : Reordered list list')

include hsame

/-- What is done with a listing without regard to its order is done alike with both. -/
theorem listed_bind_withList (path : Path) {β : Type} {next : List Entry → m β}
    (hnext : ∀ entries other, entries.Perm other →
      (entries.Pairwise fun a b => a.name ≠ b.name) → next entries = next other) :
    listed (host.withList list) path >>= next = listed (host.withList list') path >>= next := by
  obtain ⟨look, hlist, hlist'⟩ := hsame path
  unfold listed
  simp only [Host.withList, hlist, hlist', bind_map_left, bind_assoc]
  congr 1
  funext ⟨⟨first, second⟩, hboth⟩
  have hthen : next first.entries = next second.entries :=
    hnext _ _ hboth.perm hboth.distinct
  have herror : first.error = second.error := hboth.error_eq
  rw [herror]
  cases second.error with
  | none => simp only [pure_bind, hthen]
  | some error => simp only [bind_assoc, pure_bind, hthen]

/-- The size of a directory does not depend on the order of a scan. -/
theorem sizeOf_withList (path : Path) :
    sizeOf (host.withList list) path = sizeOf (host.withList list') path := by
  unfold sizeOf
  refine listed_bind_withList host hsame path fun entries other hperm _ => ?_
  rw [Entry.totalSize_perm hperm]

/-- Nor do its entries. -/
theorem entriesOf_withList (path : Path) :
    entriesOf (host.withList list) path = entriesOf (host.withList list') path := by
  unfold entriesOf
  refine listed_bind_withList host hsame path fun entries other hperm hdistinct => ?_
  rw [Entry.inOrder_eq_of_perm hperm hdistinct]

/-- Nor does an eviction from it. -/
theorem evict_withList (path : Path) (needed : Nat) :
    evict (host.withList list) path needed = evict (host.withList list') path needed := by
  unfold evict
  simp only [evictFrom_withList, entriesOf_withList host hsame]

/-- Nor does the size of a cache. -/
theorem size_withList (cache : Cache) :
    size (host.withList list) cache = size (host.withList list') cache := by
  unfold size
  simp only [sizeOf_withList host hsame]

/-- Nor do its entries. -/
theorem entries_withList (cache : Cache) :
    entries (host.withList list) cache = entries (host.withList list') cache := by
  unfold entries
  simp only [entriesOf_withList host hsame]

/-- Nor does trimming. -/
theorem trim_withList (cache : Cache) :
    trim (host.withList list) cache = trim (host.withList list') cache := by
  unfold trim
  simp only [sizeOf_withList host hsame, evict_withList host hsame]

/-- Nor does clearing. -/
theorem clear_withList (cache : Cache) :
    clear (host.withList list) cache = clear (host.withList list') cache := by
  unfold clear
  simp only [evict_withList host hsame]

/-- Nor does checking. -/
theorem verify_withList (cache : Cache) :
    verify (host.withList list) cache = verify (host.withList list') cache := by
  unfold verify
  simp only [verifyFrom_withList, entriesOf_withList host hsame]

/-- Nor does making room. -/
theorem makeRoom_withList (path : Path) (budget added : Nat) :
    makeRoom (host.withList list) path budget added =
      makeRoom (host.withList list') path budget added := by
  unfold makeRoom
  simp only [sizeOf_withList host hsame, evict_withList host hsame]

/-- Nor does storing a blob. -/
theorem set_withList (cache : Cache) (key : Key) (blob : Bytes) :
    set (host.withList list) cache key blob = set (host.withList list') cache key blob := by
  unfold set
  simp only [makeRoom_withList host hsame, addEntry_withList]
  rfl

end reordered

end Cache

/-! ## The tool -/

namespace Cli

variable {m : Type → Type} [Monad m] {φ : Type} {list list' : Path → m Listing}

/-- The desk with another way to list directories. -/
def Desk.withList (desk : Desk m φ) (list : Path → m Listing) : Desk m φ :=
  { desk with host := desk.host.withList list }

variable (desk : Desk m φ) (globals : Globals) (env : Environment)

/-- To find a configuration lists nothing. -/
theorem withConfig_withList (use : Config → m Report) :
    withConfig (desk.withList list) globals env use = withConfig desk globals env use := by
  unfold withConfig Desk.withList
  simp only [Cache.reportAll_withList]

/-- To open a cache for a command lists nothing. -/
theorem withCache_withList (use : Cache → m Report) :
    withCache (desk.withList list) globals env use = withCache desk globals env use := by
  unfold withCache
  rw [withConfig_withList]
  rfl

variable [LawfulMonad m] (hsame : Reordered list list')

include hsame

/-- What the tool shows of a cache does not depend on the order of a scan. -/
theorem info_withList (json : Bool) :
    info (desk.withList list) globals env json = info (desk.withList list') globals env json := by
  unfold info
  rw [withConfig_withList, withConfig_withList]
  unfold Desk.withList
  simp only [Cache.entries_withList desk.host hsame]
  rfl

/-- Nor does what it lists. -/
theorem list_withList (json : Bool) :
    Cli.list (desk.withList list) globals env json =
      Cli.list (desk.withList list') globals env json := by
  unfold Cli.list
  rw [withCache_withList, withCache_withList]
  unfold Desk.withList
  simp only [Cache.entries_withList desk.host hsame]

end Cli

/-! ## Scans of the machine -/

namespace Machine

/-- An order in which the files of a directory are visited: it may be another one for every state of
the machine, and none is left out. -/
structure ScanOrder where
  /-- The files in the order in which they are visited. -/
  arrange : Machine → Path → List Entry → List Entry
  /-- Every file is visited once. -/
  perm : ∀ m path entries, (arrange m path entries).Perm entries

namespace ScanOrder

/-- What a scan in this order gives. -/
def scan (order : ScanOrder) (m : Machine) (path : Path) : Listing :=
  let listing := m.fs.listEntries path
  { listing with entries := order.arrange m path listing.entries }

/-- The machine as a host that lists directories in this order. -/
def host (order : ScanOrder) : Host (StateM Machine) HandleId :=
  Machine.host.withList fun path m => (order.scan m path, m)

/-- The machine as a place to run the tool, with directories listed in this order. -/
def desk (order : ScanOrder) : Cli.Desk (StateM Machine) HandleId :=
  Machine.desk.withList fun path m => (order.scan m path, m)

/-- A scan gives the entries of the directory in some order. -/
theorem perm_scan (order : ScanOrder) (m : Machine) (path : Path) :
    (order.scan m path).entries.Perm (m.fs.listEntries path).entries := order.perm m path _

/-- The entries that are listed have different names. -/
theorem distinct_listEntries (fs : FileSystem) (path : Path) :
    (fs.listEntries path).entries.Pairwise fun a b => a.name ≠ b.name := by
  by_cases hlead : ∃ location, fs.Leads path location
  · obtain ⟨location, hlead⟩ := hlead
    rw [FileSystem.listEntries_eq hlead]
    exact fs.pairwise_entriesIn location
  · obtain ⟨error, hnone⟩ :=
      Cache.entries_listEntries_of_not_leads (m := ⟨fs, [], 0⟩) hlead
    rw [hnone]
    exact List.Pairwise.nil

/-- Scans of one machine in two orders tell of the same files. -/
theorem reordered_scan (order order' : ScanOrder) (m : Machine) (path : Path) :
    (order.scan m path).Reordered (order'.scan m path) where
  perm := (order.perm_scan m path).trans (order'.perm_scan m path).symm
  distinct := ((order.perm_scan m path).pairwise_iff fun hne => hne.symm).mpr
    (distinct_listEntries m.fs path)
  error_eq := rfl

/-- Scans in two orders are scans of the same files, whatever the path is. -/
theorem reordered (order order' : ScanOrder) :
    Reordered (m := StateM Machine) (fun path m => (order.scan m path, m))
      fun path m => (order'.scan m path, m) := by
  intro path
  refine ⟨fun m => (⟨(order.scan m path, order'.scan m path), reordered_scan order order' m path⟩,
    m), rfl, rfl⟩

/-- What a scan gives to go on with. -/
theorem listed_host (order : ScanOrder) (path : Path) (m : Machine) :
    (Cache.listed order.host path m).1 = (order.scan m path).entries := by
  have hlist : order.host.list path m = (order.scan m path, m) := rfl
  unfold Cache.listed
  rw [run_bind, hlist]
  cases (order.scan m path).error <;> rfl

/-- In whatever order the files are visited, a cache counts in words. -/
theorem countsInWords (order : ScanOrder) (cache : Cache) {m : Machine} (hwf : m.fs.WellFormed) :
    cache.CountsInWords order.host m := by
  -- the machine itself visits the files in some order as well
  let plain : ScanOrder := ⟨fun _ _ entries => entries, fun _ _ entries => .refl entries⟩
  have hplain : plain.host = Machine.host := rfl
  have hsize : ∀ path, Cache.sizeOf order.host path = Cache.sizeOf Machine.host path :=
    fun path => hplain ▸ Cache.sizeOf_withList Machine.host (order.reordered plain) path
  have hevict : ∀ path needed,
      Cache.evict order.host path needed = Cache.evict Machine.host path needed :=
    fun path needed =>
      hplain ▸ Cache.evict_withList Machine.host (order.reordered plain) path needed
  refine Cache.countsInWords_of_evict_le cache (fun path needed => ?_) fun path needed => ?_
  · have hle := Cache.evict_le Faults.truthful_none hwf path needed
    rwa [faultyHost_none, ← hevict, ← hsize] at hle
  · have hle := Cache.evict_sizeOf_le Faults.truthful_none hwf path needed
    rwa [faultyHost_none, ← hevict, ← hsize] at hle

end ScanOrder

end Machine

/-! ## The law of scans -/

open Machine (ScanOrder)

namespace Cache

variable {cache : Cache} {path : Path}

/-- Whether the files are visited in the one order or in the other, every operation is the same: it
gives the same results, reports the same events and leaves the same files. -/
structure OrderFree (cache : Cache) (order order' : ScanOrder) : Prop where
  /-- The entries are listed alike. -/
  entries_eq : entries order.host cache = entries order'.host cache
  /-- So is the size that they have together. -/
  size_eq : size order.host cache = size order'.host cache
  /-- A blob is stored, or not, in the same way, and the same entries are evicted for it. -/
  set_eq : ∀ key blob, set order.host cache key blob = set order'.host cache key blob
  /-- The same entries are trimmed. -/
  trim_eq : trim order.host cache = trim order'.host cache
  /-- The same entries are cleared. -/
  clear_eq : clear order.host cache = clear order'.host cache
  /-- A check finds the same, in the same order. -/
  verify_eq : verify order.host cache = verify order'.host cache

/-- No operation depends on the order of a scan. -/
theorem orderFree (cache : Cache) (order order' : ScanOrder) : cache.OrderFree order order' where
  entries_eq := entries_withList Machine.host (order.reordered order') cache
  size_eq := size_withList Machine.host (order.reordered order') cache
  set_eq := set_withList Machine.host (order.reordered order') cache
  trim_eq := trim_withList Machine.host (order.reordered order') cache
  clear_eq := clear_withList Machine.host (order.reordered order') cache
  verify_eq := verify_withList Machine.host (order.reordered order') cache

/-- The listing of a cache with a directory, made from the files that were visited. -/
structure ListsVisited (cache : Cache) (order : ScanOrder) (path : Path) (m : Machine) : Prop where
  /-- Entries are in the order of use, and no two of them have the same place in it. -/
  sorted : (entries order.host cache m).1.Pairwise Entry.Precedes
  /-- Every file that was visited is among them once. -/
  once : ∀ entry ∈ (order.scan m path).entries, (entries order.host cache m).1.count entry = 1
  /-- They are the regular files of the directory whose names are texts, and nothing else. -/
  mem_iff : ∀ location, m.fs.Leads path location → ∀ entry,
    entry ∈ (entries order.host cache m).1 ↔
      ∃ id, m.fs.tree.get? (location.child (Path.ofText entry.name)) = some (.file id) ∧
        entry = m.fs.entryUnder entry.name id
  /-- The size of the cache is the sum of the sizes of what was visited. -/
  size_eq : (size order.host cache m).1 = ((order.scan m path).entries.map (·.size)).sum

/-- What a cache lists is what was visited, sorted. -/
theorem entries_scan (order : ScanOrder) (hdir : cache.state.directory? = some path) (m : Machine) :
    (entries order.host cache m).1 = Entry.inOrder (order.scan m path).entries := by
  unfold entries entriesOf
  rw [hdir, ← order.listed_host]
  rfl

/-- The size of a cache is that of what was visited. -/
theorem size_scan (order : ScanOrder) (hdir : cache.state.directory? = some path) (m : Machine) :
    (size order.host cache m).1 = Entry.totalSize (order.scan m path).entries := by
  unfold size sizeOf
  rw [hdir, ← order.listed_host]
  rfl

/-- The size of a cache is that of its entries, whether it has a directory or not. -/
theorem size_eq_totalSize (order : ScanOrder) (cache : Cache) (m : Machine) :
    (size order.host cache m).1 = Entry.totalSize (entries order.host cache m).1 := by
  rcases hdir : cache.state.directory? with _ | path
  · unfold size entries
    rw [hdir]
    rfl
  · rw [size_scan order hdir, entries_scan order hdir]
    exact (Entry.totalSize_perm (Entry.perm_inOrder _)).symm

/-- A cache lists what was visited, in order, and its size is the sum. -/
theorem listsVisited (order : ScanOrder) (hdir : cache.state.directory? = some path) (m : Machine) :
    cache.ListsVisited order path m := by
  have hentries := entries_scan order hdir m
  have hdistinct : (order.scan m path).entries.Pairwise fun a b => a.name ≠ b.name :=
    (order.reordered_scan order m path).distinct
  have hsorted : (entries order.host cache m).1.Pairwise
      fun a b => a.before b = true ∧ a.name ≠ b.name := by
    rw [hentries]
    exact (Entry.sorted_inOrder _).and (Entry.pairwise_inOrder hdistinct)
  constructor
  case sorted => exact hsorted.imp fun h => Entry.precedes_of_before h.1 h.2
  case once =>
    intro entry hmem
    have hnodup := Entry.nodup_of_distinct (Entry.pairwise_inOrder hdistinct)
    rw [hentries, hnodup.count, if_pos (Entry.mem_inOrder.mpr hmem)]
  case mem_iff =>
    intro location hlead entry
    rw [hentries, Entry.mem_inOrder, (order.perm_scan m path).mem_iff,
      FileSystem.listEntries_eq hlead]
    exact FileSystem.mem_entriesIn
  case size_eq => rw [size_scan order hdir, Entry.totalSize_eq_sum]

end Cache

namespace Cli

/-- The cache that the tool works with once it knows the configuration, and the machine it then
finds. -/
def opened (order : ScanOrder) (globals : Globals) (env : Environment) (config : Config)
    (m : Machine) : Cache × Machine :=
  Cache.ofConfig order.host Sha1.digest config
    (Cache.reportAll order.host (configEvents globals env) m).2

/-- What the tool shows of the cache that it opens is what this cache says of itself. -/
structure ShowsCache (order : ScanOrder) (globals : Globals) (env : Environment) (config : Config)
    (m : Machine) (cache : Cache) (ready : Machine) : Prop where
  /-- The summary gives the size of the cache and the number of its entries. -/
  info_eq : ∀ json, (info order.desk globals env json m).1 =
    (⟨cache.state.directory?, config, (cache.size order.host ready).1,
      (cache.entries order.host ready).1.length⟩ : Summary).report json
  /-- The list has a row for each entry, and it gives their number. -/
  list_eq : cache.state.isEnabled = true → ∀ json, (Cli.list order.desk globals env json m).1 =
    if json then prettyReport (.array ((cache.entries order.host ready).1.map entryJson))
    else (Report.ofText (String.join ((cache.entries order.host ready).1.map entryLine))).withRemarks
      globals.quiet [s!"{(cache.entries order.host ready).1.length} entries"]
  /-- The sizes of the rows make up the size of the cache. -/
  sum_rows : ((cache.entries order.host ready).1.map (·.size)).sum =
    (cache.size order.host ready).1

/-- The tool shows what the cache gives. -/
theorem showsCache (order : ScanOrder) {globals : Globals} {env : Environment} {config : Config}
    {m ready : Machine} {cache : Cache} (hconfig : configOf globals env = .ok config)
    (hopened : opened order globals env config m = (cache, ready)) :
    ShowsCache order globals env config m cache ready := by
  have hhost : order.desk.host = order.host := rfl
  unfold opened at hopened
  constructor
  case info_eq =>
    intro json
    rw [Cache.size_eq_totalSize]
    unfold info withConfig
    simp only [Machine.run_bind, hhost, hconfig, hopened]
    rfl
  case list_eq =>
    intro henabled json
    unfold Cli.list withCache withConfig
    simp only [Machine.run_bind, hhost, hconfig, hopened, henabled, if_true]
    cases json <;> rfl
  case sum_rows => rw [Cache.size_eq_totalSize, Entry.totalSize_eq_sum]

end Cli

/-- Nothing depends on the order in which a directory is gone through: not what a cache gives,
reports or leaves, and not what the tool shows. What is listed is in the order of use, every file
that was visited once. As long as sizes are words, they can be added up in words in any order. -/
theorem Cache.scan_order_irrelevant (order order' : ScanOrder) (cache : Cache) :
    cache.OrderFree order order' ∧
      (∀ path m, cache.state.directory? = some path → cache.ListsVisited order path m) ∧
      (∀ (globals : Cli.Globals) (env : Environment),
        (∀ json, Cli.info order.desk globals env json = Cli.info order'.desk globals env json ∧
          Cli.list order.desk globals env json = Cli.list order'.desk globals env json) ∧
        ∀ config m opened ready, Cli.configOf globals env = .ok config →
          Cli.opened order globals env config m = (opened, ready) →
          Cli.ShowsCache order globals env config m opened ready) ∧
      ∀ m : Machine, m.fs.WellFormed → cache.CountsInWords order.host m := by
  refine ⟨orderFree cache order order', fun path m hdir => listsVisited order hdir m,
    fun globals env => ⟨fun json => ⟨?_, ?_⟩, ?_⟩, fun m => order.countsInWords cache⟩
  · exact Cli.info_withList Machine.desk globals env (order.reordered order') json
  · exact Cli.list_withList Machine.desk globals env (order.reordered order') json
  · intro config m opened ready hconfig hopened
    exact Cli.showsCache order hconfig hopened

/-- Two entries were used at the same time. Visited backwards they are listed as ever, and the tool
counts two of them with eleven bytes. -/
theorem Cache.scan_order_irrelevant_of_tie :
    let forwards : ScanOrder := ⟨fun _ _ entries => entries, fun _ _ entries => .refl entries⟩
    let backwards : ScanOrder :=
      ⟨fun _ _ entries => entries.reverse, fun _ _ entries => entries.reverse_perm⟩
    let cache : Cache := ⟨.enabled Path.dot 100, Sha1.digest, Key.driverVersion⟩
    let globals : Cli.Globals := ⟨false, false, some Path.dot, some 100⟩
    let env : Environment := ⟨[], .ok Path.dot⟩
    let m := (Session.finish (.start [0x77])
      [.openCache "c" (.config ⟨some Path.dot, 100⟩) .weightedSum none .none,
        .onCache "c" (.set (.text "a") [1]), .onCache "c" (.set (.text "b") [1, 2]),
        .meddle (.touch (Path.ofText "a") 7), .meddle (.touch (Path.ofText "b") 7)]).machine
    (backwards.scan m Path.dot).entries = [⟨"b", 6, 7⟩, ⟨"a", 5, 7⟩] ∧
      cache.OrderFree backwards forwards ∧
      (cache.entries backwards.host m).1 = [⟨"a", 5, 7⟩, ⟨"b", 6, 7⟩] ∧
      (cache.size backwards.host m).1 = 11 ∧
      (Cli.info backwards.desk globals env false m).1.output = Utf8.encode
        ("cache directory: .\nsize budget:     100 bytes\n" ++
          "current size:    11 bytes\nentries:         2\n") := by
  intro forwards backwards cache globals env m
  have hlaw := scan_order_irrelevant backwards forwards cache
  have hlisted := hlaw.2.1 Path.dot m rfl
  have hentries : ∀ ready : Machine,
      (ready.fs.listEntries Path.dot).entries = [⟨"a", 5, 7⟩, ⟨"b", 6, 7⟩] →
      (cache.entries backwards.host ready).1 = [⟨"a", 5, 7⟩, ⟨"b", 6, 7⟩] := by
    intro ready hready
    rw [hlaw.1.entries_eq, entries_scan forwards rfl]
    show Entry.inOrder (ready.fs.listEntries Path.dot).entries = _
    rw [hready]
    exact List.mergeSort_of_pairwise (by decide +kernel)
  -- the tool opens the cache anew, and finds the same files
  let opened := Cli.opened backwards globals env ⟨some Path.dot, 100⟩ m
  have hstate : opened.1.state = .enabled Path.dot 100 := by decide +kernel
  have hopened : opened = (cache, opened.2) :=
    Prod.ext (congrArg (fun state => Cache.mk state Sha1.digest Key.driverVersion) hstate) rfl
  have hshown := (hlaw.2.2.1 globals env).2 ⟨some Path.dot, 100⟩ m cache opened.2 rfl hopened
  refine ⟨by decide +kernel, hlaw.1, hentries m (by decide +kernel), ?_, ?_⟩
  · rw [hlisted.size_eq]
    decide +kernel
  · rw [hshown.info_eq, ← hshown.sum_rows, hentries opened.2 (by decide +kernel)]
    decide +kernel

end BlobCache
