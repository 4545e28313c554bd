import BlobCache.Proofs.Words
import BlobCache.Session.Step

/-!
# The budget over runs

Nobody but the cache has entries open while blobs are only stored, so eviction passes over nothing
(`FileSystem.Idle`, `makeRoom_skips_none`) and what is known of a single `set` adds up:
`size_after_set` bounds the cache after any number of them.
-/

namespace BlobCache

namespace FileSystem

/-- Every entry of a directory can be reached by the path and evicted: it has one name and nobody
has it open. -/
def Idle (fs : FileSystem) (path : Path) (location : Location) : Prop :=
  ∀ name id, fs.tree.get? (location.child name) = some (.file id) →
    Fits path name ∧ fs.linkCount (.file id) ≤ 1 ∧ fs.locksOn id = []

namespace Idle

variable {fs fs' : FileSystem} {path : Path} {location : Location} {name : Bytes} {id : FileId}

/-- In an idle directory every entry can be locked. -/
theorem granted (h : fs.Idle path location) (hlead : fs.Leads path location)
    (hn : Path.IsName name) (hget : fs.tree.get? (location.child name) = some (.file id)) :
    fs.granted (Path.join path name) .exclusive = .ok id := by
  obtain ⟨hfit, hlinks, hlocks⟩ := h name id hget
  exact granted_of_unlocked hlead hn hfit hget hlinks hlocks .exclusive

/-- A calm step in which no handle is made leaves a directory idle. -/
theorem calm (h : fs.Idle path location) (hcalm : fs.Calm location fs')
    (hhandles : fs'.handles = fs.handles) : fs'.Idle path location := by
  intro name id hget
  obtain ⟨hfit, hlinks, hlocks⟩ := h name id (hcalm.file_origin hget)
  refine ⟨hfit, Nat.le_trans (hcalm.links_le id) hlinks, ?_⟩
  rw [locksOn, hhandles]
  exact hlocks

/-- So does a new entry. -/
theorem storing (h : fs.Idle path location) (hwf : fs.WellFormed) (hfit : Fits path name)
    (content : Bytes) : (fs.storing (location.child name) content).Idle path location := by
  intro other id hget
  rw [get?_storing] at hget
  split at hget
  · rename_i hplace
    cases hget
    rw [(Location.child_inj.mp hplace).2]
    exact ⟨hfit, linkCount_storing_self hwf, hwf.locksOn_next⟩
  · obtain ⟨hfit', hlinks, hlocks⟩ := h other id hget
    have hlt := hwf.file_lt _ _ hget
    exact ⟨hfit', Nat.le_trans (linkCount_storing_of_lt hlt) hlinks, hlocks⟩

end Idle

end FileSystem

namespace Cache

variable {location : Location} {path : Path} {m : Machine}

/-! ## Eviction in an idle directory -/

/-- Eviction closes whatever it opens. -/
theorem evictFrom_handles (hwf : m.fs.WellFormed) (hlead : m.fs.Leads path location)
    {entries : List Entry} (hnames : ∀ entry ∈ entries, Path.IsName (Path.ofText entry.name))
    (needed freed : Nat) :
    (evictFrom Machine.host path needed entries freed m).2.fs.handles = m.fs.handles := by
  induction entries generalizing m freed with
  | nil => rfl
  | cons entry rest ih =>
      have hname := hnames entry List.mem_cons_self
      have hrest : ∀ other ∈ rest, Path.IsName (Path.ofText other.name) :=
        fun other hmem => hnames other (List.mem_cons_of_mem _ hmem)
      rw [evictFrom_cons hwf hlead hname]
      rcases hgranted : m.fs.granted (Path.join path (Path.ofText entry.name)) .exclusive with
        error | id
      · exact ih (m := m.noting (.busy entry.name error)) hwf hlead hrest freed
      · have hget := ((FileSystem.granted_eq_ok_iff hlead hname).mp hgranted).2.1
        have hstep : m.Calm .blank location (m.evicting location entry id) := evicting_calm hget
        simp only
        split
        · rfl
        · exact ih (hstep.wellFormed hwf) (hstep.leads hlead) hrest _

/-- Making room leaves the same files open. -/
theorem makeRoom_handles (hwf : m.fs.WellFormed) (hlead : m.fs.Leads path location)
    (budget added : Nat) :
    (makeRoom Machine.host path budget added m).2.fs.handles = m.fs.handles := by
  rw [makeRoom_eq hlead]
  split
  · rfl
  · simp only [evict_eq hlead]
    exact evictFrom_handles hwf hlead (fun _ => isName_of_mem_entriesIn hwf) _ 0

/-- In an idle directory eviction passes over nothing. -/
theorem evictFrom_skips_none (hwf : m.fs.WellFormed) (hlead : m.fs.Leads path location)
    (hidle : m.fs.Idle path location) {entries : List Entry}
    (hentries : ∀ entry ∈ entries, ∃ id,
      m.fs.tree.get? (location.child (Path.ofText entry.name)) = some (.file id))
    (hdistinct : entries.Pairwise fun a b => a.name ≠ b.name) (needed freed : Nat) :
    m.SkippedNone (evictFrom Machine.host path needed entries freed m).2 := by
  induction entries generalizing m freed with
  | nil => exact .refl m
  | cons entry rest ih =>
      obtain ⟨id, hget⟩ := hentries entry List.mem_cons_self
      obtain ⟨hother, hrest⟩ := List.pairwise_cons.mp hdistinct
      have hname : Path.IsName (Path.ofText entry.name) := (hwf.named _ _ _ hget).1
      have hcalm : m.Calm .blank location (m.evicting location entry id) := evicting_calm hget
      have hstep : m.SkippedNone (m.evicting location entry id) :=
        Machine.SkippedNone.noting (m := m.withFiles _) rfl
      have hremain : ∀ other ∈ rest, ∃ id, (m.evicting location entry id).fs.tree.get?
          (location.child (Path.ofText other.name)) = some (.file id) := by
        intro other hmem
        obtain ⟨otherId, hget'⟩ := hentries other (List.mem_cons_of_mem _ hmem)
        exact ⟨otherId, (get?_evicting_ne (hother other hmem).symm id).trans hget'⟩
      rw [evictFrom_cons hwf hlead hname, hidle.granted hlead hname hget]
      simp only
      split
      · exact hstep
      · exact hstep.trans (ih (hcalm.wellFormed hwf) (hcalm.leads hlead)
          (hidle.calm hcalm.files rfl) hremain hrest _)

/-- In an idle directory making room passes over no entry. -/
theorem makeRoom_skips_none (hwf : m.fs.WellFormed) (hlead : m.fs.Leads path location)
    (hidle : m.fs.Idle path location) (budget added : Nat) :
    m.SkippedNone (makeRoom Machine.host path budget added m).2 := by
  rw [makeRoom_eq hlead]
  split
  · exact .refl m
  · simp only [evict_eq hlead]
    refine evictFrom_skips_none hwf hlead hidle (fun entry hmem => ?_) ?_ _ 0
    · obtain ⟨id, hget, -⟩ := FileSystem.mem_entriesIn.mp (Entry.mem_inOrder.mp hmem)
      exact ⟨id, hget⟩
    · exact Entry.pairwise_inOrder (m.fs.pairwise_entriesIn location)

/-! ## Storing many blobs -/

/-- Stores blobs one after another. -/
def storeAll {m : Type → Type} [Monad m] {φ : Type} (host : Host m φ) (cache : Cache) :
    List (Key × Bytes) → m Unit
  | [] => return ()
  | (key, blob) :: rest => do
    let _ ← set host cache key blob
    storeAll host cache rest

/-- A directory that only blobs are stored in, and what it takes. -/
structure Tidy (path : Path) (location : Location) (bound : Nat) (fs : FileSystem) : Prop where
  /-- The file system is well formed. -/
  wellFormed : fs.WellFormed
  /-- The path leads to the directory. -/
  leads : fs.Leads path location
  /-- Nobody has its entries open. -/
  idle : fs.Idle path location
  /-- They take no more than this. -/
  total_le : fs.totalIn location ≤ bound

/-- Calm changes that open and close nothing leave a directory tidy. -/
theorem Tidy.calm {bound : Nat} {fs fs' : FileSystem} (h : Tidy path location bound fs)
    (hcalm : fs.Calm location fs') (hhandles : fs'.handles = fs.handles) :
    Tidy path location bound fs' where
  wellFormed := hcalm.wellFormed h.wellFormed
  leads := hcalm.leads h.leads
  idle := h.idle.calm hcalm hhandles
  total_le := Nat.le_trans (hcalm.totalIn_le h.wellFormed) h.total_le

/-- A new entry that there is room for keeps a directory tidy. -/
theorem addEntry_tidy {digest : Digest} (hsized : digest.Sized) {key : Key} (hname : key.IsName)
    {blob : Bytes} (hne : blob ≠ []) {bound : Nat}
    (hroom : m.fs.totalIn location + (blob.length + digest.size) ≤ bound) (size : Nat)
    (h : Tidy path location bound m.fs) :
    Tidy path location bound (addEntry Machine.host digest path size key blob m).2.fs := by
  rw [addEntry_eq h.wellFormed h.leads hname hne]
  rcases hunder : m.fs.under path location key.fileName with cause | node | node
  · exact h
  · obtain ⟨hfit, hfree⟩ := FileSystem.under_eq_ok_iff.mp hunder
    by_cases hsum : digest.of blob = []
    · simp only [hsum, if_true, Machine.fs_noting, Machine.fs_withFiles]
      rw [FileSystem.unbind_storing hfree]
      exact h.calm (.addLost location m.fs _ 2) rfl
    · simp only [hsum, if_false, Machine.fs_noting, Machine.fs_withFiles]
      have htotal : (m.fs.storing (location.child key.fileName)
          (Entry.encode digest blob)).totalIn location =
            m.fs.totalIn location + (Entry.encode digest blob).length :=
        FileSystem.totalIn_storing h.wellFormed hfree _
      exact {
        wellFormed := h.wellFormed.storing hname hfit.2 _
        leads := h.leads.storing hfree _
        idle := h.idle.storing h.wellFormed hfit _
        total_le := by
          rw [htotal, Entry.length_encode hsized]
          exact hroom }
  · exact h

/-- Storing a blob keeps a directory tidy. -/
theorem set_tidy {cache : Cache} {budget : UInt64} (hstate : cache.state = .enabled path budget)
    (hsized : cache.digest.Sized) {key : Key} (hkey : key = .empty ∨ key.IsName) {blob : Bytes}
    {bound : Nat} (hbudget : budget.toNat ≤ bound)
    (hblob : blob.length ≤ budget.toNat → blob.length + cache.digest.size ≤ bound)
    (h : Tidy path location bound m.fs) :
    Tidy path location bound (set Machine.host cache key blob m).2.fs := by
  rcases set_cases cache key blob m with
    ⟨reason, m', heq, hm'⟩ | ⟨path', budget', hstate', hnonempty, hne, hfits, heq⟩
  · rw [heq]
    rcases hm' with rfl | ⟨budget, rfl⟩
    · exact h
    · exact h
  rw [hstate] at hstate'
  cases hstate'
  have hname : key.IsName := hkey.resolve_left fun e => by rw [e] at hnonempty; cases hnonempty
  have hroom := makeRoom_calm cache.digest h.wellFormed h.leads budget.toNat
    (blob.length + cache.digest.size)
  have hhandles := makeRoom_handles h.wellFormed h.leads budget.toNat
    (blob.length + cache.digest.size)
  have htotal := makeRoom_total h.wellFormed h.leads budget.toNat
    (blob.length + cache.digest.size) (makeRoom_skips_none h.wellFormed h.leads h.idle _ _)
  rw [heq]
  exact addEntry_tidy hsized hname hne
    (Nat.le_trans htotal (Nat.max_le.mpr ⟨hbudget, hblob hfits⟩)) _ (h.calm hroom.files hhandles)

/-- Storing blobs one after another leaves a directory tidy. -/
theorem storeAll_tidy {cache : Cache} {budget : UInt64}
    (hstate : cache.state = .enabled path budget) (hsized : cache.digest.Sized) {bound : Nat}
    (hbudget : budget.toNat ≤ bound) {items : List (Key × Bytes)}
    (hkeys : ∀ item ∈ items, item.1 = .empty ∨ item.1.IsName)
    (hblobs : ∀ item ∈ items, item.2.length ≤ budget.toNat →
      item.2.length + cache.digest.size ≤ bound)
    (h : Tidy path location bound m.fs) :
    Tidy path location bound (storeAll Machine.host cache items m).2.fs := by
  induction items generalizing m with
  | nil => exact h
  | cons item rest ih =>
      obtain ⟨key, blob⟩ := item
      have hset := set_tidy hstate hsized (hkeys _ List.mem_cons_self) hbudget
        (hblobs _ List.mem_cons_self) h
      exact ih (fun other hmem => hkeys other (List.mem_cons_of_mem _ hmem))
        (fun other hmem => hblobs other (List.mem_cons_of_mem _ hmem)) hset

/-! ## The law -/

/-- The size of a cache is what its entries take. -/
theorem size_eq {cache : Cache} {budget : UInt64} (hstate : cache.state = .enabled path budget)
    (hlead : m.fs.Leads path location) :
    (size Machine.host cache m).1 = m.fs.totalIn location := by
  unfold size
  rw [hstate]
  exact congrArg Prod.fst (sizeOf_eq hlead)

/-- Without a directory it is zero. -/
theorem size_of_not_leads {cache : Cache} {budget : UInt64}
    (hstate : cache.state = .enabled path budget) (h : ¬∃ location, m.fs.Leads path location) :
    (size Machine.host cache m).1 = 0 := by
  obtain ⟨error, hsize⟩ := sizeOf_of_not_leads h
  unfold size
  rw [hstate]
  exact congrArg Prod.fst hsize

/-- Once a blob was stored and eviction passed over nothing, the cache takes no more than its budget
or, where that is more, the new entry. Hence, from an empty directory, it never takes more than its
budget after any number of calls, unless a blob that is within the budget exceeds it with its
checksum; and then it takes no more than the largest such entry. As long as sizes are words, all of
this can be counted in words. -/
theorem size_after_set {cache : Cache} {budget : UInt64}
    (hstate : cache.state = .enabled path budget) (hsized : cache.digest.Sized) :
    (∀ (m : Machine) (key : Key) (blob : Bytes) (stored : Nat), m.fs.WellFormed → key.IsName →
        (set Machine.host cache key blob m).1 = .stored stored →
        m.SkippedNone (set Machine.host cache key blob m).2 →
        (size Machine.host cache (set Machine.host cache key blob m).2).1 ≤
          max budget.toNat (blob.length + cache.digest.size)) ∧
      (∀ (m : Machine) (location : Location) (items : List (Key × Bytes)) (bound : Nat),
        m.fs.WellFormed → m.fs.Leads path location →
        (∀ name id, m.fs.tree.get? (location.child name) ≠ some (.file id)) →
        (∀ item ∈ items, item.1 = .empty ∨ item.1.IsName) → budget.toNat ≤ bound →
        (∀ item ∈ items, item.2.length ≤ budget.toNat →
          item.2.length + cache.digest.size ≤ bound) →
        (size Machine.host cache (storeAll Machine.host cache items m).2).1 ≤ bound) ∧
      ∀ m : Machine, m.fs.WellFormed → cache.CountsInWords Machine.host m := by
  refine ⟨?_, ?_, fun m => host_countsInWords cache⟩
  · intro m key blob stored hwf hname hstored hskip
    by_cases hafter : ∃ location,
        (set Machine.host cache key blob m).2.fs.Leads path location
    · obtain ⟨after, hafter⟩ := hafter
      obtain ⟨location, hlead⟩ :=
        leads_of_stored hstate hafter.path_ne_nil hname hstored
      have hleads : ∀ path, cache.state.directory? = some path → m.fs.Leads path location := by
        intro path hdir
        rw [hstate] at hdir
        cases hdir
        exact hlead
      rcases set_spec hwf hleads (Or.inr hname) blob with ⟨-, hnot⟩ | ⟨_, -, -, hstores⟩
      · exact absurd hstored (hnot stored)
      · rw [size_eq hstate (hstores.leads hlead)]
        exact totalIn_of_stored hstate hsized hwf hlead hname hstored hskip
    · rw [size_of_not_leads hstate hafter]
      exact Nat.zero_le _
  · intro m location items bound hwf hlead hempty hkeys hbudget hblobs
    have htidy : Tidy path location bound m.fs := {
      wellFormed := hwf
      leads := hlead
      idle := fun name id hget => absurd hget (hempty name id)
      total_le := by
        rw [FileSystem.totalIn_eq_zero fun name id => hempty _ id]
        exact Nat.zero_le _ }
    have hafter := storeAll_tidy hstate hsized hbudget hkeys hblobs htidy
    rw [size_eq hstate hafter.leads]
    exact hafter.total_le

/-- Two entries of twelve bytes in a budget of twenty: the second takes the place of the first. -/
theorem size_after_two_sets :
    let cache : Cache := ⟨.enabled Path.dot 20, .weightedSum, 0⟩
    let m : Machine := (Session.start [0x77]).machine
    let blob : Bytes := [1, 2, 3, 4, 5, 6, 7, 8]
    (size Machine.host cache (set Machine.host cache ⟨"a"⟩ blob m).2).1 ≤ max 20 12 ∧
      (size Machine.host cache (storeAll Machine.host cache [(⟨"a"⟩, blob), (⟨"b"⟩, blob)]
        m).2).1 ≤ 20 := by
  intro cache m blob
  have hstate : cache.state = .enabled Path.dot 20 := rfl
  have hlaw := size_after_set hstate Digest.sized_weightedSum
  constructor
  · refine hlaw.1 m ⟨"a"⟩ blob 12 (FileSystem.wellFormed_initial _) ?_ ?_ ⟨_, rfl, ?_⟩ <;>
      decide +kernel
  · refine hlaw.2.1 m (Location.top.child [0x77]) _ 20 (FileSystem.wellFormed_initial _) ?_ ?_ ?_ ?_
      ?_
    · decide +kernel
    · intro name id hget
      have hinitial : m.fs.tree.get? ((Location.top.child [0x77]).child name) = none :=
        Table.get?_set_ne _ (fun e => by cases e) _
      rw [hinitial] at hget
      cases hget
    · intro item hmem
      right
      rcases List.mem_cons.mp hmem with rfl | hmem
      · decide +kernel
      · rw [List.mem_singleton.mp hmem]
        decide +kernel
    · decide
    · intro item hmem hle
      rcases List.mem_cons.mp hmem with rfl | hmem
      · decide
      · rw [List.mem_singleton.mp hmem]
        decide

/-- The budget alone is no bound: eight bytes are admitted to a budget of ten, and with their
checksum they take twelve. -/
theorem size_exceeds_budget :
    ¬∀ (cache : Cache) (path : Path) (budget : UInt64) (m : Machine) (key : Key) (blob : Bytes)
        (stored : Nat),
      cache.state = .enabled path budget → cache.digest.Sized → m.fs.WellFormed → key.IsName →
      (set Machine.host cache key blob m).1 = .stored stored →
      m.SkippedNone (set Machine.host cache key blob m).2 →
      (size Machine.host cache (set Machine.host cache key blob m).2).1 ≤ budget.toNat := by
  intro h
  have hbound := h ⟨.enabled Path.dot 10, .weightedSum, 0⟩ Path.dot 10
    (Session.start [0x77]).machine ⟨"a"⟩ [1, 2, 3, 4, 5, 6, 7, 8] 12 rfl Digest.sized_weightedSum
    (FileSystem.wellFormed_initial _) (by decide +kernel) (by decide +kernel)
    ⟨_, rfl, by decide +kernel⟩
  revert hbound
  decide +kernel

end Cache

end BlobCache
