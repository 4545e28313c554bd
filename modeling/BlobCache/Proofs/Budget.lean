import BlobCache.Digest.Simple
import BlobCache.Proofs.Storing
import Mathlib.Data.List.Perm.Subperm

/-!
# The budget

What the entries of a directory take together (`FileSystem.totalIn`) goes down by the size of every
entry that is evicted and up by that of every entry that is made. Eviction that passes over no entry
frees what it was asked for or leaves nothing behind (`evict_accounts`), and so making room leaves
room: `makeRoom_total`.

A blob is admitted if it fits the budget without its checksum. Its entry can therefore be larger
than the budget by less than a checksum, and that is the only way past the budget: after a blob was
stored, all entries together take no more than the budget or the new entry, whichever is larger.
-/

namespace BlobCache

namespace FileSystem

/-! ## What the entries of a directory take -/

/-- The bytes that the entries of a directory take together. -/
def totalIn (fs : FileSystem) (directory : Location) : Nat :=
  Entry.totalSize (fs.entriesIn directory)

section totals

variable {fs fs' : FileSystem} {directory : Location} {name : String} {id : FileId}

/-- No entry is listed twice. -/
theorem nodup_entriesIn (fs : FileSystem) (directory : Location) :
    (fs.entriesIn directory).Nodup := Entry.nodup_of_distinct (fs.pairwise_entriesIn directory)

/-- A directory without files takes nothing. -/
theorem totalIn_eq_zero
    (h : ∀ (name : String) id,
      fs.tree.get? (directory.child (Path.ofText name)) ≠ some (.file id)) :
    fs.totalIn directory = 0 := by
  have hnone : fs.entriesIn directory = [] := by
    refine List.eq_nil_iff_forall_not_mem.mpr fun entry hmem => ?_
    obtain ⟨id, hget, -⟩ := mem_entriesIn.mp hmem
    exact h _ _ hget
  rw [totalIn, hnone]
  rfl

/-- A directory takes no more than another one whose files it has, with the same contents. -/
theorem totalIn_le
    (h : ∀ (name : String) id,
      fs'.tree.get? (directory.child (Path.ofText name)) = some (.file id) →
        fs.tree.get? (directory.child (Path.ofText name)) = some (.file id) ∧
          fs'.contents id = fs.contents id) : fs'.totalIn directory ≤ fs.totalIn directory := by
  -- access times may differ, so the listings are compared without them
  let undated : Entry → Entry := fun entry => ⟨entry.name, entry.size, 0⟩
  have hnodup : ((fs'.entriesIn directory).map undated).Nodup := by
    refine List.pairwise_map.mpr ((fs'.pairwise_entriesIn directory).imp fun {a b} hne e => ?_)
    have hname : (undated a).name = (undated b).name := congrArg Entry.name e
    exact hne hname
  have hsubset : (fs'.entriesIn directory).map undated ⊆ (fs.entriesIn directory).map undated := by
    intro row hrow
    obtain ⟨entry, hmem, rfl⟩ := List.mem_map.mp hrow
    obtain ⟨id, hget, hentry⟩ := mem_entriesIn.mp hmem
    obtain ⟨hold, hcontents⟩ := h _ _ hget
    refine List.mem_map.mpr ⟨fs.entryUnder entry.name id, mem_entriesIn.mpr ⟨id, hold, rfl⟩, ?_⟩
    rw [hentry]
    show (⟨entry.name, (fs.contents id).length, 0⟩ : Entry) =
      ⟨entry.name, (fs'.contents id).length, 0⟩
    rw [hcontents]
  obtain ⟨kept, hkept, hsub⟩ := List.subperm_of_subset hnodup hsubset
  obtain ⟨others, hothers⟩ := hsub.exists_perm_append
  have htotal : ∀ entries : List Entry,
      Entry.totalSize entries = Entry.totalSize (entries.map undated) := by
    intro entries
    unfold Entry.totalSize
    rw [List.foldr_map]
  rw [totalIn, totalIn, htotal, htotal (fs.entriesIn directory), Entry.totalSize_perm hothers,
    Entry.totalSize_append, Entry.totalSize_perm hkept]
  exact Nat.le_add_right _ _

/-- A directory without one of its entries takes less by the size of it. -/
theorem totalIn_unbind
    (hget : fs.tree.get? (directory.child (Path.ofText name)) = some (.file id)) :
    (fs.unbind (directory.child (Path.ofText name))).totalIn directory +
        (fs.contents id).length = fs.totalIn directory := by
  have hother : ∀ {other : String}, other ≠ name →
      directory.child (Path.ofText other) ≠ directory.child (Path.ofText name) :=
    fun hne e => hne (Utf8.encode_injective (Location.child_inj.mp e).2)
  have hperm : (fs.entriesIn directory).Perm
      (fs.entryUnder name id ::
        (fs.unbind (directory.child (Path.ofText name))).entriesIn directory) := by
    refine (List.perm_ext_iff_of_nodup (nodup_entriesIn _ _) ?_).mpr fun entry => ?_
    · refine List.nodup_cons.mpr ⟨fun hmem => ?_, nodup_entriesIn _ _⟩
      obtain ⟨other, hother, -⟩ := mem_entriesIn.mp hmem
      rw [unbind, entryUnder, Table.get?_erase_self] at hother
      cases hother
    · rw [List.mem_cons, mem_entriesIn, mem_entriesIn]
      by_cases hname : entry.name = name
      · rw [hname, unbind, Table.get?_erase_self, hget]
        simp [entryUnder]
      · have hne : entry ≠ fs.entryUnder name id := fun e => hname (e ▸ rfl)
        rw [unbind, Table.get?_erase_ne _ (hother hname)]
        simp only [hne, false_or]
        rfl
  have hsum := Entry.totalSize_perm hperm
  rw [Entry.totalSize_cons] at hsum
  exact (Nat.add_comm _ _).trans hsum.symm

/-- A calm step leaves no more than there was. -/
theorem Calm.totalIn_le {location : Location} (h : fs.Calm location fs') (hwf : fs.WellFormed) :
    fs'.totalIn directory ≤ fs.totalIn directory :=
  FileSystem.totalIn_le fun _ _ hget => ⟨h.file_origin hget, h.contents_of_named hwf hget⟩

/-- If no name has gone, it leaves what there was. -/
theorem Calm.totalIn_eq {location : Location} (h : fs.Calm location fs') (hwf : fs.WellFormed)
    (htree : fs'.tree = fs.tree) : fs'.totalIn directory = fs.totalIn directory := by
  refine Nat.le_antisymm (h.totalIn_le hwf) (FileSystem.totalIn_le fun name id hget => ?_)
  rw [htree]
  exact ⟨hget, (h.contents_eq id (hwf.file_lt _ _ hget)).symm⟩

/-- A directory with one more entry takes more by the size of it. -/
theorem totalIn_storing (hwf : fs.WellFormed)
    (hfree : fs.tree.get? (directory.child (Path.ofText name)) = none) (content : Bytes) :
    (fs.storing (directory.child (Path.ofText name)) content).totalIn directory =
      fs.totalIn directory + content.length := by
  have hback : (fs.storing (directory.child (Path.ofText name)) content).unbind
      (directory.child (Path.ofText name)) =
        { fs with
          files := fs.files.set fs.next ⟨content, entryMode, fs.now⟩
          next := fs.next + 2 } := unbind_storing hfree
  have hnew : (fs.storing (directory.child (Path.ofText name)) content).tree.get?
      (directory.child (Path.ofText name)) = some (.file fs.next) := Table.get?_set_self _ _ _
  have hsum := totalIn_unbind hnew
  rw [hback, contents_storing_self] at hsum
  -- the file that lost its name again is in no listing
  have hlost := Calm.addLost directory fs ⟨content, entryMode, fs.now⟩ 2
  rw [← hsum, hlost.totalIn_eq hwf rfl]

end totals

end FileSystem

/-! ## What eviction leaves -/

/-- Whether an event says that an entry could not be evicted. -/
def Event.isSkip : Event → Bool
  | .busy .. | .notEvicted .. => true
  | _ => false

/-- On the way from one machine to another, eviction passed over no entry. -/
def Machine.SkippedNone (m m' : Machine) : Prop :=
  ∃ new, m'.log = m.log ++ new ∧ ∀ event ∈ new, event.isSkip = false

namespace Machine.SkippedNone

variable {m m' m'' : Machine}

/-- If nothing happens, nothing is passed over. -/
theorem refl (m : Machine) : m.SkippedNone m := ⟨[], (List.append_nil _).symm, by simp⟩

/-- Another event passes over nothing. -/
theorem noting {event : Event} (h : event.isSkip = false) : m.SkippedNone (m.noting event) :=
  ⟨[event], rfl, by simpa using h⟩

/-- Nothing is passed over by two programs in a row that pass over nothing. -/
theorem trans (h : m.SkippedNone m') (h' : m'.SkippedNone m'') : m.SkippedNone m'' := by
  obtain ⟨new, hlog, hnew⟩ := h
  obtain ⟨new', hlog', hnew'⟩ := h'
  refine ⟨new ++ new', by rw [hlog', hlog, List.append_assoc], fun event hmem => ?_⟩
  rcases List.mem_append.mp hmem with hmem | hmem
  · exact hnew event hmem
  · exact hnew' event hmem

/-- Whoever skipped nothing on the whole way skipped nothing on either part of it. -/
theorem split (h : m.SkippedNone m'') (hfirst : m.log <+: m'.log) (hrest : m'.log <+: m''.log) :
    m.SkippedNone m' ∧ m'.SkippedNone m'' := by
  obtain ⟨new, hlog, hnew⟩ := h
  obtain ⟨first, hfirst⟩ := hfirst
  obtain ⟨rest, hrest⟩ := hrest
  have hparts : new = first ++ rest := by
    rw [← hrest, ← hfirst, List.append_assoc] at hlog
    exact (List.append_cancel_left hlog).symm
  subst hparts
  exact ⟨⟨first, hfirst.symm, fun event hmem => hnew event (List.mem_append_left _ hmem)⟩,
    ⟨rest, hrest.symm, fun event hmem => hnew event (List.mem_append_right _ hmem)⟩⟩

/-- The event that an entry is passed over is one that counts. -/
theorem not_noting {event : Event} (hskip : event.isSkip = true) :
    ¬m.SkippedNone (m.noting event) := by
  rintro ⟨new, hlog, hnew⟩
  rw [Machine.log_noting] at hlog
  rw [← List.append_cancel_left hlog] at hnew
  have := hnew event (List.mem_singleton_self _)
  rw [hskip] at this
  cases this

end Machine.SkippedNone

namespace Cache

variable {digest : Digest} {location : Location} {path : Path} {m : Machine}

/-- Eviction that passes over nothing frees what has gone, and goes on until that is enough or
every entry has gone. -/
theorem evictFrom_accounts (hwf : m.fs.WellFormed) (hlead : m.fs.Leads path location)
    {entries : List Entry} (hnames : ∀ entry ∈ entries, Path.IsName (Path.ofText entry.name))
    (needed freed : Nat)
    (hskip : m.SkippedNone (evictFrom Machine.host path needed entries freed m).2) :
    (evictFrom Machine.host path needed entries freed m).2.fs.totalIn location +
          (evictFrom Machine.host path needed entries freed m).1 =
        m.fs.totalIn location + freed ∧
      (needed ≤ (evictFrom Machine.host path needed entries freed m).1 ∨
        ∀ entry ∈ entries, ∀ id,
          (evictFrom Machine.host path needed entries freed m).2.fs.tree.get?
            (location.child (Path.ofText entry.name)) ≠ some (.file id)) := by
  induction entries generalizing m freed with
  | nil => exact ⟨rfl, Or.inr fun _ hmem => absurd hmem List.not_mem_nil⟩
  | cons entry rest ih =>
      have hname := hnames entry List.mem_cons_self
      have hrest : ∀ other ∈ rest, Path.IsName (Path.ofText other.name) :=
        fun other hmem => hnames other (List.mem_cons_of_mem _ hmem)
      rw [evictFrom_cons hwf hlead hname] at hskip ⊢
      rcases hgranted : m.fs.granted (Path.join path (Path.ofText entry.name)) .exclusive with
        error | id
      · -- an entry that is not admitted is reported as passed over
        exfalso
        have hstep := Machine.Calm.noting .blank location m (.busy entry.name error)
        have hthen := evictFrom_calm .blank (hstep.wellFormed hwf) (hstep.leads hlead) hrest
          needed freed
        simp only [hgranted] at hskip
        exact Machine.SkippedNone.not_noting rfl (hskip.split hstep.reported hthen.reported).1
      · have hget := ((FileSystem.granted_eq_ok_iff hlead hname).mp hgranted).2.1
        have hstep : m.Calm .blank location (m.evicting location entry id) := evicting_calm hget
        have hgone : (m.evicting location entry id).fs.tree.get?
            (location.child (Path.ofText entry.name)) = none := Table.get?_erase_self _ _
        have htotal : (m.evicting location entry id).fs.totalIn location +
            (m.fs.contents id).length = m.fs.totalIn location := FileSystem.totalIn_unbind hget
        simp only [hgranted] at hskip ⊢
        by_cases henough : needed ≤ freed + (m.fs.contents id).length
        · rw [if_pos henough]
          exact ⟨by simp only; omega, Or.inl henough⟩
        · rw [if_neg henough] at hskip ⊢
          have hthen := evictFrom_calm .blank (hstep.wellFormed hwf) (hstep.leads hlead) hrest
            needed (freed + (m.fs.contents id).length)
          obtain ⟨hsum, hstop⟩ := ih (hstep.wellFormed hwf) (hstep.leads hlead) hrest _
            (hskip.split hstep.reported hthen.reported).2
          refine ⟨by omega, hstop.imp_right fun hnone other hmem otherId hother => ?_⟩
          rcases List.mem_cons.mp hmem with rfl | hmem
          · have := hthen.files.file_origin hother
            rw [hgone] at this
            cases this
          · exact hnone other hmem otherId hother

/-- Eviction that passes over nothing frees what it was asked for or leaves nothing. -/
theorem evict_accounts (hwf : m.fs.WellFormed) (hlead : m.fs.Leads path location) (needed : Nat)
    (hskip : m.SkippedNone (evict Machine.host path needed m).2) :
    (evict Machine.host path needed m).2.fs.totalIn location +
          (evict Machine.host path needed m).1 = m.fs.totalIn location ∧
      (needed ≤ (evict Machine.host path needed m).1 ∨
        (evict Machine.host path needed m).2.fs.totalIn location = 0) := by
  have hcalm := evict_calm .blank hwf hlead needed
  rw [evict_eq hlead] at hskip hcalm ⊢
  obtain ⟨hsum, hstop⟩ := evictFrom_accounts hwf hlead (fun _ => isName_of_mem_entriesIn hwf)
    needed 0 hskip
  refine ⟨hsum, hstop.imp_right fun hnone => FileSystem.totalIn_eq_zero fun name id hget => ?_⟩
  have hmem : m.fs.entryUnder name id ∈ Entry.inOrder (m.fs.entriesIn location) :=
    Entry.mem_inOrder.mpr (FileSystem.mem_entriesIn.mpr ⟨id, hcalm.files.file_origin hget, rfl⟩)
  exact hnone _ hmem id hget

/-- Where room was made and nothing passed over, the new entry fits, or it is alone. -/
theorem makeRoom_total (hwf : m.fs.WellFormed) (hlead : m.fs.Leads path location)
    (budget added : Nat)
    (hskip : m.SkippedNone (makeRoom Machine.host path budget added m).2) :
    (makeRoom Machine.host path budget added m).2.fs.totalIn location + added ≤
      max budget added := by
  rw [makeRoom_eq hlead] at hskip ⊢
  by_cases hfits : Entry.totalSize (m.fs.entriesIn location) + added ≤ budget
  · rw [if_pos hfits]
    exact Nat.le_trans hfits (Nat.le_max_left _ _)
  · rw [if_neg hfits] at hskip ⊢
    have htotal : m.fs.totalIn location = Entry.totalSize (m.fs.entriesIn location) := rfl
    obtain ⟨hsum, hstop⟩ := evict_accounts hwf hlead _ hskip
    simp only
    rcases hstop with henough | hempty
    · omega
    · rw [hempty, Nat.zero_add]
      exact Nat.le_max_right _ _

/-! ## What storing leaves -/

/-- Where a path leads to no directory, nothing is listed. -/
theorem entries_listEntries_of_not_leads (h : ¬∃ location, m.fs.Leads path location) :
    ∃ error, m.fs.listEntries path = ⟨[], some error⟩ := by
  unfold FileSystem.listEntries
  rcases hnode : m.fs.nodeAt path with cause | ⟨location, node⟩
  · exact ⟨_, rfl⟩
  · cases node with
    | directory => exact absurd ⟨location, hnode⟩ h
    | link id target => exact ⟨_, rfl⟩
    | file id => exact ⟨_, rfl⟩

/-- Listing a path that leads to no directory gives nothing and reports that. -/
theorem listed_of_not_leads (h : ¬∃ location, m.fs.Leads path location) :
    ∃ error, listed Machine.host path m = ([], m.noting (.scanFailed error)) := by
  obtain ⟨error, hlist⟩ := entries_listEntries_of_not_leads h
  refine ⟨error, ?_⟩
  unfold listed
  rw [Machine.run_bind, Machine.host_list, hlist]
  rfl

/-- Such a path has the size zero. -/
theorem sizeOf_of_not_leads (h : ¬∃ location, m.fs.Leads path location) :
    ∃ error, sizeOf Machine.host path m = (0, m.noting (.scanFailed error)) := by
  obtain ⟨error, hlisted⟩ := listed_of_not_leads h
  refine ⟨error, ?_⟩
  unfold sizeOf
  rw [Machine.run_bind, hlisted]
  rfl

/-- It has no entries either. -/
theorem entriesOf_of_not_leads (h : ¬∃ location, m.fs.Leads path location) :
    ∃ error, entriesOf Machine.host path m = ([], m.noting (.scanFailed error)) := by
  obtain ⟨error, hlisted⟩ := listed_of_not_leads h
  refine ⟨error, ?_⟩
  unfold entriesOf
  rw [Machine.run_bind, hlisted]
  unfold Entry.inOrder
  rw [List.mergeSort_nil]
  rfl

/-- Looking around takes note of a directory that is missing, and no more. -/
theorem sizeOf_fs (path : Path) (m : Machine) : (sizeOf Machine.host path m).2.fs = m.fs := by
  by_cases hlead : ∃ location, m.fs.Leads path location
  · obtain ⟨location, hlead⟩ := hlead
    rw [sizeOf_eq hlead]
  · obtain ⟨error, h⟩ := sizeOf_of_not_leads hlead
    rw [h]
    rfl

/-- To list entries changes no file. -/
theorem entriesOf_fs (path : Path) (m : Machine) :
    (entriesOf Machine.host path m).2.fs = m.fs := by
  by_cases hlead : ∃ location, m.fs.Leads path location
  · obtain ⟨location, hlead⟩ := hlead
    rw [entriesOf_eq hlead]
  · obtain ⟨error, h⟩ := entriesOf_of_not_leads hlead
    rw [h]
    rfl

/-- Nor is anything evicted there. -/
theorem evict_of_not_leads {faults : Faults} (htrue : faults.Truthful)
    (h : ¬∃ location, m.fs.Leads path location) (needed : Nat) :
    (evict (Machine.faultyHost faults) path needed m).1 = 0 ∧
      (evict (Machine.faultyHost faults) path needed m).2.fs = m.fs := by
  obtain ⟨error, hentries⟩ := entriesOf_of_not_leads h
  unfold evict
  rw [Machine.run_bind, entriesOf_truthful htrue, hentries]
  exact ⟨rfl, rfl⟩

/-- Where a path leads to no directory, evicting from it changes no file. -/
theorem evict_fs_of_not_leads (h : ¬∃ location, m.fs.Leads path location) (needed : Nat) :
    (evict Machine.host path needed m).2.fs = m.fs := by
  have hnone := (evict_of_not_leads Faults.truthful_none h needed).2
  rwa [Machine.faultyHost_none] at hnone

/-- Nor is room made there. -/
theorem makeRoom_of_not_leads {faults : Faults} (htrue : faults.Truthful)
    (h : ¬∃ location, m.fs.Leads path location) (budget added : Nat) :
    (makeRoom (Machine.faultyHost faults) path budget added m).2.fs = m.fs := by
  have hfs := sizeOf_fs path m
  unfold makeRoom
  rw [Machine.run_bind, sizeOf_truthful htrue]
  split
  · exact hfs
  · exact (evict_of_not_leads htrue (hfs.symm ▸ h) _).2.trans hfs

/-- Nor does making room in it. -/
theorem makeRoom_fs_of_not_leads (h : ¬∃ location, m.fs.Leads path location)
    (budget added : Nat) : (makeRoom Machine.host path budget added m).2.fs = m.fs := by
  have hnone := makeRoom_of_not_leads Faults.truthful_none h budget added
  rwa [Machine.faultyHost_none] at hnone

end Cache

/-- A file can be created only behind the path of a directory. -/
theorem FileSystem.leads_of_createEntry {fs : FileSystem} {path : Path} {name : Bytes}
    (hpath : path ≠ []) (hn : Path.IsName name) {handle : HandleId}
    (h : (fs.createEntry (Path.join path name)).1 = .ok handle) :
    ∃ location, fs.Leads path location := by
  unfold createEntry create at h
  rcases hlast : fs.resolveLast (Path.join path name) with cause | ⟨parent, last, slash⟩ | _ <;>
    rw [hlast] at h
  · cases h
  · exact ⟨parent, leads_of_resolveLast_join hpath hn hlast⟩
  · cases h

namespace Cache

variable {location : Location} {path : Path} {m : Machine} {cache : Cache} {budget : UInt64}
  {key : Key} {blob : Bytes} {stored : Nat}

/-- What is stored was put into a new file, however the host writes. -/
theorem addEntry_stored (write : HandleId → Bytes → StateM Machine (Except StoreError Unit))
    {size : Nat} {digest : Digest}
    (h : (addEntry (Machine.writing write) digest path size key blob m).1 = .stored stored) :
    ∃ handle, (m.fs.createEntry (entryPath path key)).1 = .ok handle := by
  have hcreate : (Machine.writing write).create (entryPath path key) m =
      ((m.fs.createEntry (entryPath path key)).1,
        m.withFiles (m.fs.createEntry (entryPath path key)).2) := rfl
  unfold addEntry at h
  rw [Machine.run_bind, hcreate] at h
  rcases hmade : (m.fs.createEntry (entryPath path key)).1 with error | handle
  · rw [hmade] at h
    exact absurd h (outcomeOfRefusal_ne_stored _ _)
  · exact ⟨handle, rfl⟩

/-- A blob that is stored passed every test and got an entry of its own, on every host. -/
theorem set_eq_of_stored {host : Host (StateM Machine) HandleId}
    (hstate : cache.state = .enabled path budget)
    (h : (set host cache key blob m).1 = .stored stored) :
    key.isEmpty = false ∧ blob ≠ [] ∧ set host cache key blob m =
      addEntry host cache.digest path
        (makeRoom host path budget.toNat (blob.length + cache.digest.size) m).1 key blob
        (makeRoom host path budget.toNat (blob.length + cache.digest.size) m).2 := by
  unfold set at h ⊢
  simp only [hstate] at h ⊢
  by_cases hkey : key.isEmpty = true
  · rw [if_pos hkey] at h
    cases h
  rw [if_neg hkey] at h ⊢
  by_cases hempty : blob.isEmpty = true
  · rw [if_pos hempty] at h
    cases h
  rw [if_neg hempty] at h ⊢
  by_cases hbig : budget.toNat < blob.length
  · rw [if_pos hbig] at h
    cases h
  rw [if_neg hbig] at h ⊢
  exact ⟨by simpa using hkey, by simpa using hempty, rfl⟩

/-- Where there is no directory nothing is stored. -/
theorem leads_of_stored (hstate : cache.state = .enabled path budget) (hpath : path ≠ [])
    (hname : key.IsName) (h : (set Machine.host cache key blob m).1 = .stored stored) :
    ∃ location, m.fs.Leads path location := by
  obtain ⟨-, -, heq⟩ := set_eq_of_stored hstate h
  rw [heq] at h
  obtain ⟨handle, hmade⟩ := addEntry_stored Machine.host.write h
  by_contra hnot
  rw [makeRoom_fs_of_not_leads hnot] at hmade
  exact hnot (FileSystem.leads_of_createEntry hpath hname hmade)

/-- After a blob was stored and nothing was passed over, all entries together take no more than the
budget, or no more than the new entry. -/
theorem totalIn_of_stored (hstate : cache.state = .enabled path budget)
    (hsized : cache.digest.Sized) (hwf : m.fs.WellFormed) (hlead : m.fs.Leads path location)
    (hname : key.IsName) (h : (set Machine.host cache key blob m).1 = .stored stored)
    (hskip : m.SkippedNone (set Machine.host cache key blob m).2) :
    (set Machine.host cache key blob m).2.fs.totalIn location ≤
      max budget.toNat (blob.length + cache.digest.size) := by
  obtain ⟨-, hne, heq⟩ := set_eq_of_stored hstate h
  rw [heq] at h hskip ⊢
  have hroom := makeRoom_calm cache.digest hwf hlead budget.toNat (blob.length + cache.digest.size)
  have htotal := makeRoom_total hwf hlead budget.toNat (blob.length + cache.digest.size)
  generalize makeRoom Machine.host path budget.toNat (blob.length + cache.digest.size) m = room
    at h hskip hroom htotal ⊢
  obtain ⟨size, roomy⟩ := room
  have hwf' : roomy.fs.WellFormed := hroom.wellFormed hwf
  simp only at h hskip ⊢
  rw [addEntry_eq hwf' (hroom.leads hlead) hname hne] at h hskip ⊢
  rcases hunder : roomy.fs.under path location key.fileName with cause | node | node <;>
    simp only [hunder] at h hskip ⊢
  · exact absurd h (outcomeOfRefusal_ne_stored _ _)
  · obtain ⟨-, hfree⟩ := FileSystem.under_eq_ok_iff.mp hunder
    by_cases hsum : cache.digest.of blob = []
    · rw [if_pos hsum] at h
      cases h
    · rw [if_neg hsum] at hskip ⊢
      have hsplit := hskip.split hroom.reported (List.prefix_append _ _)
      show (roomy.fs.storing (location.child (Path.ofText key.text)) _).totalIn location ≤ _
      rw [FileSystem.totalIn_storing hwf' hfree, Entry.length_encode hsized]
      exact htotal hsplit.1
  · cases h

end Cache

end BlobCache
