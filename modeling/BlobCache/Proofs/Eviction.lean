import BlobCache.Proofs.Storing
import Mathlib.Data.List.Perm.Subperm

/-!
# Which entries an eviction takes

An eviction goes through the entries in the order of use and takes each one that it can lock, until
it has the bytes it was asked for. Which entries it can lock is settled before it begins: an entry
that is taken has one name only, so taking it neither frees nor locks another one
(`granted_unbind`). So an eviction takes exactly the shortest front part of the evictable entries
that is large enough, or all of them (`evict_eq_victims`, `makeRoom_eq_makingWay`). On a host that
refuses to lock or to remove some of them it goes through the others in the same way
(`evict_eq_victims_of_truthful`).

* `Entry.victims`: that front part of a list. `Entry.mem_victims_iff` says who belongs to it.
* `FileSystem.without`: the file system when some entries of a directory have gone.
-/

namespace BlobCache

/-! ## Front parts -/

namespace Entry

/-- The shortest front part of a list of entries that takes this many bytes, or the whole list. The
first entry is always part of it. -/
def victims (needed : Nat) : List Entry → List Entry
  | [] => []
  | entry :: rest =>
    entry :: if needed ≤ entry.size then [] else victims (needed - entry.size) rest

/-- If the first entry is large enough, it is the only victim. -/
theorem victims_cons_of_le {needed : Nat} {entry : Entry} (h : needed ≤ entry.size)
    (rest : List Entry) : victims needed (entry :: rest) = [entry] := by
  rw [victims, if_pos h]

/-- If the first entry is too small, it goes, and others for the rest. -/
theorem victims_cons_of_lt {needed : Nat} {entry : Entry} (h : entry.size < needed)
    (rest : List Entry) :
    victims needed (entry :: rest) = entry :: victims (needed - entry.size) rest := by
  rw [victims, if_neg (Nat.not_le.mpr h)]

/-- Victims are taken from the front. -/
theorem victims_front (needed : Nat) (entries : List Entry) :
    victims needed entries <+: entries := by
  induction entries generalizing needed with
  | nil => exact List.prefix_rfl
  | cons entry rest ih =>
      rcases Nat.lt_or_ge entry.size needed with hlt | hle
      · rw [victims_cons_of_lt hlt]
        exact List.cons_prefix_cons.mpr ⟨rfl, ih _⟩
      · rw [victims_cons_of_le hle]
        exact List.cons_prefix_cons.mpr ⟨rfl, List.nil_prefix⟩

/-- Victims are among the entries. -/
theorem victims_subset (needed : Nat) (entries : List Entry) :
    victims needed entries ⊆ entries := (victims_front needed entries).subset

/-- An entry is among the victims if those listed before it are not enough. -/
theorem mem_victims_iff {entries : List Entry} {entry : Entry} {needed : Nat}
    (hdistinct : entries.Pairwise fun a b => a.name ≠ b.name) (hmem : entry ∈ entries)
    (hneeded : 0 < needed) :
    entry ∈ victims needed entries ↔
      totalSize (entries.takeWhile fun other => other.name ≠ entry.name) < needed := by
  induction entries generalizing needed with
  | nil => exact absurd hmem List.not_mem_nil
  | cons first rest ih =>
      obtain ⟨hother, hrest⟩ := List.pairwise_cons.mp hdistinct
      rcases List.mem_cons.mp hmem with rfl | hmem
      · simp [victims, totalSize, hneeded]
      · have hname : first.name ≠ entry.name := hother entry hmem
        have hne : entry ≠ first := fun e => hname (by rw [e])
        rw [List.takeWhile_cons_of_pos (by simpa using hname), totalSize_cons]
        rcases Nat.lt_or_ge first.size needed with hlt | hle
        · rw [victims_cons_of_lt hlt, List.mem_cons, or_iff_right hne,
            ih hrest hmem (Nat.sub_pos_of_lt hlt)]
          omega
        · rw [victims_cons_of_le hle, List.mem_singleton]
          simp only [hne, false_iff, Nat.not_lt]
          omega

end Entry

namespace FileSystem

/-! ## Entries that go -/

/-- The location of an entry of a directory. -/
def placeOf (directory : Location) (entry : Entry) : Location :=
  directory.child (Path.ofText entry.name)

/-- The file system when these entries of a directory have gone. Locking each of them has used up
an identity. -/
def without (fs : FileSystem) (directory : Location) (gone : List Entry) : FileSystem :=
  { fs with
    tree := fs.tree.filter fun row => row.1 ∉ gone.map (placeOf directory)
    next := fs.next + gone.length }

/-- The file system when the identities before this one have been used up. -/
def usedUpTo (fs : FileSystem) (next : Nat) : FileSystem := { fs with next := next }

/-- That identities are given out keeps a file system well formed. -/
theorem WellFormed.usedUpTo {fs : FileSystem} (h : fs.WellFormed) {next : Nat}
    (hle : fs.next ≤ next) : (fs.usedUpTo next).WellFormed where
  file_lt place id hget := Nat.lt_of_lt_of_le (h.file_lt place id hget) hle
  handle_lt handle file hget := Nat.lt_of_lt_of_le (h.handle_lt handle file hget) hle
  open_lt handle file hget := Nat.lt_of_lt_of_le (h.open_lt handle file hget) hle
  named := h.named

/-- That identities are given out leaves paths leading where they led. -/
theorem Leads.usedUpTo {fs : FileSystem} {path : Path} {location : Location}
    (h : fs.Leads path location) (next : Nat) : (fs.usedUpTo next).Leads path location :=
  h.mono rfl fun _ _ hget _ => hget

section without

variable (fs : FileSystem) (directory : Location) (gone : List Entry)

/-- Without nothing a file system is itself. -/
@[simp] theorem without_nil : fs.without directory [] = fs := by
  have htree : (fs.tree.filter fun row => decide (row.1 ∉ ([] : List Entry).map
      (placeOf directory))) = fs.tree := by
    refine Table.eq_of_rows (List.filter_eq_self.mpr fun row _ => ?_)
    simp
  unfold without
  rw [htree]
  rfl

/-- Entries go one after another. -/
theorem without_cons (entry : Entry) :
    fs.without directory (entry :: gone) =
      (fs.spent.unbind (placeOf directory entry)).without directory gone := by
  have htree : (fs.tree.filter fun row => decide (row.1 ∉ (entry :: gone).map
        (placeOf directory))) =
      (fs.tree.erase (placeOf directory entry)).filter
        fun row => decide (row.1 ∉ gone.map (placeOf directory)) := by
    refine Table.eq_of_rows ?_
    show List.filter _ _ = List.filter _ (List.filter _ _)
    rw [List.filter_filter]
    refine List.filter_congr fun row _ => ?_
    simp [Bool.and_comm]
  have hnext : fs.next + (entry :: gone).length = fs.next + 1 + gone.length := by
    rw [List.length_cons]
    omega
  unfold without
  rw [htree, hnext]
  rfl

/-- Where entries have gone nothing stands, and everything else does as before. -/
theorem get?_without (place : Location) :
    (fs.without directory gone).tree.get? place =
      if place ∈ gone.map (placeOf directory) then none else fs.tree.get? place := by
  unfold without
  rw [Table.get?_filter]
  by_cases h : place ∈ gone.map (placeOf directory)
  · rw [if_pos h]
    cases fs.tree.get? place <;> simp [h]
  · rw [if_neg h]
    cases fs.tree.get? place <;> simp [h]

end without

/-! ## The number of names -/

/-- What stands in two places has two names at least. -/
theorem two_le_linkCount {fs : FileSystem} {a b : Location} {node : Node} (hne : a ≠ b)
    (ha : fs.tree.get? a = some node) (hb : fs.tree.get? b = some node) :
    2 ≤ fs.linkCount node := by
  have hnodup : [(a, node), (b, node)].Nodup := by simp [hne]
  have hsubset : [(a, node), (b, node)] ⊆ fs.tree.rows := by
    intro row hrow
    simp only [List.mem_cons, List.not_mem_nil, or_false] at hrow
    rcases hrow with rfl | rfl
    · exact Table.mem_rows_iff.mpr ha
    · exact Table.mem_rows_iff.mpr hb
  have hle := (List.subperm_of_subset hnodup hsubset).countP_le fun row => row.2 = node
  have htwo : [(a, node), (b, node)].countP (fun row => row.2 = node) = 2 := by simp
  rwa [htwo] at hle

/-- What does not stand at a location keeps its names when that one is removed. -/
theorem linkCount_unbind_of_ne {fs : FileSystem} {place : Location} {node : Node}
    (h : fs.tree.get? place ≠ some node) :
    (fs.unbind place).linkCount node = fs.linkCount node := by
  unfold linkCount unbind Table.erase Table.filter
  rw [List.countP_filter]
  refine List.countP_congr fun row hrow => ?_
  simp only [Bool.and_eq_true, decide_eq_true_eq, and_iff_left_iff_imp]
  rintro rfl rfl
  exact h (Table.mem_rows_iff.mp hrow)

/-! ## Which entries can be evicted -/

section granting

variable {fs fs' : FileSystem} {path : Path} {location : Location} {name gone : Bytes}
  {id : FileId}

/-- Whether an entry is admitted is a matter of what stands under its name, of how many names that
has and of its locks. -/
theorem granted_congr (h : fs.Leads path location) (h' : fs'.Leads path location)
    (hn : Path.IsName name)
    (htree : fs'.tree.get? (location.child name) = fs.tree.get? (location.child name))
    (hlinks : ∀ id, fs.tree.get? (location.child name) = some (.file id) →
      fs'.linkCount (.file id) = fs.linkCount (.file id))
    (hhandles : fs'.handles = fs.handles) (lock : Lock) :
    fs'.granted (Path.join path name) lock = fs.granted (Path.join path name) lock := by
  have hunder : fs'.under path location name = fs.under path location name := by
    unfold under
    rw [htree]
  have hlockable : ∀ id, fs'.lockable id lock = fs.lockable id lock := by
    intro id
    unfold lockable locksOn
    rw [hhandles]
  unfold granted
  rw [openNode_join h' hn, openNode_join h hn, hunder]
  rcases hfound : fs.under path location name with cause | _ | _ | _ | id
  · rfl
  · rfl
  · rfl
  · rfl
  · simp only [hlinks id (under_eq_ok_iff.mp hfound).2, hlockable]

/-- That one entry goes that had only this name decides nothing about the others. -/
theorem granted_unbind (h : fs.Leads path location) (hn : Path.IsName name)
    (hget : fs.tree.get? (location.child gone) = some (.file id))
    (hsingle : fs.linkCount (.file id) ≤ 1) (hne : name ≠ gone) (lock : Lock) :
    (fs.spent.unbind (location.child gone)).granted (Path.join path name) lock =
      fs.granted (Path.join path name) lock := by
  have hcalm : fs.Calm location (fs.spent.unbind (location.child gone)) :=
    (Calm.spent location fs).trans (.unbind hget)
  have hplace : location.child name ≠ location.child gone :=
    fun e => hne (Location.child_inj.mp e).2
  refine granted_congr h (hcalm.leads h) hn (Table.get?_erase_ne _ hplace) (fun other hother => ?_)
    rfl lock
  -- a file under both names would have two
  have hfile : fs.tree.get? (location.child gone) ≠ some (.file other) := by
    intro e
    have htwo := two_le_linkCount hplace hother e
    rw [hget] at e
    cases e
    omega
  exact linkCount_unbind_of_ne hfile

/-- That an identity is given out decides nothing about locks. -/
theorem granted_spent (h : fs.Leads path location) (hn : Path.IsName name) (lock : Lock) :
    fs.spent.granted (Path.join path name) lock = fs.granted (Path.join path name) lock :=
  granted_congr h h.spent hn rfl (fun _ _ => rfl) rfl lock

/-- Whether an entry can be locked for eviction. -/
def evictable (fs : FileSystem) (path : Path) (entry : Entry) : Bool :=
  match fs.granted (Path.join path (Path.ofText entry.name)) .exclusive with
  | .ok _ => true
  | .error _ => false

/-- An entry can be evicted if it can be locked exclusively. -/
theorem evictable_iff {entry : Entry} :
    fs.evictable path entry = true ↔
      ∃ id, fs.granted (Path.join path (Path.ofText entry.name)) .exclusive = .ok id := by
  unfold evictable
  cases fs.granted (Path.join path (Path.ofText entry.name)) .exclusive <;> simp

/-- The entries of a directory that can be evicted, in the order in which they are. -/
def candidates (fs : FileSystem) (path : Path) (location : Location) : List Entry :=
  (Entry.inOrder (fs.entriesIn location)).filter (fs.evictable path)

/-- Candidates are the entries that can be evicted. -/
theorem mem_candidates {entry : Entry} :
    entry ∈ fs.candidates path location ↔
      entry ∈ fs.entriesIn location ∧ fs.evictable path entry = true := by
  unfold candidates
  rw [List.mem_filter, Entry.mem_inOrder]

/-- No two candidates have the same name. -/
theorem pairwise_candidates (fs : FileSystem) (path : Path) (location : Location) :
    (fs.candidates path location).Pairwise fun a b => a.name ≠ b.name :=
  (Entry.pairwise_inOrder (fs.pairwise_entriesIn location)).filter _

/-- Whether an entry can be locked and removed by a host with these faults. -/
def removable (fs : FileSystem) (faults : Faults) (path : Path) (entry : Entry) : Bool :=
  faults.allowsEviction (Path.ofText entry.name) && fs.evictable path entry

/-- Entries that can be locked as before can be removed as before. -/
theorem filter_removable_congr {fs' : FileSystem} (faults : Faults) {entries : List Entry}
    (h : ∀ entry ∈ entries, fs'.granted (Path.join path (Path.ofText entry.name)) .exclusive =
      fs.granted (Path.join path (Path.ofText entry.name)) .exclusive) :
    entries.filter (fs'.removable faults path) = entries.filter (fs.removable faults path) := by
  refine List.filter_congr fun entry hmem => ?_
  unfold removable evictable
  rw [h entry hmem]

/-- The entries of a directory that a host with these faults can evict, in the order in which they
are. -/
def removables (fs : FileSystem) (faults : Faults) (path : Path) (location : Location) :
    List Entry :=
  (fs.candidates path location).filter fun entry =>
    faults.allowsEviction (Path.ofText entry.name)

/-- They are those of all entries that can be locked and removed. -/
theorem removables_eq (faults : Faults) :
    fs.removables faults path location =
      (Entry.inOrder (fs.entriesIn location)).filter (fs.removable faults path) := by
  unfold removables candidates removable
  rw [List.filter_filter]

/-- A host without faults can evict whatever can be locked. -/
theorem removables_none : fs.removables .none path location = fs.candidates path location := by
  unfold removables
  simp only [Faults.allowsEviction_none, List.filter_true]

/-- They are some of those that can be locked. -/
theorem removables_sublist (faults : Faults) :
    (fs.removables faults path location).Sublist (Entry.inOrder (fs.entriesIn location)) :=
  List.filter_sublist.trans List.filter_sublist

end granting

end FileSystem

namespace Cache

variable {location : Location} {path : Path} {m : Machine} {faults : Faults}

/-! ## Evicting -/

/-- An entry that cannot be locked or removed is passed over, and only locking it may have used up
an identity. Any other entry is evicted and counted. -/
theorem evictFrom_step (faults : Faults) (hwf : m.fs.WellFormed) (hlead : m.fs.Leads path location)
    {entry : Entry} (hentry : entry ∈ m.fs.entriesIn location) (needed freed : Nat) :
    (m.fs.removable faults path entry = false ∧
        ∃ m', (m'.fs = m.fs ∨ m'.fs = m.fs.spent ∧ faults.remove ≠ []) ∧
          ∀ rest, evictFrom (Machine.faultyHost faults) path needed (entry :: rest) freed m =
            evictFrom (Machine.faultyHost faults) path needed rest freed m') ∨
      m.fs.removable faults path entry = true ∧
        ∃ id, m.fs.tree.get? (location.child (Path.ofText entry.name)) = some (.file id) ∧
          m.fs.linkCount (.file id) ≤ 1 ∧
          ∀ rest, evictFrom (Machine.faultyHost faults) path needed (entry :: rest) freed m =
            if needed ≤ freed + entry.size then
              (freed + entry.size, m.evicting location entry id)
            else
              evictFrom (Machine.faultyHost faults) path needed rest (freed + entry.size)
                (m.evicting location entry id) := by
  obtain ⟨id, hget, hlisted⟩ := FileSystem.mem_entriesIn.mp hentry
  have hname : Path.IsName (Path.ofText entry.name) := (hwf.named _ _ _ hget).1
  have hstep := evictFrom_faulty_cons faults hwf hlead hname needed freed
  simp only [Faults.granted, Faults.lastName_join path hname] at hstep
  unfold FileSystem.removable Faults.allowsEviction FileSystem.evictable
  by_cases hbarred : faults.openExclusive.contains (Path.ofText entry.name) = true
  · simp only [if_pos hbarred] at hstep
    exact Or.inl ⟨by rw [hbarred]; rfl, m.noting _, Or.inl rfl, hstep⟩
  simp only [if_neg hbarred] at hstep
  rcases hgranted : m.fs.granted (Path.join path (Path.ofText entry.name)) .exclusive with
    error | found <;> simp only [hgranted] at hstep
  · exact Or.inl ⟨Bool.and_false _, m.noting _, Or.inl rfl, hstep⟩
  by_cases hkept : faults.remove.contains (Path.ofText entry.name) = true
  · simp only [if_pos hkept] at hstep
    refine Or.inl ⟨by rw [hkept, Bool.not_true, Bool.and_false]; rfl,
      (m.withFiles m.fs.spent).noting _, Or.inr ⟨rfl, fun hnil => ?_⟩, hstep⟩
    rw [hnil] at hkept
    cases hkept
  · obtain ⟨-, hfound, hsingle, -⟩ := (FileSystem.granted_eq_ok_iff hlead hname).mp hgranted
    obtain rfl : found = id := by
      rw [hget] at hfound
      exact (Node.file.inj (Option.some.inj hfound)).symm
    have hsize : entry.size = (m.fs.contents found).length := congrArg Entry.size hlisted
    simp only [if_neg hkept, ← hsize] at hstep
    exact Or.inr ⟨by simpa using And.intro hbarred hkept, found, hget, hsingle, hstep⟩

/-- An entry is still listed after another one was evicted. -/
theorem mem_entriesIn_evicting {entry other : Entry} (h : other ∈ m.fs.entriesIn location)
    (hne : Path.ofText other.name ≠ Path.ofText entry.name) (id : FileId) :
    other ∈ (m.evicting location entry id).fs.entriesIn location := by
  obtain ⟨otherId, hget, hother⟩ := FileSystem.mem_entriesIn.mp h
  exact FileSystem.mem_entriesIn.mpr
    ⟨otherId, (get?_evicting_ne (fun e => hne (congrArg Path.ofText e)) id).trans hget, hother⟩

/-- An eviction takes the first of the entries that it can lock and remove, as many as it needs, and
gives the bytes that they took. -/
theorem evictFrom_eq_victims (faults : Faults) (hwf : m.fs.WellFormed)
    (hlead : m.fs.Leads path location)
    {entries : List Entry} (hentries : ∀ entry ∈ entries, entry ∈ m.fs.entriesIn location)
    (hdistinct : entries.Pairwise fun a b => a.name ≠ b.name) (needed freed : Nat)
    {gone : List Entry}
    (hgone : gone = Entry.victims (needed - freed) (entries.filter (m.fs.removable faults path))) :
    ∃ next, (evictFrom (Machine.faultyHost faults) path needed entries freed m).1 =
        freed + Entry.totalSize gone ∧
      (evictFrom (Machine.faultyHost faults) path needed entries freed m).2.fs =
        (m.fs.without location gone).usedUpTo next ∧
      m.fs.next + gone.length ≤ next ∧
      (faults.remove = [] → next = m.fs.next + gone.length) := by
  induction entries generalizing m freed gone with
  | nil =>
      subst hgone
      exact ⟨m.fs.next, rfl, by rw [List.filter_nil, Entry.victims, FileSystem.without_nil]; rfl,
        Nat.le_refl _, fun _ => rfl⟩
  | cons entry rest ih =>
      obtain ⟨hother, hrest⟩ := List.pairwise_cons.mp hdistinct
      have hremaining : ∀ other ∈ rest, other ∈ m.fs.entriesIn location :=
        fun other hmem => hentries other (List.mem_cons_of_mem _ hmem)
      have hnames : ∀ other ∈ rest, Path.IsName (Path.ofText other.name) := by
        intro other hmem
        obtain ⟨_, hget, -⟩ := FileSystem.mem_entriesIn.mp (hremaining other hmem)
        exact (hwf.named _ _ _ hget).1
      rcases evictFrom_step faults hwf hlead (hentries entry List.mem_cons_self) needed freed with
        ⟨hno, m', hfs, hstep⟩ | ⟨hyes, id, hget, hsingle, hstep⟩
      · rw [List.filter_cons_of_neg (by simp [hno])] at hgone
        rw [hstep]
        rcases hfs with hfs | ⟨hfs, hfaulty⟩
        · have h := ih (m := m') (hfs ▸ hwf) (hfs ▸ hlead) (hfs ▸ hremaining) hrest freed
            (hfs ▸ hgone)
          rwa [hfs] at h
        · have hsame : rest.filter (m'.fs.removable faults path) =
              rest.filter (m.fs.removable faults path) :=
            FileSystem.filter_removable_congr faults fun other hmem =>
              hfs ▸ FileSystem.granted_spent hlead (hnames other hmem) .exclusive
          obtain ⟨next, hfreed, hafter, hnext, -⟩ := ih (m := m') (hfs ▸ hwf.spent)
            (hfs ▸ hlead.spent) (hfs ▸ hremaining) hrest freed (hsame ▸ hgone)
          refine ⟨next, hfreed, ?_, ?_, fun hnil => absurd hnil hfaulty⟩
          · rw [hafter, hfs]
            rfl
          · rw [hfs] at hnext
            exact Nat.le_trans (Nat.add_le_add_right (Nat.le_succ _) _) hnext
      · rw [List.filter_cons_of_pos hyes] at hgone
        rw [hstep]
        have hcalm : m.fs.Calm location (m.evicting location entry id).fs :=
          (FileSystem.Calm.spent location m.fs).trans (.unbind hget)
        by_cases henough : needed ≤ freed + entry.size
        · rw [Entry.victims_cons_of_le (by omega)] at hgone
          subst hgone
          rw [if_pos henough, FileSystem.without_cons, FileSystem.without_nil]
          exact ⟨_, rfl, rfl, Nat.le_refl _, fun _ => rfl⟩
        · rw [Entry.victims_cons_of_lt (by omega), Nat.sub_sub] at hgone
          subst hgone
          have hne : ∀ other ∈ rest, Path.ofText other.name ≠ Path.ofText entry.name :=
            fun other hmem e => hother other hmem (Utf8.encode_injective e).symm
          have hsame : rest.filter ((m.evicting location entry id).fs.removable faults path) =
              rest.filter (m.fs.removable faults path) :=
            FileSystem.filter_removable_congr faults fun other hmem =>
              FileSystem.granted_unbind hlead (hnames other hmem) hget hsingle (hne other hmem)
                .exclusive
          obtain ⟨next, hfreed, hafter, hnext, hplain⟩ := ih (hcalm.wellFormed hwf)
            (hcalm.leads hlead)
            (fun other hmem => mem_entriesIn_evicting (hremaining other hmem) (hne other hmem) id)
            hrest (freed + entry.size) (congrArg _ hsame.symm)
          have hlength : (m.evicting location entry id).fs.next = m.fs.next + 1 := rfl
          rw [if_neg henough, FileSystem.without_cons, Entry.totalSize_cons, ← Nat.add_assoc,
            List.length_cons]
          refine ⟨next, hfreed, hafter, by omega, fun hnil => ?_⟩
          have hnext := hplain hnil
          omega

/-- An eviction takes the shortest front part of the entries that can be locked and removed that is
large enough. -/
theorem evict_eq_victims_of_truthful (htrue : faults.Truthful) (hwf : m.fs.WellFormed)
    (hlead : m.fs.Leads path location) (needed : Nat) :
    ∃ next, (evict (Machine.faultyHost faults) path needed m).1 =
        Entry.totalSize (Entry.victims needed (m.fs.removables faults path location)) ∧
      (evict (Machine.faultyHost faults) path needed m).2.fs =
        (m.fs.without location
          (Entry.victims needed (m.fs.removables faults path location))).usedUpTo next ∧
      m.fs.next + (Entry.victims needed (m.fs.removables faults path location)).length ≤ next ∧
      (faults.remove = [] →
        next = m.fs.next +
          (Entry.victims needed (m.fs.removables faults path location)).length) := by
  obtain ⟨next, h⟩ := evictFrom_eq_victims faults hwf hlead
    (fun _ hmem => Entry.mem_inOrder.mp hmem)
    (Entry.pairwise_inOrder (m.fs.pairwise_entriesIn location)) needed 0 rfl
  rw [Nat.zero_add, Nat.sub_zero, ← FileSystem.removables_eq] at h
  refine ⟨next, ?_⟩
  unfold evict
  rw [Machine.run_bind, entriesOf_truthful htrue, entriesOf_eq hlead]
  exact h

/-- Where nothing is refused these are all that can be locked, and only taking them has used up
identities. -/
theorem evict_eq_victims (hwf : m.fs.WellFormed) (hlead : m.fs.Leads path location)
    (needed : Nat) :
    (evict Machine.host path needed m).1 =
        Entry.totalSize (Entry.victims needed (m.fs.candidates path location)) ∧
      (evict Machine.host path needed m).2.fs =
        m.fs.without location (Entry.victims needed (m.fs.candidates path location)) := by
  obtain ⟨next, hfreed, hfs, -, hnext⟩ :=
    evict_eq_victims_of_truthful Faults.truthful_none hwf hlead needed
  rw [Machine.faultyHost_none, FileSystem.removables_none] at hfreed hfs
  rw [FileSystem.removables_none] at hnext
  refine ⟨hfreed, hfs.trans ?_⟩
  rw [hnext rfl]
  rfl

/-! ## Making room -/

/-- The entries that make way for `added` bytes in a budget. -/
def makingWay (fs : FileSystem) (path : Path) (location : Location) (budget added : Nat) :
    List Entry :=
  let total := Entry.totalSize (fs.entriesIn location)
  if total + added ≤ budget then []
  else Entry.victims (total + added - budget) (fs.candidates path location)

/-- What makes way is among the candidates. -/
theorem mem_candidates_of_mem_makingWay {fs : FileSystem} {budget added : Nat} {entry : Entry}
    (h : entry ∈ makingWay fs path location budget added) :
    entry ∈ fs.candidates path location := by
  unfold makingWay at h
  simp only at h
  split at h
  · cases h
  · exact Entry.victims_subset _ _ h

/-- Room is made by the entries that make way, and by nothing else. -/
theorem makeRoom_eq_makingWay (hwf : m.fs.WellFormed) (hlead : m.fs.Leads path location)
    (budget added : Nat) :
    (makeRoom Machine.host path budget added m).1 =
        Entry.totalSize (m.fs.entriesIn location) -
          Entry.totalSize (makingWay m.fs path location budget added) ∧
      (makeRoom Machine.host path budget added m).2.fs =
        m.fs.without location (makingWay m.fs path location budget added) := by
  rw [makeRoom_eq hlead]
  unfold makingWay
  simp only
  split
  · exact ⟨rfl, (FileSystem.without_nil _ _).symm⟩
  · obtain ⟨hfreed, hfs⟩ := evict_eq_victims hwf hlead
      (Entry.totalSize (m.fs.entriesIn location) + added - budget)
    exact ⟨by rw [hfreed], hfs⟩

/-- An entry makes way if it can be evicted and if, with all that go before it out of the way, the
rest would still be too much. -/
theorem mem_makingWay_iff {fs : FileSystem} {entry : Entry}
    (hmem : entry ∈ fs.entriesIn location) (path : Path) (budget added : Nat) :
    entry ∈ makingWay fs path location budget added ↔
      fs.evictable path entry = true ∧
        budget + Entry.totalSize ((fs.candidates path location).takeWhile
            fun other => other.name ≠ entry.name) <
          Entry.totalSize (fs.entriesIn location) + added := by
  unfold makingWay
  simp only
  by_cases hcandidate : fs.evictable path entry = true
  · have hin := FileSystem.mem_candidates.mpr ⟨hmem, hcandidate⟩
    by_cases hfits : Entry.totalSize (fs.entriesIn location) + added ≤ budget
    · rw [if_pos hfits]
      simp only [List.not_mem_nil, hcandidate, true_and, false_iff, Nat.not_lt]
      omega
    · rw [if_neg hfits, Entry.mem_victims_iff (fs.pairwise_candidates path location) hin (by omega)]
      simp only [hcandidate, true_and]
      omega
  · refine iff_of_false (fun h => ?_) fun h => hcandidate h.1
    split at h
    · cases h
    · exact hcandidate (FileSystem.mem_candidates.mp (Entry.victims_subset _ _ h)).2

end Cache

end BlobCache
