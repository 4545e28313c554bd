import BlobCache.Proofs.BudgetRuns
import BlobCache.Proofs.Finding
import BlobCache.Proofs.Keeping
import Mathlib.Data.List.Pairwise

/-!
# Eviction in the order of use

Which entries go when room is made is settled by the directory, the locks and the number of bytes
that are needed.

* `FileSystem.evictables`: the entries that can be evicted, least recently used first. It says
  outright what they are: files with one name and no locks, under paths that are not too long. They
  are those that the program finds it can lock (`candidates_eq_evictables`).
* `Entry.IsShortestFront`: what an eviction is to take of them.
* `FileSystem.evicted`: what it has taken, read off the names before and after.
* `Cache.evicts_by_use`: `evict`, `trim` and `set` take the one for the other, and where they stop
  short of the budget nothing is left that could be evicted.
-/

namespace BlobCache

/-! ## The order of use -/

namespace Entry

variable {a b c : Entry} {entries front : List Entry} {needed : Nat}

/-- Entries come in the order of their times of access, and of their names where the times are the
same. -/
theorem before_iff :
    a.before b = true ↔
      a.accessed < b.accessed ∨
        a.accessed = b.accessed ∧ Utf8.encode a.name ≤ Utf8.encode b.name := by
  simp [before]

/-- The order of use is transitive. -/
theorem before_trans (hab : a.before b = true) (hbc : b.before c = true) : a.before c = true := by
  rw [before_iff] at hab hbc ⊢
  rcases hab with hab | ⟨hab, hname⟩
  · rcases hbc with hbc | ⟨hbc, -⟩
    · exact Or.inl (Int.lt_trans hab hbc)
    · exact Or.inl (hbc ▸ hab)
  · rcases hbc with hbc | ⟨hbc, hname'⟩
    · exact Or.inl (hab ▸ hbc)
    · exact Or.inr ⟨hab.trans hbc, List.le_trans hname hname'⟩

/-- Of two entries one comes first. -/
theorem before_total (a b : Entry) : (a.before b || b.before a) = true := by
  rw [Bool.or_eq_true, before_iff, before_iff]
  rcases Int.lt_trichotomy a.accessed b.accessed with hlt | heq | hgt
  · exact Or.inl (Or.inl hlt)
  · rcases List.le_total (Utf8.encode a.name) (Utf8.encode b.name) with hle | hle
    · exact Or.inl (Or.inr ⟨heq, hle⟩)
    · exact Or.inr (Or.inr ⟨heq.symm, hle⟩)
  · exact Or.inr (Or.inl hgt)

/-- Entries that come before each other have the same name. -/
theorem before_antisymm (hab : a.before b = true) (hba : b.before a = true) : a.name = b.name := by
  rw [before_iff] at hab hba
  rcases hab with hab | ⟨hab, hname⟩
  · rcases hba with hba | ⟨hba, -⟩ <;> omega
  · rcases hba with hba | ⟨-, hname'⟩
    · omega
    · exact Utf8.encode_injective (List.le_antisymm hname hname')

/-- No entry is listed before one that was used earlier. -/
theorem sorted_inOrder (entries : List Entry) :
    (inOrder entries).Pairwise fun a b => a.before b = true := by
  unfold inOrder
  refine List.pairwise_mergeSort ?_ before_total entries
  exact fun _ _ _ => before_trans

/-- There is one order of use for entries with different names. -/
theorem eq_of_perm {other : List Entry} (hperm : entries.Perm other)
    (hdistinct : entries.Pairwise fun a b => a.name ≠ b.name)
    (hsorted : entries.Pairwise fun a b => a.before b = true)
    (hsorted' : other.Pairwise fun a b => a.before b = true) : entries = other := by
  have : Std.Symm fun a b : Entry => a.name ≠ b.name := ⟨fun _ _ h => h.symm⟩
  refine hperm.eq_of_pairwise (fun a b ha hb hab hba => ?_) hsorted hsorted'
  by_contra hne
  exact hdistinct.forall ha (hperm.mem_iff.mpr hb) hne (before_antisymm hab hba)

/-- Two lists in the order of use that have the same entries are the same. -/
theorem eq_of_mem_iff {other : List Entry}
    (hdistinct : entries.Pairwise fun a b => a.name ≠ b.name)
    (hdistinct' : other.Pairwise fun a b => a.name ≠ b.name)
    (hsorted : entries.Pairwise fun a b => a.before b = true)
    (hsorted' : other.Pairwise fun a b => a.before b = true)
    (hmem : ∀ entry, entry ∈ entries ↔ entry ∈ other) : entries = other := by
  refine eq_of_perm ?_ hdistinct hsorted hsorted'
  exact (List.perm_ext_iff_of_nodup (nodup_of_distinct hdistinct)
    (nodup_of_distinct hdistinct')).mpr hmem

/-! ## Shortest front parts -/

/-- These are the first of the entries, just as many as take so many bytes, or all of them. -/
structure IsShortestFront (needed : Nat) (front entries : List Entry) : Prop where
  /-- They stand at the front. -/
  isFront : front <+: entries
  /-- They take so many bytes, unless they are all. -/
  enough : needed ≤ totalSize front ∨ front = entries
  /-- Fewer would not do. -/
  least : ∀ shorter, shorter <+: entries → shorter.length < front.length →
    totalSize shorter < needed

namespace IsShortestFront

/-- Without the last one it would not be enough. -/
theorem dropLast_lt (h : IsShortestFront needed front entries) (hne : front ≠ []) :
    totalSize front.dropLast < needed := by
  refine h.least _ ((List.dropLast_prefix front).trans h.isFront) ?_
  rw [List.length_dropLast]
  exact Nat.sub_lt (List.length_pos_iff.mpr hne) Nat.one_pos

/-- What was used after an entry that is large enough by itself is not taken. -/
theorem not_mem_of_before (h : IsShortestFront needed front entries)
    (hsorted : entries.Pairwise fun a b => a.before b = true ∧ a.name ≠ b.name)
    (ha : a ∈ entries) (hb : b ∈ entries) (hbefore : a.before b = true) (hne : a.name ≠ b.name)
    (hlarge : needed ≤ a.size) : b ∉ front := by
  intro hmem
  obtain ⟨early, late, rfl⟩ := List.append_of_mem hmem
  obtain ⟨rest, hrest⟩ := h.isFront
  rw [List.append_assoc] at hrest
  -- the entries before `b` are a shorter front part, and `a` is one of them
  have hshort := h.least early ⟨_, hrest⟩ (by simp)
  rw [← hrest] at hsorted ha
  have hearly : a ∈ early := by
    rcases List.mem_append.mp ha with hin | hin
    · exact hin
    · rcases List.mem_cons.mp hin with rfl | hin
      · exact absurd rfl hne
      · have hafter := (List.pairwise_cons.mp (List.pairwise_append.mp hsorted).2.1).1 a hin
        exact absurd (before_antisymm hbefore hafter.1) hne
  obtain ⟨before, after, rfl⟩ := List.append_of_mem hearly
  rw [totalSize_append, totalSize_cons] at hshort
  omega

/-- If no bytes are needed none is taken. -/
theorem nil (entries : List Entry) : IsShortestFront 0 [] entries where
  isFront := List.nil_prefix
  enough := Or.inl (Nat.le_refl 0)
  least _ _ hlt := absurd hlt (Nat.not_lt_zero _)

end IsShortestFront

/-- Victims are the shortest front part that is large enough. -/
theorem isShortestFront_victims (hneeded : 0 < needed) (entries : List Entry) :
    IsShortestFront needed (victims needed entries) entries := by
  induction entries generalizing needed with
  | nil => exact ⟨List.nil_prefix, Or.inr rfl, fun _ _ hlt => absurd hlt (Nat.not_lt_zero _)⟩
  | cons entry rest ih =>
      -- a front part that is not empty begins with the first entry
      rcases Nat.lt_or_ge entry.size needed with hlt | hle
      · rw [victims_cons_of_lt hlt]
        have hrest := ih (Nat.sub_pos_of_lt hlt)
        refine ⟨List.cons_prefix_cons.mpr ⟨rfl, hrest.isFront⟩, ?_, fun shorter hfront hshort => ?_⟩
        · rcases hrest.enough with henough | hall
          · rw [totalSize_cons]
            exact Or.inl (by omega)
          · exact Or.inr (by rw [hall])
        · rcases List.prefix_cons_iff.mp hfront with rfl | ⟨tail, rfl, htail⟩
          · exact hneeded
          · have := hrest.least tail htail (Nat.lt_of_succ_lt_succ hshort)
            rw [totalSize_cons]
            omega
      · rw [victims_cons_of_le hle]
        refine ⟨List.cons_prefix_cons.mpr ⟨rfl, List.nil_prefix⟩, Or.inl ?_, ?_⟩
        · rw [totalSize_cons]
          exact Nat.le_add_right_of_le hle
        · intro shorter _ hshort
          have hnil : shorter = [] := List.length_eq_zero_iff.mp (Nat.lt_one_iff.mp hshort)
          rw [hnil]
          exact hneeded

/-- Those at the front of a sorted list were used before those that follow. -/
theorem before_of_front (hsorted : entries.Pairwise fun a b => a.before b = true)
    (hfront : front <+: entries) (ha : a ∈ front) (hb : b ∈ entries) (hnot : b ∉ front) :
    a.before b = true := by
  obtain ⟨rest, rfl⟩ := hfront
  exact (List.pairwise_append.mp hsorted).2.2 a ha b ((List.mem_append.mp hb).resolve_left hnot)

end Entry

namespace FileSystem

variable {fs fs' : FileSystem} {path : Path} {location : Location} {gone : List Entry}
  {entry : Entry} {id : FileId}

/-! ## What can be evicted -/

/-- The entries of a directory that have one name and that no handle has locked, in the order of
use. -/
def unheld (fs : FileSystem) (directory : Location) : List Entry :=
  (Entry.inOrder (fs.entriesIn directory)).filter fun entry =>
    match fs.tree.get? (placeOf directory entry) with
    | some (.file id) => fs.linkCount (.file id) = 1 ∧ fs.locksOn id = []
    | _ => false

/-- Those of them that can be reached by the path of the directory: the path of the entry is not too
long as a whole. -/
def evictables (fs : FileSystem) (path : Path) (location : Location) : List Entry :=
  (fs.unheld location).filter fun entry =>
    (Path.join path (Path.ofText entry.name)).length < pathLimit

/-- What is unheld is one file with one name and no locks. -/
theorem mem_unheld :
    entry ∈ fs.unheld location ↔
      ∃ id, fs.tree.get? (placeOf location entry) = some (.file id) ∧
        entry = fs.entryUnder entry.name id ∧ fs.linkCount (.file id) = 1 ∧
        fs.locksOn id = [] := by
  unfold unheld
  rw [List.mem_filter, Entry.mem_inOrder, mem_entriesIn]
  constructor
  · rintro ⟨⟨id, hget, hentry⟩, hfree⟩
    have hplace : fs.tree.get? (placeOf location entry) = some (.file id) := hget
    rw [hplace] at hfree
    exact ⟨id, hget, hentry, by simpa using hfree⟩
  · rintro ⟨id, hget, hentry, hfree⟩
    exact ⟨⟨id, hget, hentry⟩, by rw [hget]; simpa using hfree⟩

/-- An entry can be evicted if it is unheld and its path is not too long. -/
theorem mem_evictables :
    entry ∈ fs.evictables path location ↔
      ∃ id, fs.tree.get? (placeOf location entry) = some (.file id) ∧
        entry = fs.entryUnder entry.name id ∧ fs.linkCount (.file id) = 1 ∧
        fs.locksOn id = [] ∧ (Path.join path (Path.ofText entry.name)).length < pathLimit := by
  unfold evictables
  rw [List.mem_filter, mem_unheld]
  constructor
  · rintro ⟨⟨id, hget, hentry, hsingle, hfree⟩, hshort⟩
    exact ⟨id, hget, hentry, hsingle, hfree, by simpa using hshort⟩
  · rintro ⟨id, hget, hentry, hsingle, hfree, hshort⟩
    exact ⟨⟨id, hget, hentry, hsingle, hfree⟩, by simpa using hshort⟩

/-- The entries that the program can lock are the evictable ones. -/
theorem candidates_eq_evictables (hwf : fs.WellFormed) (hlead : fs.Leads path location) :
    fs.candidates path location = fs.evictables path location := by
  unfold candidates evictables unheld
  rw [List.filter_filter]
  refine List.filter_congr fun entry hmem => ?_
  obtain ⟨id, hget, -⟩ := mem_entriesIn.mp (Entry.mem_inOrder.mp hmem)
  obtain ⟨hname, hlength⟩ := hwf.named _ _ _ hget
  have hplace : fs.tree.get? (placeOf location entry) = some (.file id) := hget
  have hone := one_le_linkCount hplace
  rw [Bool.eq_iff_iff, evictable_iff, hplace]
  simp only [granted_eq_ok_iff hlead hname, lockable_exclusive_iff, Fits, Bool.and_eq_true,
    decide_eq_true_eq]
  constructor
  · rintro ⟨found, hfit, hfound, hlinks, hlock⟩
    obtain rfl : id = found := by simpa [hget] using hfound
    exact ⟨hfit.1, by omega, hlock⟩
  · rintro ⟨hshort, hsingle, hfree⟩
    exact ⟨id, ⟨hshort, hlength⟩, hget, by omega, hfree⟩

/-- Evictable entries are in the order of use, each of them once. -/
theorem sorted_evictables (fs : FileSystem) (path : Path) (location : Location) :
    (fs.evictables path location).Pairwise fun a b => a.before b = true ∧ a.name ≠ b.name := by
  have hdistinct := Entry.pairwise_inOrder (fs.pairwise_entriesIn location)
  exact ((Entry.sorted_inOrder _).and hdistinct).filter _ |>.filter _

/-- They are in the order in which all entries are. -/
theorem evictables_sublist (fs : FileSystem) (path : Path) (location : Location) :
    (fs.evictables path location).Sublist (Entry.inOrder (fs.entriesIn location)) :=
  List.filter_sublist.trans List.filter_sublist

/-- An evictable entry is one of the directory. -/
theorem mem_entriesIn_of_mem_evictables (h : entry ∈ fs.evictables path location) :
    entry ∈ fs.entriesIn location :=
  Entry.mem_inOrder.mp ((fs.evictables_sublist path location).subset h)

/-- So is one of a front part of them. -/
theorem mem_entriesIn_of_front {needed : Nat}
    (hfront : Entry.IsShortestFront needed gone (fs.evictables path location)) :
    ∀ entry ∈ gone, entry ∈ fs.entriesIn location :=
  fun _ hmem => mem_entriesIn_of_mem_evictables (hfront.isFront.subset hmem)

/-- No entry is in a front part twice. -/
theorem nodup_of_front {needed : Nat}
    (hfront : Entry.IsShortestFront needed gone (fs.evictables path location)) : gone.Nodup :=
  (Entry.nodup_of_distinct ((fs.sorted_evictables path location).imp And.right)).sublist
    hfront.isFront.sublist

/-- Entries of a directory with one name are one entry. -/
theorem eq_of_name_eq {other : Entry} (h : entry ∈ fs.entriesIn location)
    (h' : other ∈ fs.entriesIn location) (hname : entry.name = other.name) : entry = other := by
  obtain ⟨id, hget, hentry⟩ := mem_entriesIn.mp h
  obtain ⟨id', hget', hother⟩ := mem_entriesIn.mp h'
  rw [hname, hget'] at hget
  cases hget
  rw [hentry, hother, hname]

/-! ## What was evicted -/

/-- The entries of a directory whose names have come to stand for something else or for nothing, in
the order of use. -/
def evicted (fs fs' : FileSystem) (directory : Location) : List Entry :=
  (Entry.inOrder (fs.entriesIn directory)).filter fun entry =>
    fs'.tree.get? (placeOf directory entry) ≠ fs.tree.get? (placeOf directory entry)

/-- Evicted is what stood under a name that has changed. -/
theorem mem_evicted :
    entry ∈ fs.evicted fs' location ↔ entry ∈ fs.entriesIn location ∧
      fs'.tree.get? (placeOf location entry) ≠ fs.tree.get? (placeOf location entry) := by
  unfold evicted
  rw [List.mem_filter, Entry.mem_inOrder, decide_eq_true_eq]

/-- What has gone is listed in the order of use. -/
theorem evicted_eq (hgone : gone.Sublist (Entry.inOrder (fs.entriesIn location)))
    (hchanged : ∀ entry ∈ fs.entriesIn location,
      fs'.tree.get? (placeOf location entry) ≠ fs.tree.get? (placeOf location entry) ↔
        entry ∈ gone) : fs.evicted fs' location = gone := by
  have hsub : (fs.evicted fs' location).Sublist (Entry.inOrder (fs.entriesIn location)) :=
    List.filter_sublist
  have hdistinct := Entry.pairwise_inOrder (fs.pairwise_entriesIn location)
  have hsorted := Entry.sorted_inOrder (fs.entriesIn location)
  refine Entry.eq_of_mem_iff (hdistinct.sublist hsub) (hdistinct.sublist hgone)
    (hsorted.sublist hsub) (hsorted.sublist hgone) fun entry => ?_
  rw [mem_evicted]
  constructor
  · rintro ⟨hin, hdiffers⟩
    exact (hchanged entry hin).mp hdiffers
  · intro hin
    have hlisted := Entry.mem_inOrder.mp (hgone.subset hin)
    exact ⟨hlisted, (hchanged entry hlisted).mpr hin⟩

/-- So many bytes were to be freed, and for that the entries used first had to go. -/
structure EvictsInTurn (fs fs' : FileSystem) (path : Path) (location : Location) (needed : Nat) :
    Prop where
  /-- What has gone is the shortest front part of the evictable entries that is large enough. -/
  shortest : Entry.IsShortestFront needed (fs.evicted fs' location) (fs.evictables path location)
  /-- Nothing has gone that was used later than an evictable entry that was spared. -/
  older : ∀ lost ∈ fs.evicted fs' location, ∀ spared ∈ fs.evictables path location,
    spared ∉ fs.evicted fs' location → lost.before spared = true
  /-- Without the last of them it would not have been enough. -/
  last_needed : fs.evicted fs' location ≠ [] →
    Entry.totalSize (fs.evicted fs' location).dropLast < needed

/-- Entries went in turn, and nothing else has happened. -/
structure Evicts (fs fs' : FileSystem) (path : Path) (location : Location) (needed freed : Nat) :
    Prop extends EvictsInTurn fs fs' path location needed where
  /-- The bytes that were counted are those that the entries took. -/
  freed_eq : freed = Entry.totalSize (fs.evicted fs' location)
  /-- The name of an evicted entry stands for nothing any more. -/
  vacant : ∀ lost ∈ fs.evicted fs' location, fs'.tree.get? (placeOf location lost) = none
  /-- Every other name stands for what it stood for. -/
  spared : ∀ place, (∀ lost ∈ fs.evicted fs' location, place ≠ placeOf location lost) →
    fs'.tree.get? place = fs.tree.get? place
  /-- No file was written. -/
  files_eq : fs'.files = fs.files
  /-- No handle has come or gone. -/
  handles_eq : fs'.handles = fs.handles

/-- Entries go in turn where just the shortest front part of them goes. -/
theorem evictsInTurn_of_changed {needed : Nat}
    (hfront : Entry.IsShortestFront needed gone (fs.evictables path location))
    (hchanged : ∀ entry ∈ fs.entriesIn location,
      fs'.tree.get? (placeOf location entry) ≠ fs.tree.get? (placeOf location entry) ↔
        entry ∈ gone) :
    fs.evicted fs' location = gone ∧ fs.EvictsInTurn fs' path location needed := by
  have heq : fs.evicted fs' location = gone :=
    evicted_eq (hfront.isFront.sublist.trans (evictables_sublist fs path location)) hchanged
  refine ⟨heq, ?_⟩
  constructor <;> rw [heq]
  · exact hfront
  · intro lost hlost spared hspared hnot
    exact Entry.before_of_front ((sorted_evictables fs path location).imp And.left)
      hfront.isFront hlost hspared hnot
  · exact hfront.dropLast_lt

/-! ## Once entries have gone -/

/-- Entries with different names are in different places. -/
theorem placeOf_inj {a b : Entry} : placeOf location a = placeOf location b ↔ a.name = b.name :=
  ⟨fun h => Utf8.encode_injective (Location.child_inj.mp h).2, fun h => by rw [placeOf, h]; rfl⟩

section without

variable (hgone : ∀ entry ∈ gone, entry ∈ fs.entriesIn location)

include hgone

/-- A place is one of those that have gone if its entry has gone. -/
theorem placeOf_mem_iff (hentry : entry ∈ fs.entriesIn location) :
    placeOf location entry ∈ gone.map (placeOf location) ↔ entry ∈ gone := by
  rw [List.mem_map]
  constructor
  · rintro ⟨other, hother, hplace⟩
    exact eq_of_name_eq (hgone other hother) hentry (placeOf_inj.mp hplace) ▸ hother
  · exact fun hmem => ⟨entry, hmem, rfl⟩

/-- Without what has gone the other entries are left. -/
theorem mem_entriesIn_without :
    entry ∈ (fs.without location gone).entriesIn location ↔
      entry ∈ fs.entriesIn location ∧ entry ∉ gone := by
  constructor
  · intro hmem
    obtain ⟨id, hget, hentry⟩ := mem_entriesIn.mp hmem
    rw [get?_without] at hget
    split at hget
    · cases hget
    · rename_i hkept
      exact ⟨mem_entriesIn.mpr ⟨id, hget, hentry⟩,
        fun hmem => hkept (List.mem_map.mpr ⟨entry, hmem, rfl⟩)⟩
  · rintro ⟨hmem, hkept⟩
    obtain ⟨id, hget, hentry⟩ := mem_entriesIn.mp hmem
    refine mem_entriesIn.mpr ⟨id, ?_, hentry⟩
    rw [get?_without, if_neg, hget]
    exact fun hin => hkept ((placeOf_mem_iff hgone hmem).mp hin)

/-- Exactly the names of what has gone have changed. -/
theorem without_ne_iff (hentry : entry ∈ fs.entriesIn location) :
    (fs.without location gone).tree.get? (placeOf location entry) ≠
        fs.tree.get? (placeOf location entry) ↔ entry ∈ gone := by
  obtain ⟨id, hget, -⟩ := mem_entriesIn.mp hentry
  have hplace : fs.tree.get? (placeOf location entry) = some (.file id) := hget
  rw [get?_without, ← placeOf_mem_iff hgone hentry, hplace]
  split <;> simp [*]

/-- A directory takes less by what has gone. -/
theorem totalIn_without (hnodup : gone.Nodup) :
    (fs.without location gone).totalIn location + Entry.totalSize gone = fs.totalIn location := by
  have hperm : (fs.entriesIn location).Perm
      (gone ++ (fs.without location gone).entriesIn location) := by
    refine (List.perm_ext_iff_of_nodup (nodup_entriesIn _ _) ?_).mpr fun entry => ?_
    · refine List.nodup_append.mpr ⟨hnodup, nodup_entriesIn _ _, fun a ha b hb e => ?_⟩
      exact ((mem_entriesIn_without hgone).mp hb).2 (e ▸ ha)
    · rw [List.mem_append, mem_entriesIn_without hgone]
      have := hgone entry
      tauto
  have hsum := Entry.totalSize_perm hperm
  rw [Entry.totalSize_append] at hsum
  exact (Nat.add_comm _ _).trans hsum.symm

end without

/-- What stands under none of the names that have gone keeps its own. -/
theorem linkCount_without {node : Node}
    (h : ∀ entry ∈ gone, fs.tree.get? (placeOf location entry) ≠ some node) :
    (fs.without location gone).linkCount node = fs.linkCount node := by
  unfold linkCount without Table.filter
  rw [List.countP_filter]
  refine List.countP_congr fun row hrow => ?_
  simp only [Bool.and_eq_true, decide_eq_true_eq, and_iff_left_iff_imp]
  rintro rfl hmem
  obtain ⟨entry, hentry, hplace⟩ := List.mem_map.mp hmem
  exact h entry hentry (hplace ▸ Table.mem_rows_iff.mp hrow)

/-- What has not gone keeps its names: each of those that have gone was another file. -/
theorem linkCount_without_of_not_mem (hgone : ∀ entry ∈ gone, entry ∈ fs.evictables path location)
    (hentry : entry ∈ fs.entriesIn location) (hkept : entry ∉ gone)
    (hget : fs.tree.get? (placeOf location entry) = some (.file id)) :
    (fs.without location gone).linkCount (.file id) = fs.linkCount (.file id) := by
  refine linkCount_without fun other hother hsame => ?_
  obtain ⟨otherId, hid, -, hone, -, -⟩ := mem_evictables.mp (hgone other hother)
  have hplace : fs.tree.get? (placeOf location other) = some (.file otherId) := hid
  rw [hplace] at hsame
  cases hsame
  have hne : placeOf location other ≠ placeOf location entry := by
    intro e
    have hlisted := mem_entriesIn_of_mem_evictables (hgone other hother)
    exact hkept (eq_of_name_eq hlisted hentry (placeOf_inj.mp e) ▸ hother)
  have htwo := two_le_linkCount hne hplace hget
  omega

/-- What can be evicted once entries have gone is what could be evicted before and has not gone. -/
theorem mem_evictables_without (hgone : ∀ entry ∈ gone, entry ∈ fs.evictables path location) :
    entry ∈ (fs.without location gone).evictables path location ↔
      entry ∈ fs.evictables path location ∧ entry ∉ gone := by
  have hlisted : ∀ entry ∈ gone, entry ∈ fs.entriesIn location :=
    fun other hother => mem_entriesIn_of_mem_evictables (hgone other hother)
  have hplace : entry ∈ fs.entriesIn location → entry ∉ gone →
      (fs.without location gone).tree.get? (placeOf location entry) =
        fs.tree.get? (placeOf location entry) := by
    intro hold hkept
    rw [get?_without, if_neg fun hin => hkept ((placeOf_mem_iff hlisted hold).mp hin)]
  constructor
  · intro h
    obtain ⟨hold, hkept⟩ :=
      (mem_entriesIn_without hlisted).mp (mem_entriesIn_of_mem_evictables h)
    obtain ⟨id, hget, hentry, hsingle, hfree, hshort⟩ := mem_evictables.mp h
    have hget' : fs.tree.get? (placeOf location entry) = some (.file id) :=
      (hplace hold hkept).symm.trans hget
    rw [linkCount_without_of_not_mem hgone hold hkept hget'] at hsingle
    exact ⟨mem_evictables.mpr ⟨id, hget', hentry, hsingle, hfree, hshort⟩, hkept⟩
  · rintro ⟨h, hkept⟩
    have hold := mem_entriesIn_of_mem_evictables h
    obtain ⟨id, hget, hentry, hsingle, hfree, hshort⟩ := mem_evictables.mp h
    rw [← linkCount_without_of_not_mem hgone hold hkept hget] at hsingle
    exact mem_evictables.mpr
      ⟨id, (hplace hold hkept).trans hget, hentry, hsingle, hfree, hshort⟩

/-! ## Once an entry was stored -/

section stored

variable {name content : Bytes}

/-- A new file takes no name away from another one. -/
theorem linkCount_storing_of_ne {place : Location} (hfree : fs.tree.get? place = none)
    (hne : id ≠ fs.next) :
    (fs.storing place content).linkCount (.file id) = fs.linkCount (.file id) := by
  have hback : ((fs.storing place content).unbind place).linkCount (.file id) =
      fs.linkCount (.file id) := by rw [unbind_storing hfree]; rfl
  rw [← hback]
  refine (linkCount_unbind_of_ne ?_).symm
  rw [get?_storing, if_pos rfl]
  simpa using hne.symm

/-- What can be evicted once an entry was stored is this entry, or it could be evicted before. -/
theorem of_mem_evictables_storing (hwf : fs.WellFormed)
    (hfree : fs.tree.get? (location.child name) = none)
    (h : entry ∈ (fs.storing (location.child name) content).evictables path location) :
    Path.ofText entry.name = name ∨
      ∃ old ∈ fs.evictables path location, old.name = entry.name := by
  obtain ⟨id, hget, -, hsingle, hlocks, hshort⟩ := mem_evictables.mp h
  rw [get?_storing] at hget
  split at hget
  · rename_i hplace
    exact Or.inl (Location.child_inj.mp hplace).2
  · rw [linkCount_storing_of_ne hfree (Nat.ne_of_lt (hwf.file_lt _ _ hget))] at hsingle
    exact Or.inr ⟨fs.entryUnder entry.name id,
      mem_evictables.mpr ⟨id, hget, rfl, hsingle, hlocks, hshort⟩, rfl⟩

end stored

/-- Where the shortest front part of the evictable entries goes, entries have gone in turn. -/
theorem evicts_without {needed : Nat}
    (hfront : Entry.IsShortestFront needed gone (fs.evictables path location)) :
    fs.Evicts (fs.without location gone) path location needed (Entry.totalSize gone) := by
  obtain ⟨heq, hturn⟩ := evictsInTurn_of_changed hfront fun entry =>
    without_ne_iff (mem_entriesIn_of_front hfront)
  refine ⟨hturn, by rw [heq], fun lost hlost => ?_, fun place hspared => ?_, rfl, rfl⟩
  · rw [heq] at hlost
    rw [get?_without, if_pos (List.mem_map.mpr ⟨lost, hlost, rfl⟩)]
  · rw [heq] at hspared
    rw [get?_without, if_neg]
    intro hmem
    obtain ⟨lost, hlost, hplace⟩ := List.mem_map.mp hmem
    exact hspared lost hlost hplace.symm

/-- Where too little was freed, everything that could be evicted has gone. -/
theorem eq_evictables_of_lt {needed : Nat}
    (hfront : Entry.IsShortestFront needed gone (fs.evictables path location))
    (hlt : fs.totalIn location < (fs.without location gone).totalIn location + needed) :
    gone = fs.evictables path location := by
  have htotal := totalIn_without (mem_entriesIn_of_front hfront) (nodup_of_front hfront)
  exact hfront.enough.resolve_left (by omega)

end FileSystem

namespace Cache

variable {location : Location} {path : Path} {m : Machine} {cache : Cache} {budget : UInt64}
  {key : Key} {blob : Bytes}

/-! ## Evicting and trimming -/

/-- An eviction takes the shortest front part of what can be evicted, and answers what it takes. -/
theorem evict_eq_without (hwf : m.fs.WellFormed) (hlead : m.fs.Leads path location) {needed : Nat}
    (hneeded : 0 < needed) :
    ∃ gone, Entry.IsShortestFront needed gone (m.fs.evictables path location) ∧
      (evict Machine.host path needed m).1 = Entry.totalSize gone ∧
      (evict Machine.host path needed m).2.fs = m.fs.without location gone := by
  obtain ⟨hfreed, hfs⟩ := evict_eq_victims hwf hlead needed
  rw [FileSystem.candidates_eq_evictables hwf hlead] at hfreed hfs
  exact ⟨_, Entry.isShortestFront_victims hneeded _, hfreed, hfs⟩

/-- Where the host refuses to lock or to remove some entries, an eviction takes as many of the
others from the front as it needs. -/
theorem evict_refusing {faults : Faults} (htrue : faults.Truthful) (hwf : m.fs.WellFormed)
    (hlead : m.fs.Leads path location) {needed : Nat} (hneeded : 0 < needed) :
    let after := evict (Machine.faultyHost faults) path needed m
    Entry.IsShortestFront needed (m.fs.evicted after.2.fs location)
        ((m.fs.evictables path location).filter fun entry =>
          faults.allowsEviction (Path.ofText entry.name)) ∧
      after.1 = Entry.totalSize (m.fs.evicted after.2.fs location) ∧
      ∀ place, (∀ lost ∈ m.fs.evicted after.2.fs location,
          place ≠ FileSystem.placeOf location lost) →
        after.2.fs.tree.get? place = m.fs.tree.get? place := by
  intro after
  obtain ⟨next, hfreed, hfs, -⟩ := evict_eq_victims_of_truthful htrue hwf hlead needed
  have hfront := Entry.victims_front needed (m.fs.removables faults path location)
  have hsub := hfront.sublist.trans (FileSystem.removables_sublist faults)
  have hlisted : ∀ entry ∈ Entry.victims needed (m.fs.removables faults path location),
      entry ∈ m.fs.entriesIn location :=
    fun entry hmem => Entry.mem_inOrder.mp (hsub.subset hmem)
  have hgone : m.fs.evicted after.2.fs location =
      Entry.victims needed (m.fs.removables faults path location) := by
    refine FileSystem.evicted_eq hsub fun entry hentry => ?_
    rw [hfs]
    exact FileSystem.without_ne_iff hlisted hentry
  rw [hgone]
  refine ⟨?_, hfreed, fun place hspared => ?_⟩
  · rw [← FileSystem.candidates_eq_evictables hwf hlead]
    exact Entry.isShortestFront_victims hneeded _
  · rw [hfs]
    refine (FileSystem.get?_without _ _ _ place).trans (if_neg fun hmem => ?_)
    obtain ⟨lost, hlost, hplace⟩ := List.mem_map.mp hmem
    exact hspared lost hlost hplace.symm

/-- Trimming takes the shortest front part that brings the cache within its budget. -/
theorem trim_eq_without (hstate : cache.state = .enabled path budget) (hwf : m.fs.WellFormed)
    (hlead : m.fs.Leads path location) :
    ∃ gone, Entry.IsShortestFront (m.fs.totalIn location - budget.toNat) gone
        (m.fs.evictables path location) ∧
      (trim Machine.host cache m).1 = Entry.totalSize gone ∧
      (trim Machine.host cache m).2.fs = m.fs.without location gone := by
  have htotal : Entry.totalSize (m.fs.entriesIn location) = m.fs.totalIn location := rfl
  unfold trim
  simp only [hstate, CacheState.directory?, CacheState.budget, Machine.run_bind, sizeOf_eq hlead,
    htotal]
  by_cases hfits : m.fs.totalIn location ≤ budget.toNat
  · rw [if_pos hfits, Nat.sub_eq_zero_of_le hfits]
    exact ⟨[], .nil _, rfl, (FileSystem.without_nil _ _).symm⟩
  · rw [if_neg hfits]
    exact evict_eq_without hwf hlead (by omega)

/-! ## Making room for a blob -/

/-- The bytes that have to be freed before a blob is stored; none if it is not to be stored at
all. -/
def toFree (cache : Cache) (budget : UInt64) (fs : FileSystem) (location : Location) (key : Key)
    (blob : Bytes) : Nat :=
  if key.isEmpty ∨ blob = [] ∨ budget.toNat < blob.length then 0
  else fs.totalIn location + (blob.length + cache.digest.size) - budget.toNat

/-- What makes way is the shortest front part that makes enough room. -/
theorem isShortestFront_makingWay (hwf : m.fs.WellFormed) (hlead : m.fs.Leads path location)
    (budget added : Nat) :
    Entry.IsShortestFront (m.fs.totalIn location + added - budget)
      (makingWay m.fs path location budget added) (m.fs.evictables path location) := by
  rw [makingWay, ← FileSystem.candidates_eq_evictables hwf hlead]
  show Entry.IsShortestFront _ (if m.fs.totalIn location + added ≤ budget then [] else
    Entry.victims (m.fs.totalIn location + added - budget) _) _
  by_cases hfits : m.fs.totalIn location + added ≤ budget
  · rw [if_pos hfits, Nat.sub_eq_zero_of_le hfits]
    exact .nil _
  · rw [if_neg hfits]
    exact Entry.isShortestFront_victims (by omega) _

/-- Either no name has changed, or there is one more, which was free. -/
theorem addEntry_cases {digest : Digest} (hwf : m.fs.WellFormed) (hlead : m.fs.Leads path location)
    (hname : key.IsName) (hne : blob ≠ []) (size : Nat) :
    ((∀ stored, (addEntry Machine.host digest path size key blob m).1 ≠ .stored stored) ∧
        (addEntry Machine.host digest path size key blob m).2.fs.tree = m.fs.tree) ∨
      m.fs.tree.get? (location.child key.fileName) = none ∧
        (addEntry Machine.host digest path size key blob m).2.fs =
          m.fs.storing (location.child key.fileName) (Entry.encode digest blob) := by
  rw [addEntry_eq hwf hlead hname hne]
  rcases hunder : m.fs.under path location key.fileName with cause | _ | node
  · exact Or.inl ⟨outcomeOfRefusal_ne_stored _, rfl⟩
  · have hfree := (FileSystem.under_eq_ok_iff.mp hunder).2
    by_cases hsum : digest.of blob = []
    · left
      simp only [hsum, if_true, Machine.fs_noting, Machine.fs_withFiles,
        FileSystem.unbind_storing hfree]
      exact ⟨fun _ e => (by cases e), trivial⟩
    · right
      simp only [hsum, if_false, Machine.fs_noting, Machine.fs_withFiles]
      exact ⟨hfree, trivial⟩
  · exact Or.inl ⟨fun _ e => (by cases e), rfl⟩

/-- Storing a blob evicts in turn, and at most the name of the new entry has changed otherwise. -/
theorem set_eq_without (hstate : cache.state = .enabled path budget) (hwf : m.fs.WellFormed)
    (hlead : m.fs.Leads path location) (hkey : key = .empty ∨ key.IsName) (blob : Bytes) :
    ∃ gone, Entry.IsShortestFront (cache.toFree budget m.fs location key blob) gone
        (m.fs.evictables path location) ∧
      (((∀ stored, (set Machine.host cache key blob m).1 ≠ .stored stored) ∧
          (set Machine.host cache key blob m).2.fs.tree = (m.fs.without location gone).tree) ∨
        (m.fs.without location gone).tree.get? (location.child key.fileName) = none ∧
          cache.toFree budget m.fs location key blob =
            m.fs.totalIn location + (blob.length + cache.digest.size) - budget.toNat ∧
          (set Machine.host cache key blob m).2.fs =
            (m.fs.without location gone).storing (location.child key.fileName)
              (Entry.encode cache.digest blob)) := by
  by_cases hearly : key.isEmpty ∨ blob = [] ∨ budget.toNat < blob.length
  · rw [toFree, if_pos hearly]
    refine ⟨[], .nil _, Or.inl ?_⟩
    rw [FileSystem.without_nil]
    rcases set_cases cache key blob m with
      ⟨reason, m', heq, hm'⟩ | ⟨path', budget', hstate', hnonempty, hne, hfits, -⟩
    · rw [heq]
      rcases hm' with rfl | ⟨_, rfl⟩ <;> exact ⟨fun _ e => (by cases e), rfl⟩
    · rw [hstate] at hstate'
      cases hstate'
      rw [hnonempty] at hearly
      rcases hearly with hempty | hnil | hbig
      · cases hempty
      · exact absurd hnil hne
      · omega
  · rw [toFree, if_neg hearly]
    simp only [not_or, Nat.not_lt] at hearly
    obtain ⟨hnonempty, hne, hfits⟩ := hearly
    have hname : key.IsName := hkey.resolve_left fun e => hnonempty (by rw [e]; rfl)
    obtain ⟨size, roomy, hroom, hfs, hwf', hlead'⟩ := makeRoom_leaves hwf hlead budget.toNat
      (blob.length + cache.digest.size)
    refine ⟨_, isShortestFront_makingWay hwf hlead budget.toNat _, ?_⟩
    rw [set_of_fits hstate hname hne hfits, hroom, ← hfs]
    rcases addEntry_cases hwf' hlead' hname hne size with hkept | ⟨hvacant, hstored⟩
    · exact Or.inl hkept
    · exact Or.inr ⟨hvacant, rfl, hstored⟩

/-- Where a blob was stored or not once room had been made, exactly the names of what has gone have
changed. -/
theorem set_ne_iff (hwf : m.fs.WellFormed) {gone : List Entry} {roomy fs : FileSystem}
    (hgone : ∀ entry ∈ gone, entry ∈ m.fs.entriesIn location)
    (hroomy : roomy.tree = (m.fs.without location gone).tree) (hnext : m.fs.next ≤ roomy.next)
    (hfs : fs.tree = roomy.tree ∨
      roomy.tree.get? (location.child key.fileName) = none ∧
        fs = roomy.storing (location.child key.fileName) (Entry.encode cache.digest blob))
    {entry : Entry} (hentry : entry ∈ m.fs.entriesIn location) :
    fs.tree.get? (FileSystem.placeOf location entry) ≠
        m.fs.tree.get? (FileSystem.placeOf location entry) ↔ entry ∈ gone := by
  have hchanged := FileSystem.without_ne_iff hgone hentry
  rw [← hroomy] at hchanged
  rcases hfs with htree | ⟨hvacant, rfl⟩
  · rw [htree]
    exact hchanged
  rw [FileSystem.get?_storing]
  by_cases hplace : FileSystem.placeOf location entry = location.child key.fileName
  · -- an entry under the key itself has gone, and the new one is another file
    obtain ⟨id, hget, -⟩ := FileSystem.mem_entriesIn.mp hentry
    have hbound : m.fs.tree.get? (FileSystem.placeOf location entry) = some (.file id) := hget
    have hfresh : roomy.next ≠ id :=
      Nat.ne_of_gt (Nat.lt_of_lt_of_le (hwf.file_lt _ _ hget) hnext)
    rw [if_pos hplace]
    refine iff_of_true ?_ (hchanged.mp ?_)
    · rw [hbound]
      simpa using hfresh
    · rw [hplace, hvacant, ← hplace, hbound]
      simp
  · rw [if_neg hplace]
    exact hchanged

/-- Storing a blob evicts in turn. -/
theorem set_evictsInTurn (hstate : cache.state = .enabled path budget) (hwf : m.fs.WellFormed)
    (hlead : m.fs.Leads path location) (hkey : key = .empty ∨ key.IsName) (blob : Bytes) :
    m.fs.EvictsInTurn (set Machine.host cache key blob m).2.fs path location
      (cache.toFree budget m.fs location key blob) := by
  obtain ⟨gone, hfront, hafter⟩ := set_eq_without hstate hwf hlead hkey blob
  refine (FileSystem.evictsInTurn_of_changed hfront fun entry => ?_).2
  exact set_ne_iff hwf (FileSystem.mem_entriesIn_of_front hfront) rfl (Nat.le_add_right _ _)
    (hafter.imp And.right fun h => ⟨h.1, h.2.2⟩)

/-- Where the cache is over its budget although a blob was stored, nothing else is left to evict. -/
theorem evictables_of_stored (hstate : cache.state = .enabled path budget)
    (hsized : cache.digest.Sized) (hwf : m.fs.WellFormed) (hlead : m.fs.Leads path location)
    (hkey : key = .empty ∨ key.IsName) {stored : Nat}
    (h : (set Machine.host cache key blob m).1 = .stored stored)
    (hover : budget.toNat < (size Machine.host cache (set Machine.host cache key blob m).2).1)
    {entry : Entry}
    (hentry : entry ∈ (set Machine.host cache key blob m).2.fs.evictables path location) :
    entry.name = key.text := by
  obtain ⟨gone, hfront, hafter⟩ := set_eq_without hstate hwf hlead hkey blob
  rcases hafter with ⟨hunstored, -⟩ | ⟨hvacant, hneeded, hfs⟩
  · exact absurd h (hunstored stored)
  have hlead' := hlead.without (FileSystem.mem_entriesIn_of_front hfront)
  have htotal : (set Machine.host cache key blob m).2.fs.totalIn location =
      (m.fs.without location gone).totalIn location + (blob.length + cache.digest.size) := by
    rw [hfs, ← Entry.length_encode hsized]
    exact FileSystem.totalIn_storing (hwf.without location gone) hvacant _
  rw [size_eq hstate (hfs ▸ hlead'.storing hvacant _), htotal] at hover
  have hall := FileSystem.eq_evictables_of_lt hfront (by omega)
  rw [hfs] at hentry
  rcases FileSystem.of_mem_evictables_storing (hwf.without location gone) hvacant hentry with
    hname | ⟨old, hold, -⟩
  · exact Utf8.encode_injective hname
  · obtain ⟨hmem, hkept⟩ :=
      (FileSystem.mem_evictables_without fun _ h => hfront.isFront.subset h).mp hold
    exact absurd (hall ▸ hmem) hkept

/-- A trimmed cache that is over its budget has nothing left to evict. -/
theorem evictables_of_trimmed (hstate : cache.state = .enabled path budget)
    (hwf : m.fs.WellFormed) (hlead : m.fs.Leads path location)
    (hover : budget.toNat < (size Machine.host cache (trim Machine.host cache m).2).1) :
    (trim Machine.host cache m).2.fs.evictables path location = [] := by
  obtain ⟨gone, hfront, -, hfs⟩ := trim_eq_without hstate hwf hlead
  have hlead' := hlead.without (FileSystem.mem_entriesIn_of_front hfront)
  rw [size_eq hstate (hfs ▸ hlead'), hfs] at hover
  have hall := FileSystem.eq_evictables_of_lt hfront (by omega)
  rw [hfs]
  refine List.eq_nil_iff_forall_not_mem.mpr fun entry hentry => ?_
  obtain ⟨hmem, hkept⟩ :=
    (FileSystem.mem_evictables_without fun _ h => hfront.isFront.subset h).mp hentry
  exact absurd (hall ▸ hmem) hkept

/-! ## The law of eviction -/

/-- What the operations that evict take from a directory, and what they leave. -/
structure EvictsByUse (cache : Cache) (path : Path) (budget : UInt64) (location : Location)
    (m : Machine) : Prop where
  /-- An entry can be evicted if it is one file with one name and no locks, and the path of it is
  not too long. -/
  mem_iff : ∀ entry, entry ∈ m.fs.evictables path location ↔
    ∃ id, m.fs.tree.get? (location.child (Path.ofText entry.name)) = some (.file id) ∧
      entry = m.fs.entryUnder entry.name id ∧ m.fs.linkCount (.file id) = 1 ∧
      m.fs.locksOn id = [] ∧
      (Path.join path (Path.ofText entry.name)).length < FileSystem.pathLimit
  /-- Evictable entries are in the order of use, each of them once. -/
  sorted : (m.fs.evictables path location).Pairwise
    fun a b => a.before b = true ∧ a.name ≠ b.name
  /-- An eviction takes as many of them from the front as it needs, and nothing else. -/
  evicting : ∀ needed, 0 < needed →
    m.fs.Evicts (evict Machine.host path needed m).2.fs path location needed
      (evict Machine.host path needed m).1
  /-- So does trimming, for what the cache takes beyond its budget. -/
  trimming : m.fs.Evicts (trim Machine.host cache m).2.fs path location
    ((size Machine.host cache m).1 - budget.toNat) (trim Machine.host cache m).1
  /-- A trimmed cache that is over its budget has nothing left to evict. -/
  trimmed : budget.toNat < (size Machine.host cache (trim Machine.host cache m).2).1 →
    (trim Machine.host cache m).2.fs.evictables path location = []
  /-- Storing a blob evicts from the front what the cache and the new entry take beyond the
  budget. -/
  storing : ∀ key blob, key = .empty ∨ key.IsName →
    m.fs.EvictsInTurn (set Machine.host cache key blob m).2.fs path location
      (cache.toFree budget m.fs location key blob)
  /-- A cache that is over its budget with a new entry has nothing left to evict but this one. -/
  stored : ∀ key blob bytes, key = .empty ∨ key.IsName →
    (set Machine.host cache key blob m).1 = .stored bytes →
    budget.toNat < (size Machine.host cache (set Machine.host cache key blob m).2).1 →
    ∀ entry ∈ (set Machine.host cache key blob m).2.fs.evictables path location,
      entry.name = key.text
  /-- Where the host refuses to lock or to remove some of them, an eviction takes as many of the
  others from the front as it needs, counts no more than those, and takes nothing else. -/
  refusing : ∀ faults : Faults, faults.Truthful → ∀ needed, 0 < needed →
    let after := evict (Machine.faultyHost faults) path needed m
    Entry.IsShortestFront needed (m.fs.evicted after.2.fs location)
        ((m.fs.evictables path location).filter fun entry =>
          faults.allowsEviction (Path.ofText entry.name)) ∧
      after.1 = Entry.totalSize (m.fs.evicted after.2.fs location) ∧
      ∀ place, (∀ lost ∈ m.fs.evicted after.2.fs location,
          place ≠ FileSystem.placeOf location lost) →
        after.2.fs.tree.get? place = m.fs.tree.get? place
  /-- As long as sizes are words, all of this can be counted in words. -/
  words : cache.CountsInWords Machine.host m

/-- Eviction is exact: whatever the sizes, the times and the locks are, it takes the shortest front
part of the evictable entries that is large enough, or all of them. -/
theorem evicts_by_use (hstate : cache.state = .enabled path budget)
    (hsized : cache.digest.Sized) (hwf : m.fs.WellFormed) (hlead : m.fs.Leads path location) :
    cache.EvictsByUse path budget location m where
  mem_iff _ := FileSystem.mem_evictables
  sorted := FileSystem.sorted_evictables _ _ _
  evicting needed hneeded := by
    obtain ⟨gone, hfront, hfreed, hfs⟩ := evict_eq_without hwf hlead hneeded
    rw [hfreed, hfs]
    exact FileSystem.evicts_without hfront
  trimming := by
    obtain ⟨gone, hfront, hfreed, hfs⟩ := trim_eq_without hstate hwf hlead
    rw [hfreed, hfs, size_eq hstate hlead]
    exact FileSystem.evicts_without hfront
  trimmed := evictables_of_trimmed hstate hwf hlead
  storing _ blob hkey := set_evictsInTurn hstate hwf hlead hkey blob
  stored _ _ _ hkey h hover _ := evictables_of_stored hstate hsized hwf hlead hkey h hover
  refusing _ htrue _ hneeded := evict_refusing htrue hwf hlead hneeded
  words := host_countsInWords cache hwf

/-- Of entries of five, six and seven bytes the second is being read. To free six bytes, the first
and the third go, and where the first one cannot be removed the third alone. -/
theorem evicts_around_entry_in_use :
    let cache : Cache := ⟨.enabled Path.dot 100, .weightedSum, 0⟩
    let here := Location.top.child [0x77]
    let reading := Session.finish (.start [0x77])
      [.openCache "c" (.config ⟨some Path.dot, 100⟩) .weightedSum none .none,
        .onCache "c" (.set (.text "a") [1]), .onCache "c" (.set (.text "b") [1, 2]),
        .onCache "c" (.get (.text "b") (some "held")),
        .onCache "c" (.set (.text "c") [1, 2, 3])]
    cache.EvictsByUse Path.dot 100 here reading.machine ∧
      (reading.machine.fs.evictables Path.dot here).map (·.name) = ["a", "c"] ∧
      (evict Machine.host Path.dot 6 reading.machine).1 = 12 ∧
      (evict (Machine.faultyHost { Faults.none with remove := [[0x61]] }) Path.dot 6
        reading.machine).1 = 7 := by
  intro cache here reading
  have horderly : reading.Orderly := Session.orderly_finish (.start _) _
  have hwf := horderly.wellFormed
  have hlead : reading.machine.fs.Leads Path.dot here := by decide +kernel
  let a : Entry := ⟨"a", 5, 1000001000000000⟩
  let b : Entry := ⟨"b", 6, 1000003000000000⟩
  let c : Entry := ⟨"c", 7, 1000004000000000⟩
  have hlisted : reading.machine.fs.entriesIn here = [a, b, c] := by decide +kernel
  have hsorted : Entry.inOrder [a, b, c] = [a, b, c] :=
    List.mergeSort_of_pairwise (by decide +kernel)
  have hevictables : reading.machine.fs.evictables Path.dot here = [a, c] := by
    rw [FileSystem.evictables, FileSystem.unheld, hlisted, hsorted]
    decide +kernel
  have hcandidates := (FileSystem.candidates_eq_evictables hwf hlead).trans hevictables
  refine ⟨evicts_by_use rfl Digest.sized_weightedSum hwf hlead, ?_, ?_, ?_⟩
  · rw [hevictables]
    rfl
  · rw [(evict_eq_victims hwf hlead 6).1, hcandidates]
    decide +kernel
  · have htrue : Faults.Truthful { Faults.none with remove := [[0x61]] } := ⟨rfl, rfl⟩
    obtain ⟨-, hfreed, -⟩ := evict_eq_victims_of_truthful htrue hwf hlead 6
    rw [hfreed, FileSystem.removables, hcandidates]
    decide +kernel

/-- That an entry has one name and no locks is not enough: by a path that is as long as a path may
be no entry can be reached, and so none is evicted. -/
theorem evicts_nothing_by_long_path :
    ¬∀ (path : Path) (location : Location) (m : Machine) (needed : Nat), m.fs.WellFormed →
      m.fs.Leads path location → 0 < needed →
      Entry.IsShortestFront needed
        (m.fs.evicted (evict Machine.host path needed m).2.fs location)
        (m.fs.unheld location) := by
  intro h
  let stored := Session.finish (.start [0x77])
    [.openCache "c" (.config ⟨some Path.dot, 100⟩) .weightedSum none .none,
      .onCache "c" (.set (.text "a") [1])]
  have horderly : stored.Orderly := Session.orderly_finish (.start _) _
  have hfront := h longPath (Location.top.child [0x77]) stored.machine 1 horderly.wellFormed
    (by decide +kernel) Nat.one_pos
  have henough := hfront.enough
  revert henough
  decide +kernel

end Cache

end BlobCache
