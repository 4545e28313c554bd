import BlobCache.Cache.Entries
import BlobCache.Proofs.Reading

/-!
# Listing a directory

`FileSystem.entriesIn` is what a listing of a directory shows. `mem_entriesIn` says that these are
the files that stand directly in it under a name that is a text, and `pairwise_entriesIn` that no
name is listed twice. Sorting a listing changes neither.
-/

namespace BlobCache

namespace Location

/-- A location has a name in a directory just if it is the child of this name. -/
theorem nameIn?_eq_some_iff {location directory : Location} {name : Bytes} :
    location.nameIn? directory = some name ↔ location = directory.child name := by
  constructor
  · intro h
    unfold nameIn? at h
    split at h
    · rename_i hparent
      obtain ⟨rest, hrest⟩ := List.head?_eq_some_iff.mp h
      refine eq_of_names ?_
      rw [hrest, ← hparent]
      show name :: rest = name :: location.names.tail
      rw [hrest, List.tail_cons]
    · cases h
  · rintro rfl
    exact nameIn?_child directory name

end Location

namespace FileSystem

/-- What is in a directory is bound to a child of it. -/
theorem mem_children {fs : FileSystem} {directory : Location} {name : Bytes} {node : Node} :
    (name, node) ∈ fs.children directory ↔
      fs.tree.get? (directory.child name) = some node := by
  rw [← Table.mem_rows_iff]
  unfold children
  rw [List.mem_filterMap]
  constructor
  · rintro ⟨⟨location, other⟩, hrow, h⟩
    obtain ⟨found, hfound, he⟩ := Option.map_eq_some_iff.mp h
    cases he
    rwa [← Location.nameIn?_eq_some_iff.mp hfound]
  · exact fun h => ⟨_, h, by rw [Location.nameIn?_child]; rfl⟩

/-- The entries that a listing of a directory shows. -/
def entriesIn (fs : FileSystem) (directory : Location) : List Entry :=
  (fs.children directory).filterMap fun child => fs.entryOf? child.1 child.2

/-- The entry of a file under a name. -/
def entryUnder (fs : FileSystem) (name : String) (id : FileId) : Entry :=
  ⟨name, (fs.contents id).length, fs.accessTime id⟩

/-- What is listed is a file, with its size and times, under a name that is a text. -/
theorem entryOf?_eq_some_iff {fs : FileSystem} {name : Bytes} {node : Node} {entry : Entry} :
    fs.entryOf? name node = some entry ↔
      name = Path.ofText entry.name ∧ ∃ id, node = .file id ∧
        entry = fs.entryUnder entry.name id := by
  unfold entryOf?
  cases node with
  | directory => simp
  | link id target => simp
  | file id =>
      constructor
      · intro h
        obtain ⟨text, htext, he⟩ := Option.bind_eq_some_iff.mp h
        cases he
        exact ⟨Utf8.decode?_eq_some_iff.mp htext, id, rfl, rfl⟩
      · rintro ⟨rfl, other, he, hentry⟩
        cases he
        show (Utf8.decode? (Utf8.encode entry.name)).bind _ = some entry
        rw [Utf8.decode?_encode, hentry]
        rfl

/-- The entries of a directory are its files with names that are texts. -/
theorem mem_entriesIn {fs : FileSystem} {directory : Location} {entry : Entry} :
    entry ∈ fs.entriesIn directory ↔
      ∃ id, fs.tree.get? (directory.child (Path.ofText entry.name)) = some (.file id) ∧
        entry = fs.entryUnder entry.name id := by
  unfold entriesIn
  rw [List.mem_filterMap]
  constructor
  · rintro ⟨⟨name, node⟩, hchild, h⟩
    obtain ⟨rfl, id, rfl, hentry⟩ := entryOf?_eq_some_iff.mp h
    exact ⟨id, mem_children.mp hchild, hentry⟩
  · rintro ⟨id, hget, hentry⟩
    exact ⟨_, mem_children.mpr hget, entryOf?_eq_some_iff.mpr ⟨rfl, id, rfl, hentry⟩⟩

/-- The children of a directory have different names. -/
theorem pairwise_children (fs : FileSystem) (directory : Location) :
    (fs.children directory).Pairwise fun a b => a.1 ≠ b.1 := by
  unfold children
  rw [List.pairwise_filterMap]
  refine (List.pairwise_map.mp fs.tree.nodup).imp ?_
  intro a b hne x hx y hy e
  obtain ⟨name, hname, rfl⟩ := Option.map_eq_some_iff.mp hx
  obtain ⟨other, hother, rfl⟩ := Option.map_eq_some_iff.mp hy
  rw [Location.nameIn?_eq_some_iff] at hname hother
  have : name = other := e
  exact hne (by rw [hname, hother, this])

/-- No name is listed twice. -/
theorem pairwise_entriesIn (fs : FileSystem) (directory : Location) :
    (fs.entriesIn directory).Pairwise fun a b => a.name ≠ b.name := by
  unfold entriesIn
  rw [List.pairwise_filterMap]
  refine (fs.pairwise_children directory).imp ?_
  intro a b hne x hx y hy e
  rw [(entryOf?_eq_some_iff.mp hx).1, (entryOf?_eq_some_iff.mp hy).1, e] at hne
  exact hne rfl

/-- Listing a directory gives all its entries and no failure. -/
theorem listEntries_eq {fs : FileSystem} {path : Path} {location : Location}
    (h : fs.Leads path location) : fs.listEntries path = ⟨fs.entriesIn location, none⟩ := by
  unfold listEntries
  rw [show fs.nodeAt path = .ok (location, .directory) from h]
  rfl

end FileSystem

/-! ## What the cache lists -/

namespace Entry

/-- Entries in order are the same entries. -/
theorem mem_inOrder {entries : List Entry} {entry : Entry} :
    entry ∈ inOrder entries ↔ entry ∈ entries := List.mem_mergeSort

/-- They are only in another order. -/
theorem perm_inOrder (entries : List Entry) : (inOrder entries).Perm entries :=
  List.mergeSort_perm _ _

/-- The first entry adds its size. -/
theorem totalSize_cons (entry : Entry) (entries : List Entry) :
    totalSize (entry :: entries) = entry.size + totalSize entries := rfl

/-- Entries take what their parts take. -/
theorem totalSize_append (first rest : List Entry) :
    totalSize (first ++ rest) = totalSize first + totalSize rest := by
  induction first with
  | nil => exact (Nat.zero_add _).symm
  | cons entry first ih => rw [List.cons_append, totalSize_cons, totalSize_cons, ih, Nat.add_assoc]

/-- In another order entries take the same. -/
theorem totalSize_perm {first rest : List Entry} (h : first.Perm rest) :
    totalSize first = totalSize rest := by
  induction h with
  | nil => rfl
  | cons entry _ ih => rw [totalSize_cons, totalSize_cons, ih]
  | swap entry other rest =>
      rw [totalSize_cons, totalSize_cons, totalSize_cons, totalSize_cons, Nat.add_left_comm]
  | trans _ _ ih ih' => exact ih.trans ih'

/-- Fewer entries take no more. -/
theorem totalSize_sublist {first rest : List Entry} (h : first.Sublist rest) :
    totalSize first ≤ totalSize rest := by
  induction h with
  | slnil => exact Nat.le_refl _
  | cons entry _ ih => exact Nat.le_trans ih (Nat.le_add_left _ _)
  | cons_cons entry _ ih => exact Nat.add_le_add_left ih _

/-- Entries in order have different names as before. -/
theorem pairwise_inOrder {entries : List Entry}
    (h : entries.Pairwise fun a b => a.name ≠ b.name) :
    (inOrder entries).Pairwise fun a b => a.name ≠ b.name :=
  ((perm_inOrder entries).pairwise_iff fun hne => hne.symm).mpr h

/-- Entries with different names are different. -/
theorem nodup_of_distinct {entries : List Entry}
    (h : entries.Pairwise fun a b => a.name ≠ b.name) : entries.Nodup :=
  h.imp fun hne e => hne (congrArg name e)

end Entry

namespace Cache

variable {m : Machine} {path : Path} {location : Location}

/-- A scan of a directory gives its entries and changes nothing. -/
theorem listed_eq (h : m.fs.Leads path location) :
    listed Machine.host path m = (m.fs.entriesIn location, m) := by
  unfold listed
  simp [FileSystem.listEntries_eq h]

/-- The size of a directory is that of its entries together. -/
theorem sizeOf_eq (h : m.fs.Leads path location) :
    sizeOf Machine.host path m = (Entry.totalSize (m.fs.entriesIn location), m) := by
  unfold sizeOf
  simp [listed_eq h]

/-- The entries of a directory are given in the order of use. -/
theorem entriesOf_eq (h : m.fs.Leads path location) :
    entriesOf Machine.host path m = (Entry.inOrder (m.fs.entriesIn location), m) := by
  unfold entriesOf
  simp [listed_eq h]

/-- A cache lists the entries of its directory in the order of use. -/
theorem entries_of_leads {cache : Cache} (hdir : cache.state.directory? = some path)
    (h : m.fs.Leads path location) :
    (entries Machine.host cache m).1 = Entry.inOrder (m.fs.entriesIn location) := by
  unfold entries
  simp only [hdir, entriesOf_eq h]

end Cache

end BlobCache
