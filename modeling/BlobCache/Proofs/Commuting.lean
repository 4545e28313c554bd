import BlobCache.Proofs.LostWrites
import BlobCache.Proofs.RoundTrip
import Mathlib.Algebra.BigOperators.Group.List.Basic
import Mathlib.Algebra.GroupWithZero.Nat

/-!
# Storing in any order

As long as there is room for all of them, blobs under different free names can be stored in any
order, and entries can be looked up in between.

* `Machine.Gains`: on the way from one machine to another some blobs were stored, and the entries
  have not changed otherwise. It is transitive, and which blobs they are is all that it tells of
  their order.
* `Cache.Use`: what is done with a cache. `perform_stores` is the step: storing gains a blob, and
  everything else gains none. What the directory takes and what is still to be stored keep within
  the budget together, so that no room has to be made at any time.
* `Cache.sets_commute`: every order gives the same answers and ends with the same contents under the
  same names.

A look-up removes a damaged entry, so it is asked that what is looked up is sound or not there. The
blobs that are stored on the way are sound (`Gains.sound`).
-/

namespace BlobCache

/-- A place carries one content. -/
theorem FileSystem.Carries.unique {fs : FileSystem} {place : Location} {content other : Bytes}
    (h : fs.Carries place content) (h' : fs.Carries place other) : content = other := by
  obtain ⟨id, hget, rfl⟩ := h
  obtain ⟨id', hget', rfl⟩ := h'
  rw [hget] at hget'
  cases hget'
  rfl

namespace Digest

/-- The bytes that blobs take in a directory, each with its checksum. -/
def spaceFor (digest : Digest) (items : List (Key × Bytes)) : Nat :=
  (items.map fun item => item.2.length + digest.size).sum

/-- One item takes its blob and a checksum. -/
theorem spaceFor_singleton (digest : Digest) (key : Key) (blob : Bytes) :
    digest.spaceFor [(key, blob)] = blob.length + digest.size := rfl

/-- Items take what their parts take. -/
theorem spaceFor_append (digest : Digest) (items more : List (Key × Bytes)) :
    digest.spaceFor (items ++ more) = digest.spaceFor items + digest.spaceFor more := by
  unfold spaceFor
  rw [List.map_append, List.sum_append]

/-- In another order items take the same. -/
theorem spaceFor_perm (digest : Digest) {items more : List (Key × Bytes)}
    (h : items.Perm more) : digest.spaceFor items = digest.spaceFor more :=
  (h.map _).sum_eq

end Digest

/-! ## Gaining entries -/

/-- On the way from one machine to another, blobs were stored in a directory, and its entries have
not changed otherwise. -/
structure Machine.Gains (digest : Digest) (location : Location) (items : List (Key × Bytes))
    (m m' : Machine) : Prop where
  /-- What had a name has kept it. -/
  kept : ∀ place node, m.fs.tree.get? place = some node → m'.fs.tree.get? place = some node
  /-- No eviction was reported. -/
  reported : ∃ new, m'.log = m.log ++ new ∧
    ∀ text accessed size, Event.evicted text accessed size ∉ new
  /-- Under the name of each blob stands a file with it and its checksum. -/
  added : ∀ item ∈ items,
    m'.fs.Carries (location.child item.1.fileName) (Entry.encode digest item.2)
  /-- Every other name stands for what it stood for. -/
  get?_eq : ∀ place, (∀ item ∈ items, place ≠ location.child item.1.fileName) →
    m'.fs.tree.get? place = m.fs.tree.get? place
  /-- It has the content that it had. -/
  carries_iff : ∀ place, (∀ item ∈ items, place ≠ location.child item.1.fileName) →
    ∀ content, m'.fs.Carries place content ↔ m.fs.Carries place content
  /-- The directory takes more by these entries. -/
  total_eq : m'.fs.totalIn location = m.fs.totalIn location + digest.spaceFor items

namespace Machine.Gains

variable {digest : Digest} {location : Location} {items more : List (Key × Bytes)}
  {m m' m'' : Machine}

/-- To do nothing gains nothing. -/
theorem refl (digest : Digest) (location : Location) (m : Machine) :
    m.Gains digest location [] m where
  kept _ _ hget := hget
  reported := ⟨[], (List.append_nil _).symm, fun _ _ _ hmem => nomatch hmem⟩
  added _ hmem := nomatch hmem
  get?_eq _ _ := rfl
  carries_iff _ _ _ := Iff.rfl
  total_eq := rfl

/-- A calm step after which all names are there gains nothing, if it reports no eviction. -/
theorem of_calm (hcalm : m.fs.Calm location m'.fs) (hwf : m.fs.WellFormed)
    (htree : m'.fs.tree = m.fs.tree)
    (hlog : ∃ new, m'.log = m.log ++ new ∧
      ∀ text accessed size, Event.evicted text accessed size ∉ new) :
    m.Gains digest location [] m' where
  kept _ _ hget := by rwa [htree]
  reported := hlog
  added _ hmem := nomatch hmem
  get?_eq _ _ := by rw [htree]
  carries_iff place _ content := by
    unfold FileSystem.Carries
    rw [htree]
    refine exists_congr fun id => and_congr_right fun hget => ?_
    rw [hcalm.contents_eq id (hwf.file_lt _ _ hget)]
  total_eq := hcalm.totalIn_eq hwf htree

/-- Blobs under different names can be gained one after another. -/
theorem trans (h : m.Gains digest location items m') (h' : m'.Gains digest location more m'')
    (hdistinct : ∀ item ∈ items, ∀ other ∈ more, item.1 ≠ other.1) :
    m.Gains digest location (items ++ more) m'' where
  kept place node hget := h'.kept place node (h.kept place node hget)
  reported := by
    obtain ⟨new, hlog, hnew⟩ := h.reported
    obtain ⟨new', hlog', hnew'⟩ := h'.reported
    refine ⟨new ++ new', by rw [hlog', hlog, List.append_assoc], fun text accessed size hmem => ?_⟩
    rcases List.mem_append.mp hmem with hmem | hmem
    · exact hnew text accessed size hmem
    · exact hnew' text accessed size hmem
  added item hmem := by
    rcases List.mem_append.mp hmem with hmem | hmem
    · refine (h'.carries_iff _ (fun other hother e => ?_) _).mpr (h.added item hmem)
      exact hdistinct item hmem other hother (Key.fileName_injective (Location.child_inj.mp e).2)
    · exact h'.added item hmem
  get?_eq place hplace :=
    (h'.get?_eq place fun item hmem => hplace item (List.mem_append_right _ hmem)).trans
      (h.get?_eq place fun item hmem => hplace item (List.mem_append_left _ hmem))
  carries_iff place hplace content :=
    (h'.carries_iff place (fun item hmem => hplace item (List.mem_append_right _ hmem))
      content).trans
      (h.carries_iff place (fun item hmem => hplace item (List.mem_append_left _ hmem)) content)
  total_eq := by rw [h'.total_eq, h.total_eq, digest.spaceFor_append, Nat.add_assoc]

/-- It does not matter in which order they are listed. -/
theorem perm (h : m.Gains digest location items m') (hperm : items.Perm more) :
    m.Gains digest location more m' where
  kept := h.kept
  reported := h.reported
  added item hmem := h.added item (hperm.mem_iff.mpr hmem)
  get?_eq place hplace := h.get?_eq place fun item hmem => hplace item (hperm.mem_iff.mp hmem)
  carries_iff place hplace :=
    h.carries_iff place fun item hmem => hplace item (hperm.mem_iff.mp hmem)
  total_eq := by rw [h.total_eq, digest.spaceFor_perm hperm]

/-- The contents in the end are determined by the blobs and by what was there before. -/
theorem carries_unique (h : m.Gains digest location items m')
    (h' : m.Gains digest location items m'') (place : Location) (content : Bytes) :
    m'.fs.Carries place content ↔ m''.fs.Carries place content := by
  by_cases hplace : ∃ item ∈ items, place = location.child item.1.fileName
  · obtain ⟨item, hmem, rfl⟩ := hplace
    constructor
    · intro hcontent
      exact hcontent.unique (h.added item hmem) ▸ h'.added item hmem
    · intro hcontent
      exact hcontent.unique (h'.added item hmem) ▸ h.added item hmem
  · have hother : ∀ item ∈ items, place ≠ location.child item.1.fileName :=
      fun item hmem e => hplace ⟨item, hmem, e⟩
    rw [h.carries_iff place hother, h'.carries_iff place hother]

/-- Where there was nothing but sound entries, there still is nothing else. -/
theorem sound (h : m.Gains digest location items m') {place : Location}
    (hsound : ∀ content, m.fs.Carries place content → Entry.Sealed digest content) :
    ∀ content, m'.fs.Carries place content → Entry.Sealed digest content := by
  intro content hcontent
  by_cases hplace : ∃ item ∈ items, place = location.child item.1.fileName
  · obtain ⟨item, hmem, rfl⟩ := hplace
    exact ⟨item.2, hcontent.unique (h.added item hmem)⟩
  · refine hsound content ((h.carries_iff place (fun item hmem e => ?_) content).mp hcontent)
    exact hplace ⟨item, hmem, e⟩

end Machine.Gains

namespace Cache

/-! ## What there is room for -/

/-- Blobs under different names, all of them free, and room in the budget for all of them. -/
structure Batch (cache : Cache) (budget : UInt64) (location : Location)
    (items : List (Key × Bytes)) (m : Machine) : Prop where
  /-- Each key can be the name of a file. -/
  isName : ∀ item ∈ items, item.1.IsName
  /-- No name is too long. -/
  length_le : ∀ item ∈ items, item.1.fileName.length ≤ FileSystem.nameLimit
  /-- Nothing stands under it. -/
  free : ∀ item ∈ items, m.fs.tree.get? (location.child item.1.fileName) = none
  /-- No blob is empty. -/
  blob_ne_nil : ∀ item ∈ items, item.2 ≠ []
  /-- No two blobs have the same key. -/
  distinct : items.Pairwise fun a b => a.1 ≠ b.1
  /-- The cache is within its budget even with all of them. -/
  room : (size Machine.host cache m).1 + cache.digest.spaceFor items ≤ budget.toNat

section

variable {cache : Cache} {path : Path} {budget : UInt64} {location : Location} {m m' : Machine}
  {items more : List (Key × Bytes)} {key : Key} {blob : Bytes}

/-- Items in another order are as good a batch. -/
theorem Batch.perm (h : cache.Batch budget location items m) (hperm : items.Perm more) :
    cache.Batch budget location more m where
  isName item hmem := h.isName item (hperm.mem_iff.mpr hmem)
  length_le item hmem := h.length_le item (hperm.mem_iff.mpr hmem)
  free item hmem := h.free item (hperm.mem_iff.mpr hmem)
  blob_ne_nil item hmem := h.blob_ne_nil item (hperm.mem_iff.mpr hmem)
  distinct := (hperm.pairwise_iff fun hne => hne.symm).mp h.distinct
  room := cache.digest.spaceFor_perm hperm ▸ h.room

/-- There is room for the first of them. -/
theorem Batch.first (h : cache.Batch budget location (items ++ more) m) :
    cache.Batch budget location items m where
  isName item hmem := h.isName item (List.mem_append_left _ hmem)
  length_le item hmem := h.length_le item (List.mem_append_left _ hmem)
  free item hmem := h.free item (List.mem_append_left _ hmem)
  blob_ne_nil item hmem := h.blob_ne_nil item (List.mem_append_left _ hmem)
  distinct := (List.pairwise_append.mp h.distinct).1
  room := by
    have hroom := h.room
    rw [cache.digest.spaceFor_append] at hroom
    omega

/-- Once some of the blobs were stored, there is still room for the others. -/
theorem Batch.rest (hstate : cache.state = .enabled path budget)
    (hlead : m.fs.Leads path location) (hlead' : m'.fs.Leads path location)
    (h : cache.Batch budget location (items ++ more) m)
    (hgains : m.Gains cache.digest location items m') : cache.Batch budget location more m' where
  isName item hmem := h.isName item (List.mem_append_right _ hmem)
  length_le item hmem := h.length_le item (List.mem_append_right _ hmem)
  free item hmem := by
    have hother : ∀ old ∈ items,
        location.child item.1.fileName ≠ location.child old.1.fileName := by
      intro old hold e
      exact (List.pairwise_append.mp h.distinct).2.2 old hold item hmem
        (Key.fileName_injective (Location.child_inj.mp e).2).symm
    rw [hgains.get?_eq _ hother]
    exact h.free item (List.mem_append_right _ hmem)
  blob_ne_nil item hmem := h.blob_ne_nil item (List.mem_append_right _ hmem)
  distinct := (List.pairwise_append.mp h.distinct).2.1
  room := by
    have hroom := h.room
    rw [size_eq hstate hlead, cache.digest.spaceFor_append, ← Nat.add_assoc,
      ← hgains.total_eq] at hroom
    rw [size_eq hstate hlead']
    exact hroom

/-! ## Single operations -/

/-- A blob for which there is room is stored under its free name, and that is all. -/
theorem set_gains (hstate : cache.state = .enabled path budget) (hsized : cache.digest.Sized)
    (hpos : 0 < cache.digest.size) (hwf : m.fs.WellFormed) (hlead : m.fs.Leads path location)
    (hname : key.IsName) (hfit : FileSystem.Fits path key.fileName)
    (hfree : m.fs.tree.get? (location.child key.fileName) = none) (hne : blob ≠ [])
    (hroom : m.fs.totalIn location + (blob.length + cache.digest.size) ≤ budget.toNat) :
    (set Machine.host cache key blob m).1 = .stored (blob.length + cache.digest.size) ∧
      (set Machine.host cache key blob m).2.fs.WellFormed ∧
      (set Machine.host cache key blob m).2.fs.Leads path location ∧
      m.Gains cache.digest location [(key, blob)] (set Machine.host cache key blob m).2 := by
  rw [set_of_room hstate hlead hname hne hroom,
    addEntry_of_free hsized hpos hwf hlead hname hfit hfree hne]
  refine ⟨rfl, hwf.storing hname hfit.2 _, hlead.storing hfree _, ?_⟩
  have hother : ∀ place, (∀ item ∈ [(key, blob)], place ≠ location.child item.1.fileName) →
      (m.fs.storing (location.child key.fileName) (Entry.encode cache.digest blob)).tree.get?
        place = m.fs.tree.get? place := by
    intro place hplace
    rw [FileSystem.get?_storing, if_neg (hplace _ List.mem_cons_self)]
  constructor
  case kept =>
    intro place node hget
    refine (hother place fun item hmem e => ?_).trans hget
    rw [List.mem_singleton.mp hmem] at e
    rw [e, hfree] at hget
    cases hget
  case reported => exact ⟨[.stored ..], rfl, fun _ _ _ hmem => nomatch List.mem_singleton.mp hmem⟩
  case added =>
    intro item hmem
    rw [List.mem_singleton.mp hmem]
    exact m.fs.carries_storing _ _
  case get?_eq => exact hother
  case carries_iff =>
    intro place hplace content
    unfold FileSystem.Carries
    rw [Machine.fs_noting, Machine.fs_withFiles, hother place hplace]
    refine exists_congr fun id => and_congr_right fun hget => ?_
    rw [FileSystem.contents_storing_of_lt (hwf.file_lt _ _ hget)]
  case total_eq =>
    rw [Machine.fs_noting, Machine.fs_withFiles]
    refine (FileSystem.totalIn_storing hwf hfree _).trans ?_
    rw [Entry.length_encode hsized, Digest.spaceFor_singleton]

/-- A look-up reports one event at most, and that is not an eviction. -/
theorem get_reports (hwf : m.fs.WellFormed) (hlead : m.fs.Leads path location)
    (hdir : cache.state.directory? = some path) (hkey : key = .empty ∨ key.IsName) :
    ∃ new, (get Machine.host cache key m).2.log = m.log ++ new ∧
      ∀ text accessed size, Event.evicted text accessed size ∉ new := by
  rcases hkey with rfl | hname
  · rw [get_empty]
    exact ⟨[], (List.append_nil _).symm, fun _ _ _ hmem => nomatch hmem⟩
  rw [get_eq hwf hlead hdir hname]
  split
  · exact ⟨[.miss ..], rfl, fun _ _ _ hmem => nomatch List.mem_singleton.mp hmem⟩
  · split
    · exact ⟨[.hit ..], rfl, fun _ _ _ hmem => nomatch List.mem_singleton.mp hmem⟩
    · split
      · exact ⟨[.corruptMiss ..], rfl, fun _ _ _ hmem => nomatch List.mem_singleton.mp hmem⟩
      · exact ⟨[.miss ..], rfl, fun _ _ _ hmem => nomatch List.mem_singleton.mp hmem⟩

/-- What is sound is not removed when it is looked up. -/
theorem get_keeps_sound (hsized : cache.digest.Sized) (hwf : m.fs.WellFormed)
    (hlead : m.fs.Leads path location) (hdir : cache.state.directory? = some path)
    (hname : key.IsName)
    (hsound : ∀ content, m.fs.Carries (location.child key.fileName) content →
      Entry.Sealed cache.digest content) :
    (get Machine.host cache key m).2.fs.tree = m.fs.tree := by
  have hfinds := (get_exact hwf hdir (Key.not_isEmpty_of_isName hname) hsized).1
  refine hfinds.kept fun place id hreadable hdamaged => ?_
  obtain ⟨-, hget⟩ := FileSystem.of_ownNodeAt_join hlead hname hreadable.stands
  exact hdamaged.not_sealed hsized (hsound _ ⟨id, hget, rfl⟩)

end

/-! ## Runs -/

/-- What is done with a cache, and around it. -/
inductive Use where
  /-- A blob is stored. -/
  | store (key : Key) (blob : Bytes)
  /-- An entry is looked up, and held if it is found. -/
  | look (key : Key)
  /-- Some handle is closed. -/
  | close (handle : HandleId)
  /-- The clock is set. -/
  | wait (time : Int)

/-- The key and the blob of a call that is to store one. -/
def Use.item? : Use → Option (Key × Bytes)
  | .store key blob => some (key, blob)
  | _ => none

/-- Does one thing, with the answer if a blob was to be stored. -/
def perform (cache : Cache) : Use → StateM Machine (Option SetOutcome)
  | .store key blob => some <$> set Machine.host cache key blob
  | .look key => do
    let _ ← get Machine.host cache key
    return none
  | .close handle => do
    Machine.host.close handle
    return none
  | .wait time => Machine.onFiles fun fs => (none, { fs with now := time })

/-- Does one thing after another, with the answers of those that were to store a blob. -/
def performAll (cache : Cache) : List Use → StateM Machine (List SetOutcome)
  | [] => return []
  | use :: rest => do
    let outcome ← perform cache use
    let outcomes ← performAll cache rest
    return outcome.toList ++ outcomes

/-- The answers if every blob is stored. -/
def allStored (cache : Cache) (items : List (Key × Bytes)) : List SetOutcome :=
  items.map fun item => .stored (item.2.length + cache.digest.size)

/-- What is looked up is sound or not there. -/
def LooksSound (cache : Cache) (location : Location) (uses : List Use) (m : Machine) : Prop :=
  ∀ key, .look key ∈ uses → key = .empty ∨ key.IsName ∧
    ∀ content, m.fs.Carries (location.child key.fileName) content →
      Entry.Sealed cache.digest content

/-- Blobs were stored, every one of them, and the directory is still in its place. -/
structure StoresAll (cache : Cache) (path : Path) (location : Location)
    (items : List (Key × Bytes)) (m : Machine) (answers : List SetOutcome) (m' : Machine) :
    Prop where
  /-- The answers say so. -/
  answers_eq : answers = cache.allStored items
  /-- The blobs were gained, and the entries have not changed otherwise. -/
  gains : m.Gains cache.digest location items m'
  /-- The file system is well formed. -/
  wellFormed : m'.fs.WellFormed
  /-- The path leads to the directory. -/
  leads : m'.fs.Leads path location

section

variable {cache : Cache} {path : Path} {budget : UInt64} {location : Location} {m m' : Machine}
  {items : List (Key × Bytes)} {uses : List Use}

/-- Nothing was to be stored, and nothing was. -/
theorem StoresAll.none (hgains : m.Gains cache.digest location [] m')
    (hcalm : m.fs.Calm location m'.fs) (hwf : m.fs.WellFormed) (hlead : m.fs.Leads path location) :
    cache.StoresAll path location [] m [] m' :=
  ⟨rfl, hgains, hcalm.wellFormed hwf, hcalm.leads hlead⟩

/-- A blob for which there is room is stored, and everything else gains nothing. -/
theorem perform_stores (hstate : cache.state = .enabled path budget)
    (hsized : cache.digest.Sized) (hpos : 0 < cache.digest.size) (hwf : m.fs.WellFormed)
    (hlead : m.fs.Leads path location) {use : Use}
    (hbatch : cache.Batch budget location use.item?.toList m)
    (hshort : ∀ item ∈ use.item?.toList,
      (Path.join path item.1.fileName).length < FileSystem.pathLimit)
    (hlooks : cache.LooksSound location [use] m) :
    cache.StoresAll path location use.item?.toList m (perform cache use m).1.toList
      (perform cache use m).2 := by
  have hdir : cache.state.directory? = some path := by rw [hstate]; rfl
  have hquiet : ∃ new, m.log = m.log ++ new ∧
      ∀ text accessed size, Event.evicted text accessed size ∉ new :=
    (Machine.Gains.refl cache.digest location m).reported
  cases use with
  | store key blob =>
      have hmem : (key, blob) ∈ (Use.store key blob).item?.toList := List.mem_singleton_self _
      have hroom := hbatch.room
      rw [size_eq hstate hlead, Use.item?, Option.toList_some, Digest.spaceFor_singleton] at hroom
      obtain ⟨hanswer, hwf', hlead', hgains⟩ := set_gains hstate hsized hpos hwf hlead
        (hbatch.isName _ hmem) ⟨hshort _ hmem, hbatch.length_le _ hmem⟩ (hbatch.free _ hmem)
        (hbatch.blob_ne_nil _ hmem) hroom
      exact ⟨congrArg (fun answer => [answer]) hanswer, hgains, hwf', hlead'⟩
  | look key =>
      have hkey : key = .empty ∨ key.IsName :=
        (hlooks key List.mem_cons_self).imp_right And.left
      have hcalm : m.fs.Calm location (get Machine.host cache key m).2.fs :=
        (get_calm hsized hwf (fun _ hother => Option.some.inj (hdir.symm.trans hother) ▸ hlead)
          hkey).files
      have htree : (get Machine.host cache key m).2.fs.tree = m.fs.tree := by
        rcases hlooks key List.mem_cons_self with rfl | ⟨hname, hsound⟩
        · rw [get_empty]
        · exact get_keeps_sound hsized hwf hlead hdir hname hsound
      exact .none (.of_calm hcalm hwf htree (get_reports hwf hlead hdir hkey)) hcalm hwf hlead
  | close handle =>
      have hcalm := FileSystem.Calm.close location m.fs handle
      exact .none (.of_calm hcalm hwf rfl hquiet) hcalm hwf hlead
  | wait time =>
      have hcalm := FileSystem.Calm.setClock location m.fs time
      exact .none (.of_calm hcalm hwf rfl hquiet) hcalm hwf hlead

/-- The items of a list of uses are that of the first one and those of the others. -/
theorem Use.items_cons (use : Use) (rest : List Use) :
    (use :: rest).filterMap Use.item? = use.item?.toList ++ rest.filterMap Use.item? := by
  cases use <;> rfl

/-- A run stores its blobs in the order in which they come. What carries the induction is that what
the directory takes and what is still to be stored stay within the budget together. -/
theorem performAll_stores (hstate : cache.state = .enabled path budget)
    (hsized : cache.digest.Sized) (hpos : 0 < cache.digest.size) (hwf : m.fs.WellFormed)
    (hlead : m.fs.Leads path location)
    (hbatch : cache.Batch budget location (uses.filterMap Use.item?) m)
    (hshort : ∀ item ∈ uses.filterMap Use.item?,
      (Path.join path item.1.fileName).length < FileSystem.pathLimit)
    (hlooks : cache.LooksSound location uses m) :
    cache.StoresAll path location (uses.filterMap Use.item?) m (performAll cache uses m).1
      (performAll cache uses m).2 := by
  induction uses generalizing m with
  | nil => exact .none (.refl _ _ _) (.refl _ _) hwf hlead
  | cons use rest ih =>
      rw [Use.items_cons] at hbatch hshort ⊢
      have hfirst := perform_stores hstate hsized hpos hwf hlead hbatch.first
        (fun item hmem => hshort item (List.mem_append_left _ hmem))
        (fun key hmem => hlooks key (List.mem_singleton.mp hmem ▸ List.mem_cons_self))
      have hrest := ih hfirst.wellFormed hfirst.leads
        (hbatch.rest hstate hlead hfirst.leads hfirst.gains)
        (fun item hmem => hshort item (List.mem_append_right _ hmem))
        (fun key hmem => (hlooks key (List.mem_cons_of_mem _ hmem)).imp_right fun h =>
          ⟨h.1, hfirst.gains.sound h.2⟩)
      refine ⟨?_, hfirst.gains.trans hrest.gains (List.pairwise_append.mp hbatch.distinct).2.2,
        hrest.wellFormed, hrest.leads⟩
      show (perform cache use m).1.toList ++ (performAll cache rest (perform cache use m).2).1 = _
      rw [hfirst.answers_eq, hrest.answers_eq, allStored, allStored, allStored, List.map_append]

/-! ## The law -/

/-- A run stores these blobs in some order, and what it looks up is sound or not there. -/
structure Arranges (cache : Cache) (location : Location) (items : List (Key × Bytes)) (m : Machine)
    (uses : List Use) : Prop where
  /-- Each of the blobs is stored once. -/
  perm : (uses.filterMap Use.item?).Perm items
  /-- Look-ups may come anywhere, of the keys of these blobs too. -/
  sound : cache.LooksSound location uses m

/-- Blobs for which there is room are stored in any order, whatever is looked up in between. Every
one is, nothing is evicted, and the contents in the end are the same. -/
theorem sets_commute (hstate : cache.state = .enabled path budget) (hsized : cache.digest.Sized)
    (hpos : 0 < cache.digest.size) (hwf : m.fs.WellFormed) (hlead : m.fs.Leads path location)
    (hbatch : cache.Batch budget location items m)
    (hshort : ∀ item ∈ items, (Path.join path item.1.fileName).length < FileSystem.pathLimit) :
    (∀ uses, cache.Arranges location items m uses →
        (performAll cache uses m).1 = cache.allStored (uses.filterMap Use.item?) ∧
          m.Gains cache.digest location items (performAll cache uses m).2) ∧
      ∀ uses uses', cache.Arranges location items m uses → cache.Arranges location items m uses' →
        ∀ place content, (performAll cache uses m).2.fs.Carries place content ↔
          (performAll cache uses' m).2.fs.Carries place content := by
  have hall : ∀ uses, cache.Arranges location items m uses →
      (performAll cache uses m).1 = cache.allStored (uses.filterMap Use.item?) ∧
        m.Gains cache.digest location items (performAll cache uses m).2 := by
    intro uses harranges
    have hstores := performAll_stores hstate hsized hpos hwf hlead
      (hbatch.perm harranges.perm.symm)
      (fun item hmem => hshort item (harranges.perm.mem_iff.mp hmem)) harranges.sound
    exact ⟨hstores.answers_eq, hstores.gains.perm harranges.perm⟩
  exact ⟨hall, fun uses uses' h h' => (hall uses h).2.carries_unique (hall uses' h').2⟩

end

/-- An entry of five bytes is being read, and two more fill the budget of sixteen. They are stored
in either order, with look-ups of all three in between. -/
theorem sets_commute_beside_entry_in_use :
    let cache : Cache := ⟨.enabled Path.dot 16, .weightedSum, 0⟩
    let m := (Session.finish (.start [0x77])
      [.openCache "c" (.config ⟨some Path.dot, 16⟩) .weightedSum none .none,
        .onCache "c" (.set (.text "a") [1]), .onCache "c" (.get (.text "a") (some "held"))]).machine
    let uses := [Use.look ⟨"b"⟩, .store ⟨"b"⟩ [2], .look ⟨"a"⟩, .store ⟨"c"⟩ [3, 4]]
    let uses' := [Use.store ⟨"c"⟩ [3, 4], .wait 7, .look ⟨"c"⟩, .store ⟨"b"⟩ [2]]
    (performAll cache uses m).1 = [.stored 5, .stored 6] ∧
      (performAll cache uses' m).1 = [.stored 6, .stored 5] ∧
      ∀ place content, (performAll cache uses m).2.fs.Carries place content ↔
        (performAll cache uses' m).2.fs.Carries place content := by
  intro cache m uses uses'
  have hwf : m.fs.WellFormed := (Session.orderly_finish (.start _) _).wellFormed
  have hlead : m.fs.Leads Path.dot (Location.top.child [0x77]) := by decide +kernel
  have hbatch : cache.Batch 16 (Location.top.child [0x77]) [(⟨"b"⟩, [2]), (⟨"c"⟩, [3, 4])] m := by
    constructor <;> decide +kernel
  have hlaw := sets_commute rfl Digest.sized_weightedSum (by decide +kernel) hwf hlead hbatch
    (by decide +kernel)
  have hsound : ∀ key : Key, key = ⟨"a"⟩ ∨ key = ⟨"b"⟩ ∨ key = ⟨"c"⟩ → key = .empty ∨ key.IsName ∧
      ∀ content, m.fs.Carries ((Location.top.child [0x77]).child key.fileName) content →
        Entry.Sealed cache.digest content := by
    have ha : m.fs.tree.get? ((Location.top.child [0x77]).child (Key.fileName ⟨"a"⟩)) =
        some (.file 0) := by decide +kernel
    rintro key (rfl | rfl | rfl)
    · refine Or.inr ⟨by decide +kernel, ?_⟩
      rintro content ⟨id, hget, rfl⟩
      rw [ha] at hget
      cases hget
      exact ⟨[1], by decide +kernel⟩
    · refine Or.inr ⟨by decide +kernel, ?_⟩
      rintro content ⟨id, hget, -⟩
      rw [hbatch.free _ List.mem_cons_self] at hget
      cases hget
    · refine Or.inr ⟨by decide +kernel, ?_⟩
      rintro content ⟨id, hget, -⟩
      rw [hbatch.free (⟨"c"⟩, [3, 4]) (by decide)] at hget
      cases hget
  have h : cache.Arranges (Location.top.child [0x77]) [(⟨"b"⟩, [2]), (⟨"c"⟩, [3, 4])] m uses := by
    refine ⟨.refl _, fun key hmem => hsound key ?_⟩
    simp only [uses, List.mem_cons, Use.look.injEq, reduceCtorEq, false_or, List.not_mem_nil,
      or_false] at hmem
    tauto
  have h' : cache.Arranges (Location.top.child [0x77]) [(⟨"b"⟩, [2]), (⟨"c"⟩, [3, 4])] m uses' := by
    refine ⟨.swap _ _ _, fun key hmem => hsound key ?_⟩
    simp only [uses', List.mem_cons, Use.look.injEq, reduceCtorEq, false_or, List.not_mem_nil,
      or_false] at hmem
    tauto
  exact ⟨(hlaw.1 uses h).1, (hlaw.1 uses' h').1, hlaw.2 uses uses' h h'⟩

/-- By a path that is as long as a path may be nothing can be stored, though there is room for it.
Nor can it be once the directory is not there. -/
theorem sets_fail_by_long_path :
    (¬∀ (cache : Cache) (path : Path) (budget : UInt64) (location : Location) (m : Machine)
        (items : List (Key × Bytes)) (uses : List Use),
      cache.state = .enabled path budget → cache.digest.Sized → 0 < cache.digest.size →
      m.fs.WellFormed → m.fs.Leads path location → cache.Batch budget location items m →
      cache.Arranges location items m uses →
      (performAll cache uses m).1 = cache.allStored (uses.filterMap Use.item?)) ∧
    ¬∀ (cache : Cache) (path : Path) (budget : UInt64) (m : Machine) (key : Key) (blob : Bytes),
      cache.state = .enabled path budget → cache.digest.Sized → 0 < cache.digest.size →
      m.fs.WellFormed → FileSystem.Fits path key.fileName → key.IsName → blob ≠ [] →
      (size Machine.host cache m).1 + (blob.length + cache.digest.size) ≤ budget.toNat →
      (performAll cache [.store key blob] m).1 = cache.allStored [(key, blob)] := by
  constructor
  · intro h
    have hstored := h ⟨.enabled longPath 100, .weightedSum, 0⟩ longPath 100
      (Location.top.child [0x77]) (Session.start [0x77]).machine [(⟨"a"⟩, [1])]
      [.store ⟨"a"⟩ [1]] rfl Digest.sized_weightedSum (by decide +kernel)
      (FileSystem.wellFormed_initial _) (by decide +kernel)
      (by constructor <;> decide +kernel)
      ⟨.refl _, fun key hmem => nomatch List.mem_singleton.mp hmem⟩
    revert hstored
    decide +kernel
  · intro h
    have hstored := h ⟨.enabled (Path.ofText "gone") 100, .weightedSum, 0⟩ (Path.ofText "gone") 100
      (Session.start [0x77]).machine ⟨"a"⟩ [1] rfl Digest.sized_weightedSum (by decide +kernel)
      (FileSystem.wellFormed_initial _) (by decide +kernel) (by decide +kernel) (by decide)
      (by decide +kernel)
    revert hstored
    decide +kernel

end Cache

end BlobCache
