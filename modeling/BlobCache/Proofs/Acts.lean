import BlobCache.Proofs.Fidelity
import Mathlib.Logic.Relation

/-!
# What caches do, act by act

Whatever is asked of a cache that nothing is refused, it goes about it in a few kinds of acts. It
reports something; it opens an entry that nobody is writing and holds it or closes it again; it
takes away an entry that nobody has open, or one that is damaged and that nobody is writing; it
puts a whole new entry under a free name. `Machine.Act` lists them with what is known when each is
done, and `Machine.Acts` is any number of them.

* `get_acts`, `set_acts`, `verify_acts`, `trim_acts`, `clear_acts` and `Session.loadGraph_acts`:
  every operation is a number of acts.
* `Machine.Acts.wellFormed`, `Machine.Acts.leads`: what every act keeps.
* `Machine.Secures.secures_of_acts`: an entry that somebody has open, and that is not known to be
  damaged, stays under its name and is not reported as evicted.
-/

namespace BlobCache

namespace FileSystem

/-! ## Locks -/

/-- An exclusive lock is granted if there is no other. -/
theorem lockable_exclusive_iff {fs : FileSystem} {id : FileId} :
    fs.lockable id .exclusive = true ↔ fs.locksOn id = [] := by
  unfold lockable
  cases fs.locksOn id with
  | nil => simp
  | cons lock rest => simp [Lock.compatible]

/-- A shared lock is granted if there is no exclusive one. -/
theorem lockable_shared_iff {fs : FileSystem} {id : FileId} :
    fs.lockable id .shared = true ↔ ∀ lock ∈ fs.locksOn id, lock = .shared := by
  unfold lockable
  rw [List.all_eq_true]
  refine forall₂_congr fun lock _ => ?_
  cases lock <;> simp [Lock.compatible]

/-- As long as handles stay open, locks stay in force. -/
theorem locksOn_mono {fs fs' : FileSystem}
    (h : ∀ handle file, fs.handles.get? handle = some file → fs'.handles.get? handle = some file)
    {id : FileId} {lock : Lock} (hmem : lock ∈ fs.locksOn id) : lock ∈ fs'.locksOn id := by
  obtain ⟨handle, file, hget, hfile, hlock⟩ := mem_locksOn.mp hmem
  exact mem_locksOn.mpr ⟨handle, file, h handle file hget, hfile, hlock⟩

end FileSystem

namespace Machine

/-! ## Acts -/

/-- One act of a cache that keeps its entries in a directory. -/
inductive Act (digest : Digest) (location : Location) (m : Machine) : Machine → Prop where
  /-- Something is reported, but no eviction. -/
  | report {event : Event} (h : ∀ text accessed size, event ≠ .evicted text accessed size) :
    Act digest location m (m.noting event)
  /-- The compiler runs. -/
  | count : Act digest location m m.counted
  /-- A file gets another access time. -/
  | date (id : FileId) (time : Int) :
    Act digest location m (m.withFiles (m.fs.setAccessTime id time))
  /-- A file was opened and closed again. -/
  | glance : Act digest location m (m.withFiles m.fs.spent)
  /-- An entry that nobody is writing is opened and held. -/
  | hold {place : Location} {id : FileId} (path : Path)
    (hget : m.fs.tree.get? place = some (.file id)) (hlock : m.fs.lockable id .shared = true) :
    Act digest location m (m.withFiles (m.fs.holding path id))
  /-- An entry that has one name and that nobody has open is evicted. -/
  | evict {entry : Entry} {id : FileId}
    (hget : m.fs.tree.get? (location.child (Path.ofText entry.name)) = some (.file id))
    (hsingle : m.fs.linkCount (.file id) ≤ 1) (hidle : m.fs.locksOn id = []) :
    Act digest location m (m.evicting location entry id)
  /-- A damaged entry that has one name and that nobody is writing is removed. -/
  | discard {name : Bytes} {id : FileId} {path : Path} {error : StoreError}
    (hget : m.fs.tree.get? (location.child name) = some (.file id))
    (hsingle : m.fs.linkCount (.file id) ≤ 1) (hlock : m.fs.lockable id .shared = true)
    (hcheck : Entry.check digest path (m.fs.contents id) = .error error)
    (hcorrupt : error.isCorrupt = true) :
    Act digest location m (m.withFiles (m.fs.spent.unbind (location.child name)))
  /-- An entry could not be finished, and its file has no name any more. -/
  | lose (file : FileData) (count : Nat) :
    Act digest location m (m.withFiles
      { m.fs with files := m.fs.files.set m.fs.next file, next := m.fs.next + count })
  /-- A new entry is put under a free name. -/
  | store {name : Bytes} (content : Bytes) (hname : Path.IsName name)
    (hlength : name.length ≤ FileSystem.nameLimit)
    (hfree : m.fs.tree.get? (location.child name) = none) :
    Act digest location m (m.withFiles (m.fs.storing (location.child name) content))

/-- Any number of acts. -/
def Acts (digest : Digest) (location : Location) : Machine → Machine → Prop :=
  Relation.ReflTransGen (Act digest location)

variable {digest : Digest} {location : Location} {m m' m'' : Machine}

namespace Act

/-- An act is calm, or it puts a new entry under a free name. -/
theorem calm_or_stores (h : Act digest location m m') :
    m.fs.Calm location m'.fs ∨
      ∃ name content, Path.IsName name ∧ name.length ≤ FileSystem.nameLimit ∧
        m.fs.tree.get? (location.child name) = none ∧
        m'.fs = m.fs.storing (location.child name) content := by
  cases h with
  | report h => exact Or.inl (.refl _ _)
  | count => exact Or.inl (.refl _ _)
  | date id time => exact Or.inl (.setAccessTime location m.fs id time)
  | glance => exact Or.inl (.spent location m.fs)
  | hold path hget hlock => exact Or.inl (.holding hget path)
  | evict hget hsingle hidle =>
      exact Or.inl ((FileSystem.Calm.spent location m.fs).trans (.unbind hget))
  | discard hget hsingle hlock hcheck hcorrupt =>
      exact Or.inl ((FileSystem.Calm.spent location m.fs).trans (.unbind hget))
  | lose file count => exact Or.inl (.addLost location m.fs file count)
  | store content hname hlength hfree => exact Or.inr ⟨_, content, hname, hlength, hfree, rfl⟩

/-- An act keeps the file system well formed. -/
theorem wellFormed (h : Act digest location m m') (hwf : m.fs.WellFormed) : m'.fs.WellFormed := by
  rcases h.calm_or_stores with hcalm | ⟨name, content, hname, hlength, -, hfs⟩
  · exact hcalm.wellFormed hwf
  · rw [hfs]
    exact hwf.storing hname hlength content

/-- After an act a path leads where it led. -/
theorem leads (h : Act digest location m m') {path : Path} {place : Location}
    (hlead : m.fs.Leads path place) : m'.fs.Leads path place := by
  rcases h.calm_or_stores with hcalm | ⟨name, content, -, -, hfree, hfs⟩
  · exact hcalm.leads hlead
  · rw [hfs]
    exact hlead.storing hfree content

/-- No content changes. -/
theorem contents_eq (h : Act digest location m m') {id : FileId} (hlt : id < m.fs.next) :
    m'.fs.contents id = m.fs.contents id := by
  rcases h.calm_or_stores with hcalm | ⟨name, content, -, -, -, hfs⟩
  · exact hcalm.contents_eq id hlt
  · rw [hfs]
    exact FileSystem.contents_storing_of_lt hlt

/-- An act leaves the working directory where it is. -/
theorem current_eq (h : Act digest location m m') : m'.fs.current = m.fs.current := by
  rcases h.calm_or_stores with hcalm | ⟨name, content, -, -, -, hfs⟩
  · exact hcalm.current_eq
  · rw [hfs]
    rfl

/-- What is open stays open. -/
theorem handles (h : Act digest location m m') (hwf : m.fs.WellFormed) {handle : HandleId}
    {file : OpenFile} (hget : m.fs.handles.get? handle = some file) :
    m'.fs.handles.get? handle = some file := by
  cases h with
  | hold path hfile hlock =>
      have hne : handle ≠ m.fs.next := Nat.ne_of_lt (hwf.handle_lt handle file hget)
      exact (Table.get?_set_ne _ hne _).trans hget
  | _ => exact hget

end Act

namespace Acts

/-- No acts at all. -/
theorem refl (digest : Digest) (location : Location) (m : Machine) : m.Acts digest location m :=
  Relation.ReflTransGen.refl

/-- One act. -/
theorem single (h : Act digest location m m') : m.Acts digest location m' :=
  Relation.ReflTransGen.single h

/-- Acts, and more acts after them. -/
theorem trans (h : m.Acts digest location m') (h' : m'.Acts digest location m'') :
    m.Acts digest location m'' := Relation.ReflTransGen.trans h h'

/-- Acts, and one more after them. -/
theorem act (h : m.Acts digest location m') (h' : Act digest location m' m'') :
    m.Acts digest location m'' := Relation.ReflTransGen.tail h h'

/-- Acts keep the file system well formed. -/
theorem wellFormed (h : m.Acts digest location m') (hwf : m.fs.WellFormed) :
    m'.fs.WellFormed := by
  induction h with
  | refl => exact hwf
  | tail _ hact ih => exact hact.wellFormed ih

/-- After any number of acts a path leads where it led. -/
theorem leads (h : m.Acts digest location m') {path : Path} {place : Location}
    (hlead : m.fs.Leads path place) : m'.fs.Leads path place := by
  induction h with
  | refl => exact hlead
  | tail _ hact ih => exact hact.leads ih

/-- Acts leave the working directory where it is. -/
theorem current_eq (h : m.Acts digest location m') : m'.fs.current = m.fs.current := by
  induction h with
  | refl => rfl
  | tail _ hact ih => exact hact.current_eq.trans ih

end Acts

/-! ## Entries in use -/

/-- An entry that somebody has open. Either it is being written, or it passes the check; and no
eviction of it is reported. -/
structure Secures (digest : Digest) (location : Location) (name : Bytes) (id : FileId)
    (m : Machine) : Prop where
  /-- It stands under its name. -/
  bound : m.fs.tree.get? (location.child name) = some (.file id)
  /-- Somebody has it open. -/
  locked : m.fs.locksOn id ≠ []
  /-- It is being written, or it is not damaged. -/
  intact : .exclusive ∈ m.fs.locksOn id ∨ ∀ path error,
    Entry.check digest path (m.fs.contents id) = .error error → error.isCorrupt = false
  /-- No eviction of it is reported. -/
  notEvicted : m.NotEvicted name

namespace Secures

variable {name : Bytes} {id : FileId}

/-- It goes on being in use where its name, its content and its locks are as they were. -/
theorem of_same (h : m.Secures digest location name id)
    (hbound : m'.fs.tree.get? (location.child name) = some (.file id))
    (hlocks : ∀ lock, lock ∈ m.fs.locksOn id → lock ∈ m'.fs.locksOn id)
    (hcontents : m'.fs.contents id = m.fs.contents id) (hnot : m'.NotEvicted name) :
    m'.Secures digest location name id where
  bound := hbound
  locked := by
    obtain ⟨lock, hlock⟩ := List.exists_mem_of_ne_nil _ h.locked
    exact List.ne_nil_of_mem (hlocks lock hlock)
  intact := by
    rw [hcontents]
    exact h.intact.imp_left (hlocks _)
  notEvicted := hnot

/-- Nobody evicts an entry in use, and nobody removes it as damaged. -/
theorem secures_of_act (h : m.Secures digest location name id) (hwf : m.fs.WellFormed)
    (hact : Act digest location m m') : m'.Secures digest location name id := by
  have hlt : id < m.fs.next := hwf.file_lt _ _ h.bound
  have hstays : m'.fs.tree.get? (location.child name) = some (.file id) → m'.NotEvicted name →
      m'.Secures digest location name id := fun hbound hnot =>
    h.of_same hbound (fun _ => FileSystem.locksOn_mono fun _ _ => hact.handles hwf)
      (hact.contents_eq hlt) hnot
  cases hact with
  | report hevent => exact hstays h.bound (h.notEvicted.noting hevent)
  | count => exact hstays h.bound h.notEvicted
  | date other time => exact hstays h.bound h.notEvicted
  | glance => exact hstays h.bound h.notEvicted
  | hold path hget hlock => exact hstays h.bound h.notEvicted
  | @evict entry other hget hsingle hidle =>
      have hne : Path.ofText entry.name ≠ name := by
        rintro rfl
        rw [h.bound] at hget
        cases hget
        exact h.locked hidle
      refine hstays ?_ fun text accessed size htext hmem => ?_
      · exact (Table.get?_erase_ne _ fun e => hne (Location.child_inj.mp e).2.symm).trans h.bound
      · rcases List.mem_append.mp hmem with hmem | hmem
        · exact h.notEvicted text accessed size htext hmem
        · cases List.mem_singleton.mp hmem
          exact hne htext
  | @discard other otherId path error hget hsingle hlock hcheck hcorrupt =>
      have hne : other ≠ name := by
        rintro rfl
        rw [h.bound] at hget
        cases hget
        rcases h.intact with hwriting | hsound
        · have := FileSystem.lockable_shared_iff.mp hlock _ hwriting
          cases this
        · rw [hsound path error hcheck] at hcorrupt
          cases hcorrupt
      refine hstays ?_ h.notEvicted
      exact (Table.get?_erase_ne _ fun e => hne (Location.child_inj.mp e).2.symm).trans h.bound
  | lose file count => exact hstays h.bound h.notEvicted
  | @store other content hname hlength hfree =>
      refine hstays ?_ h.notEvicted
      have hne : location.child name ≠ location.child other := by
        intro e
        rw [← e, h.bound] at hfree
        cases hfree
      exact (FileSystem.get?_storing _ _ _ _).trans ((if_neg hne).trans h.bound)

/-- An entry in use stays in use, whatever caches do. -/
theorem secures_of_acts (h : m.Secures digest location name id) (hwf : m.fs.WellFormed)
    (hacts : m.Acts digest location m') : m'.Secures digest location name id := by
  induction hacts with
  | refl => exact h
  | tail hacts hact ih => exact ih.secures_of_act (Acts.wellFormed hacts hwf) hact

end Secures

end Machine

namespace Cache

variable {digest : Digest} {location : Location} {path : Path} {m : Machine} {cache : Cache}
  {key : Key}

/-! ## Looking up -/

/-- Getting an entry looks at it, holds it, or discards it as damaged. -/
theorem get_acts (hwf : m.fs.WellFormed)
    (hlead : ∀ path, cache.state.directory? = some path → m.fs.Leads path location)
    (hkey : key = .empty ∨ key.IsName) :
    m.Acts cache.digest location (get Machine.host cache key m).2 := by
  rcases hdir : cache.state.directory? with _ | path
  · rw [get_of_disabled hdir]
    exact .refl _ _ _
  rcases hkey with rfl | hname
  · rw [get_empty]
    exact .refl _ _ _
  rw [get_eq hwf (hlead path hdir) hdir hname]
  rcases hgranted : m.fs.granted (entryPath path key) .shared with error | id
  · exact .single (.report fun _ _ _ e => by cases e)
  obtain ⟨-, hget, hsingle, hlock⟩ :=
    (FileSystem.granted_eq_ok_iff (hlead path hdir) hname).mp hgranted
  rcases hcheck : Entry.check cache.digest (entryPath path key) (m.fs.contents id) with
    error | length
  · by_cases hcorrupt : error.isCorrupt = true
    · simp only [hcheck, hcorrupt, if_true]
      exact (Machine.Acts.single (.discard hget hsingle hlock hcheck hcorrupt)).act
        (.report fun _ _ _ e => by cases e)
    · simp only [hcheck, hcorrupt]
      exact (Machine.Acts.single .glance).act (.report fun _ _ _ e => by cases e)
  · simp only [hcheck]
    exact (Machine.Acts.single (.hold _ hget hlock)).act (.report fun _ _ _ e => by cases e)

/-- The size of a directory is found out without any act but a report. -/
theorem size_acts (hlead : ∀ path, cache.state.directory? = some path → m.fs.Leads path location) :
    m.Acts digest location (size Machine.host cache m).2 := by
  unfold size
  rcases hdir : cache.state.directory? with _ | path
  · exact .refl _ _ _
  · simp only [sizeOf_eq (hlead path hdir)]
    exact .refl _ _ _

/-- So is the list of its entries. -/
theorem entries_acts
    (hlead : ∀ path, cache.state.directory? = some path → m.fs.Leads path location) :
    m.Acts digest location (entries Machine.host cache m).2 := by
  unfold entries
  rcases hdir : cache.state.directory? with _ | path
  · exact .refl _ _ _
  · simp only [entriesOf_eq (hlead path hdir)]
    exact .refl _ _ _

/-! ## Evicting -/

/-- Going through entries to evict them is an eviction of each that can be had. -/
theorem evictFrom_acts (hwf : m.fs.WellFormed) (hlead : m.fs.Leads path location)
    {entries : List Entry} (hnames : ∀ entry ∈ entries, Path.IsName (Path.ofText entry.name))
    (needed freed : Nat) :
    m.Acts digest location (evictFrom Machine.host path needed entries freed m).2 := by
  induction entries generalizing m freed with
  | nil => exact .refl _ _ _
  | cons entry rest ih =>
      have hname := hnames entry List.mem_cons_self
      have hrest : ∀ other ∈ rest, Path.IsName (Path.ofText other.name) :=
        fun other hmem => hnames other (List.mem_cons_of_mem _ hmem)
      have hthen : ∀ {m' : Machine}, Machine.Act digest location m m' → ∀ freed,
          m.Acts digest location (evictFrom Machine.host path needed rest freed m').2 :=
        fun hact freed =>
          (Machine.Acts.single hact).trans (ih (hact.wellFormed hwf) (hact.leads hlead) hrest freed)
      rw [evictFrom_cons hwf hlead hname]
      rcases hgranted : m.fs.granted (Path.join path (Path.ofText entry.name)) .exclusive with
        error | id
      · exact hthen (.report fun _ _ _ e => by cases e) freed
      · obtain ⟨-, hget, hsingle, hlock⟩ := (FileSystem.granted_eq_ok_iff hlead hname).mp hgranted
        have hact : Machine.Act digest location m (m.evicting location entry id) :=
          .evict hget hsingle (FileSystem.lockable_exclusive_iff.mp hlock)
        simp only
        split
        · exact .single hact
        · exact hthen hact _

/-- Evicting from a directory is one pass over its entries. -/
theorem evict_acts (hwf : m.fs.WellFormed) (hlead : m.fs.Leads path location) (needed : Nat) :
    m.Acts digest location (evict Machine.host path needed m).2 := by
  rw [evict_eq hlead]
  exact evictFrom_acts hwf hlead (fun _ => isName_of_mem_entriesIn hwf) needed 0

/-- Trimming evicts, if at all. -/
theorem trim_acts (hwf : m.fs.WellFormed)
    (hlead : ∀ path, cache.state.directory? = some path → m.fs.Leads path location) :
    m.Acts digest location (trim Machine.host cache m).2 := by
  unfold trim
  rcases hdir : cache.state.directory? with _ | path
  · exact .refl _ _ _
  · simp only [Machine.run_bind, sizeOf_eq (hlead path hdir)]
    split
    · exact .refl _ _ _
    · exact evict_acts hwf (hlead path hdir) _

/-- Clearing evicts, if at all. -/
theorem clear_acts (hwf : m.fs.WellFormed)
    (hlead : ∀ path, cache.state.directory? = some path → m.fs.Leads path location) :
    m.Acts digest location (clear Machine.host cache m).2 := by
  unfold clear
  rcases hdir : cache.state.directory? with _ | path
  · exact .refl _ _ _
  · exact evict_acts hwf (hlead path hdir) _

/-! ## Checking -/

/-- Going through entries to check them glances at each and discards the damaged ones. -/
theorem verifyFrom_acts (hwf : m.fs.WellFormed) (hlead : m.fs.Leads path location)
    {entries : List Entry} (hnames : ∀ entry ∈ entries, Path.IsName (Path.ofText entry.name))
    (found : VerifyReport) :
    m.Acts digest location (verifyFrom Machine.host digest path entries found m).2 := by
  induction entries generalizing m found with
  | nil => exact .refl _ _ _
  | cons entry rest ih =>
      have hname := hnames entry List.mem_cons_self
      have hrest : ∀ other ∈ rest, Path.IsName (Path.ofText other.name) :=
        fun other hmem => hnames other (List.mem_cons_of_mem _ hmem)
      have hthen : ∀ {m' : Machine}, m.Acts digest location m' → ∀ found,
          m.Acts digest location (verifyFrom Machine.host digest path rest found m').2 :=
        fun hacts found =>
          hacts.trans (ih (hacts.wellFormed hwf) (hacts.leads hlead) hrest found)
      rw [verifyFrom_cons hwf hlead hname]
      rcases hgranted : m.fs.granted (Path.join path (Path.ofText entry.name)) .shared with
        error | id
      · exact hthen (.single (.report fun _ _ _ e => by cases e)) _
      obtain ⟨-, hget, hsingle, hlock⟩ := (FileSystem.granted_eq_ok_iff hlead hname).mp hgranted
      rcases hcheck : Entry.check digest (Path.join path (Path.ofText entry.name))
          (m.fs.contents id) with error | length
      · by_cases hcorrupt : error.isCorrupt = true
        · simp only [hcheck, hcorrupt, if_true]
          exact hthen ((Machine.Acts.single (.discard hget hsingle hlock hcheck hcorrupt)).act
            (.report fun _ _ _ e => by cases e)) _
        · simp only [hcheck, hcorrupt]
          exact hthen ((Machine.Acts.single .glance).act (.report fun _ _ _ e => by cases e)) _
      · simp only [hcheck]
        exact hthen (.single .glance) _

/-- Checking a directory is one pass over its entries. -/
theorem verify_acts (hwf : m.fs.WellFormed)
    (hlead : ∀ path, cache.state.directory? = some path → m.fs.Leads path location) :
    m.Acts cache.digest location (verify Machine.host cache m).2 := by
  unfold verify
  rcases hdir : cache.state.directory? with _ | path
  · exact .refl _ _ _
  · simp only [Machine.run_bind, entriesOf_eq (hlead path hdir)]
    exact verifyFrom_acts hwf (hlead path hdir) (fun _ => isName_of_mem_entriesIn hwf) _

/-! ## Storing -/

/-- Making room evicts, if at all. -/
theorem makeRoom_acts (hwf : m.fs.WellFormed) (hlead : m.fs.Leads path location)
    (budget added : Nat) :
    m.Acts digest location (makeRoom Machine.host path budget added m).2 := by
  rw [makeRoom_eq hlead]
  split
  · exact .refl _ _ _
  · exact evict_acts hwf hlead _

/-- Adding an entry stores all of it or nothing. -/
theorem addEntry_acts (hwf : m.fs.WellFormed) (hlead : m.fs.Leads path location)
    (hname : key.IsName) {blob : Bytes} (hne : blob ≠ []) (size : Nat) :
    m.Acts digest location (addEntry Machine.host digest path size key blob m).2 := by
  rw [addEntry_eq hwf hlead hname hne]
  rcases hunder : m.fs.under path location key.fileName with cause | _ | node
  · exact .single (.report fun _ _ _ e => by cases e)
  · obtain ⟨hfit, hfree⟩ := FileSystem.under_eq_ok_iff.mp hunder
    by_cases hsum : digest.of blob = []
    · simp only [hsum, if_true, FileSystem.unbind_storing hfree]
      exact (Machine.Acts.single (.lose _ 2)).act (.report fun _ _ _ e => by cases e)
    · simp only [hsum, if_false]
      exact (Machine.Acts.single (.store _ hname hfit.2 hfree)).act
        (.report fun _ _ _ e => by cases e)
  · exact .single (.report fun _ _ _ e => by cases e)

/-- Storing a blob makes room for it and adds an entry. -/
theorem set_acts (hwf : m.fs.WellFormed)
    (hlead : ∀ path, cache.state.directory? = some path → m.fs.Leads path location)
    (hkey : key = .empty ∨ key.IsName) (blob : Bytes) :
    m.Acts cache.digest location (set Machine.host cache key blob m).2 := by
  rcases set_cases cache key blob m with
    ⟨reason, m', heq, hm'⟩ | ⟨path, budget, hstate, hnonempty, hne, -, heq⟩
  · rw [heq]
    rcases hm' with rfl | ⟨budget, rfl⟩
    · exact .refl _ _ _
    · exact .single (.report fun _ _ _ e => by cases e)
  have hname : key.IsName := hkey.resolve_left fun e => by rw [e] at hnonempty; cases hnonempty
  have hlead := hlead path (by rw [hstate]; rfl)
  have hroom : m.Acts cache.digest location _ :=
    makeRoom_acts hwf hlead budget.toNat (blob.length + cache.digest.size)
  rw [heq]
  exact hroom.trans (addEntry_acts (hroom.wellFormed hwf) (hroom.leads hlead) hname hne _)

/-! ## Loading -/

/-- Offering a blob is storing it, with a remark about the outcome. -/
theorem offer_acts (hwf : m.fs.WellFormed)
    (hlead : ∀ path, cache.state.directory? = some path → m.fs.Leads path location)
    (hkey : key = .empty ∨ key.IsName) (blob : Bytes) :
    m.Acts cache.digest location (offer Machine.host cache key blob m).2 := by
  have hset := set_acts hwf hlead hkey blob
  unfold offer
  rw [Machine.run_bind]
  rcases (set Machine.host cache key blob m).1 with size | reason | _
  · exact hset
  · exact hset.act (.report fun _ _ _ e => by cases e)
  · exact hset.act (.report fun _ _ _ e => by cases e)

end Cache

namespace Session

variable {location : Location} {m : Machine} {cache : Cache} {key : Key}

/-- Marking an entry as used gives it another date. -/
theorem markUsed_acts (digest : Digest) (location : Location) (cache : Cache) (key : Key)
    (m : Machine) : m.Acts digest location (markUsed cache key m).2 := by
  rcases markUsed_cases cache key m with h | ⟨id, h⟩ <;> rw [h]
  · exact .refl _ _ _
  · exact .single (.date id _)

/-- A look-up gets an entry, counts and marks it. -/
theorem lookUp_acts (hwf : m.fs.WellFormed)
    (hlead : ∀ path, cache.state.directory? = some path → m.fs.Leads path location)
    (hkey : key = .empty ∨ key.IsName) :
    m.Acts cache.digest location (lookUp Machine.host cache key m).2 := by
  have hget := Cache.get_acts hwf hlead hkey
  unfold lookUp
  rw [Machine.run_bind]
  rcases (Cache.get Machine.host cache key m).1 with _ | blob
  · exact hget
  · exact hget.trans (markUsed_acts _ _ _ _ _)

/-- Loading a graph looks it up and offers what was compiled. -/
theorem loadGraph_acts (hwf : m.fs.WellFormed)
    (hlead : ∀ path, cache.state.directory? = some path → m.fs.Leads path location)
    {compiler : Option Compiler} {request : Request}
    (hkey : cache.keyOf compiler request = .empty ∨ (cache.keyOf compiler request).IsName)
    (compiled : Except String Bytes) :
    m.Acts cache.digest location
      (loadGraph Machine.host cache compiler request compiled m).2 := by
  unfold loadGraph Cache.load
  by_cases hempty : request.input.isEmpty = true
  · simp only [hempty, if_true]
    exact .refl _ _ _
  by_cases hnative : request.format = .native
  · simp only [hempty, hnative, if_true]
    exact .refl _ _ _
  by_cases hflag : request.flags.contains .disableCaching = true
  · simp only [hempty, hnative, hflag, if_true, if_false]
    have hcounted : m.Acts cache.digest location (m.noting .cachingDisabled).counted :=
      (Machine.Acts.single (.report fun _ _ _ e => by cases e)).act .count
    cases compiled with
    | error text => exact hcounted
    | ok bytes => exact hcounted
  simp only [hempty, hnative, hflag, Bool.false_eq_true, if_false, Machine.run_bind]
  have hget := Cache.get_acts hwf hlead hkey
  rcases (Cache.get Machine.host cache (cache.keyOf compiler request) m).1 with _ | blob
  · have hcounted := hget.act .count
    cases compiled with
    | error text => exact hcounted
    | ok bytes =>
        have hoffer := hcounted.trans (Cache.offer_acts (hcounted.wellFormed hwf)
          (fun path hdir => hcounted.leads (hlead path hdir)) hkey bytes)
        simp only [Machine.run_bind, Machine.run_pure, Machine.run_countCompilation]
        split
        · exact hoffer.trans (markUsed_acts _ _ _ _ _)
        · exact hoffer
  · exact hget.trans (markUsed_acts _ _ _ _ _)

end Session

end BlobCache
