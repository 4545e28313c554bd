import BlobCache.Proofs.Disabled
import BlobCache.Proofs.Finding

/-!
# The tool at its cache

`Cli.withCache_eq`: a command line that aims at a directory that is there works on an enabled cache
there, and opening this cache changes no file.

What a cache does with its files does not depend on what was reported before (`Machine.Heedless`),
so the tool can be compared with a cache that someone else opened.
-/

namespace BlobCache

namespace FileSystem

/-! ## Directories that are there already -/

/-- The last component of a path to a directory is no name of an entry, or one that is taken. -/
def Settled (fs : FileSystem) (here : Location) (last : Bytes) : Prop :=
  IsStay last ∨ last = Path.dotDot ∨ ∃ node, fs.nodeIn here last = .ok (some node)

section walks

variable {fs : FileSystem} {follow follow' : Location → List Bytes → Except Cause Spot}
  {last : Bytes} {location : Location}

/-- Names that end at a directory lead to one before the last of them, in which the last is settled,
if what follows a link does so. -/
theorem walkNames_settled
    (hfollow : ∀ here names,
      follow here (names ++ [last]) = .ok (.occupied location .directory) →
      ∃ parent, follow' here names = .ok (.occupied parent .directory) ∧ fs.Settled parent last)
    (here : Location) (names : List Bytes)
    (h : walkNames fs .finding follow here (names ++ [last]) =
      .ok (.occupied location .directory)) :
    ∃ parent, walkNames fs .finding follow' here names = .ok (.occupied parent .directory) ∧
      fs.Settled parent last := by
  induction names generalizing here with
  | nil =>
      refine ⟨here, by rw [walkNames], ?_⟩
      rw [List.nil_append, walkNames_cons_eq_directory] at h
      rcases h with ⟨hs, -⟩ | ⟨hup, -⟩ | ⟨-, ⟨hn, -⟩ | ⟨id, target, hn, -⟩⟩
      · exact Or.inl hs
      · exact Or.inr (Or.inl hup)
      · exact Or.inr (Or.inr ⟨_, hn⟩)
      · exact Or.inr (Or.inr ⟨_, hn⟩)
  | cons name rest ih =>
      rw [List.cons_append, walkNames_cons_eq_directory] at h
      rcases h with ⟨hs, h⟩ | ⟨hup, h⟩ | ⟨⟨hs, hup⟩, ⟨hn, h⟩ | ⟨id, target, hn, h⟩⟩
      · rw [walkNames_stay hs]
        exact ih _ h
      · rw [hup, walkNames_up]
        exact ih _ h
      · rw [walkNames_proper hs hup here (by simp), hn]
        exact ih _ h
      · rw [walkNames_proper hs hup here (by simp), hn]
        rw [← List.append_assoc] at h
        exact hfollow _ _ h

/-- A walk that ends at a directory is at one before its last name, and there that name is
settled. -/
theorem walk_settled (links : Nat) (here : Location) (names : List Bytes)
    (h : fs.walk .finding links here (names ++ [last]) = .ok (.occupied location .directory)) :
    ∃ parent, fs.walk .finding links here names = .ok (.occupied parent .directory) ∧
      fs.Settled parent last := by
  induction links generalizing here names with
  | zero => exact walkNames_settled (fun _ _ h => by cases h) here names h
  | succ links ih => exact walkNames_settled ih here names h

end walks

section paths

variable {fs : FileSystem} {path : Path} {location : Location}

/-- Where a directory is, no other can be made. -/
theorem vacancy_of_leads (h : fs.Leads path location) :
    fs.vacancy path none = .error (.system .alreadyExists) := by
  obtain ⟨hcheck, hwalk⟩ := leads_iff.mp h
  unfold vacancy resolveLast
  rcases hnames : (Path.components path).reverse with _ | ⟨last, before⟩
  · simp [hcheck]
  have hcomponents : Path.components path = before.reverse ++ [last] := by
    rw [← List.reverse_reverse (Path.components path), hnames, List.reverse_cons]
  rw [hcomponents] at hwalk
  obtain ⟨parent, hparent, hsettled⟩ := walk_settled _ _ _ hwalk
  have hdot : fs.walkFrom .finding path (before.reverse ++ [Path.dot]) =
      .ok (.occupied parent .directory) :=
    (walk_append_stay fs (Or.inl rfl) _ _ _ _).mpr hparent
  have hmem : last ∈ Path.components path := by
    rw [hcomponents]
    exact List.mem_append_right _ List.mem_cons_self
  have hne : last ≠ endSlash := Path.ne_nil_of_mem_components hmem
  simp only [hcheck, hdot, except_ok_bind]
  by_cases hstay : last = Path.dot
  · simp [hstay]
  by_cases hup : last = Path.dotDot
  · simp [hup, Path.dotDot, Path.dot]
  · obtain ⟨node, hnode⟩ := (hsettled.resolve_left (not_or.mpr ⟨hstay, hne⟩)).resolve_left hup
    simp [hstay, hup, hnode]

/-- Making a directory that is there does nothing. -/
theorem makeDirectories_of_leads (h : fs.Leads path location) :
    fs.makeDirectories path = (.ok (), fs) := by
  have hvacancy := vacancy_of_leads h
  rcases hnames : (Path.plain path).names with _ | ⟨last, outer⟩
  · unfold makeDirectories
    simp only [hnames]
  · have hnode : fs.nodeAt path = .ok (location, .directory) := h
    rw [makeDirectories_of_found hnames (fun e => by rw [hvacancy] at e; cases e)]
    unfold settleDirectory directoryAt
    rw [hvacancy, hnode]
    rfl

end paths

end FileSystem

/-! ## Programs that heed no report -/

namespace Machine

variable {α β : Type} {m m' : Machine}

/-- What the program answers and what it does to the files do not depend on what was reported. -/
def Heedless (x : StateM Machine α) : Prop :=
  ∀ m m' : Machine, m.fs = m'.fs → (x m).1 = (x m').1 ∧ (x m).2.fs = (x m').2.fs

namespace Heedless

/-- To return a result heeds no report. -/
theorem pure (a : α) : Heedless (Pure.pure a) := fun _ _ hfs => ⟨rfl, hfs⟩

/-- A program heeds no report if none of its parts does. -/
theorem bind {x : StateM Machine α} {f : α → StateM Machine β} (hx : Heedless x)
    (hf : ∀ a, Heedless (f a)) : Heedless (x >>= f) := by
  intro m m' hfs
  obtain ⟨hanswer, hafter⟩ := hx m m' hfs
  simp only [Machine.run_bind, hanswer]
  exact hf _ _ _ hafter

/-- An operation on the files heeds no report. -/
theorem onFiles (operation : FileSystem → α × FileSystem) :
    Heedless (Machine.onFiles operation) := by
  intro m m' hfs
  unfold Machine.onFiles
  rw [hfs]
  exact ⟨rfl, rfl⟩

/-- Nor does a question about them. -/
theorem askFiles (question : FileSystem → α) : Heedless (Machine.askFiles question) := by
  intro m m' hfs
  unfold Machine.askFiles
  rw [hfs]
  exact ⟨rfl, rfl⟩

/-- To report one more event heeds no other. -/
theorem report (event : Event) : Heedless (host.report event) := fun _ _ hfs => ⟨rfl, hfs⟩

/-- To open for reading heeds no report. -/
theorem openShared (path : Path) : Heedless (host.openShared path) := onFiles _

/-- To open for eviction heeds no report. -/
theorem openExclusive (path : Path) : Heedless (host.openExclusive path) := onFiles _

/-- To create a file heeds no report. -/
theorem create (path : Path) : Heedless (host.create path) := onFiles _

/-- To remove a file heeds no report. -/
theorem remove (path : Path) : Heedless (host.remove path) := onFiles _

/-- To list a directory heeds no report. -/
theorem list (path : Path) : Heedless (host.list path) := askFiles _

/-- To ask for a size heeds no report. -/
theorem size (handle : HandleId) : Heedless (host.size handle) := askFiles _

/-- To map a file heeds no report. -/
theorem map (handle : HandleId) : Heedless (host.map handle) := onFiles _

/-- To write heeds no report. -/
theorem write (handle : HandleId) (data : Bytes) : Heedless (host.write handle data) := onFiles _

/-- To close a file heeds no report. -/
theorem close (handle : HandleId) : Heedless (host.close handle) := onFiles _

end Heedless

end Machine

namespace Cache

open Machine (Heedless host)

variable (digest : Digest) (path : Path) (key : Key) (blob : Bytes)

/-- To scan a directory heeds no report. -/
theorem heedless_listed : Heedless (listed host path) := by
  refine (Heedless.list path).bind fun listing => ?_
  cases listing.error with
  | none => exact .pure _
  | some error => exact (Heedless.report _).bind fun _ => .pure _

/-- To evict entries heeds no report. -/
theorem heedless_evictFrom (needed : Nat) (entries : List Entry) (freed : Nat) :
    Heedless (evictFrom host path needed entries freed) := by
  induction entries generalizing freed with
  | nil => exact .pure _
  | cons entry rest ih =>
      unfold evictFrom
      refine (Heedless.openExclusive _).bind fun opened => ?_
      rcases opened with error | file
      · exact (Heedless.report _).bind fun _ => ih freed
      refine (Heedless.size file).bind fun size => (Heedless.remove _).bind fun removed => ?_
      rcases removed with error | _
      · exact (Heedless.report _).bind fun _ => (Heedless.close file).bind fun _ => ih freed
      · refine (Heedless.report _).bind fun _ => (Heedless.close file).bind fun _ => ?_
        split
        · exact .pure _
        · exact ih _

/-- To make room heeds no report. -/
theorem heedless_makeRoom (budget added : Nat) :
    Heedless (makeRoom host path budget added) := by
  refine ((heedless_listed path).bind fun _ => .pure _).bind fun size => ?_
  split
  · exact .pure _
  · refine Heedless.bind ?_ fun freed => .pure _
    exact ((heedless_listed path).bind fun _ => .pure _).bind fun entries =>
      heedless_evictFrom path _ _ _

/-- To add an entry heeds no report. -/
theorem heedless_addEntry (size : Nat) :
    Heedless (addEntry host digest path size key blob) := by
  refine (Heedless.create _).bind fun created => ?_
  rcases created with error | file
  · exact (Heedless.report _).bind fun _ => .pure _
  refine Heedless.bind ?_ fun written => ?_
  · refine (Heedless.write file blob).bind fun written => ?_
    rcases written with error | _
    · exact .pure _
    · exact .write file _
  · rcases written with error | _
    · exact (Heedless.report _).bind fun _ => (Heedless.remove _).bind fun _ =>
        (Heedless.close file).bind fun _ => .pure _
    · exact (Heedless.report _).bind fun _ => (Heedless.close file).bind fun _ => .pure _

/-- To store a blob heeds no report. -/
theorem heedless_set (cache : Cache) : Heedless (set host cache key blob) := by
  unfold set
  rcases cache.state with _ | ⟨path, budget⟩
  · exact .pure _
  simp only
  split_ifs
  · exact .pure _
  · exact .pure _
  · exact (Heedless.report _).bind fun _ => .pure _
  · exact (heedless_makeRoom path _ _).bind fun size => heedless_addEntry _ _ _ _ size

/-- To read an entry heeds no report. -/
theorem heedless_readEntry : Heedless (readEntry host digest path) := by
  refine (Heedless.openShared path).bind fun opened => ?_
  rcases opened with error | file
  · exact .pure _
  refine (Heedless.size file).bind fun size => ?_
  split_ifs
  · exact (Heedless.close file).bind fun _ => .pure _
  · exact (Heedless.close file).bind fun _ => .pure _
  · refine (Heedless.map file).bind fun mapped => ?_
    rcases mapped with error | content
    · exact (Heedless.close file).bind fun _ => .pure _
    · simp only
      split_ifs
      · exact .pure _
      · exact (Heedless.close file).bind fun _ => .pure _

/-- To get an entry heeds no report. -/
theorem heedless_get (cache : Cache) : Heedless (get host cache key) := by
  unfold get
  rcases cache.state.directory? with _ | path
  · exact .pure _
  simp only
  split_ifs
  · exact .pure _
  refine (heedless_readEntry cache.digest _).bind fun found => ?_
  rcases found with error | blob
  · simp only
    split_ifs
    · exact (Heedless.report _).bind fun _ => (Heedless.remove _).bind fun _ => .pure _
    · exact (Heedless.report _).bind fun _ => .pure _
  · exact (Heedless.report _).bind fun _ => .pure _

end Cache

/-! ## Command lines that aim at a cache -/

namespace Cli

open Machine (desk host)

/-- A command line asks for a cache in a directory that is there. -/
structure Aims (globals : Globals) (env : Environment) (fs : FileSystem) (path : Path)
    (budget : UInt64) (location : Location) : Prop where
  /-- Its configuration has the path and the budget. -/
  config : ∃ config, configOf globals env = .ok config ∧ config.usableDirectory = some path ∧
    config.budget = budget
  /-- The path leads to the directory. -/
  leads : fs.Leads path location

/-- The cache that the tool opens. -/
def cacheAt (path : Path) (budget : UInt64) : Cache :=
  ⟨.enabled path budget, Sha1.digest, Key.driverVersion⟩

/-- The caches of the tool have checksums of a fixed size. -/
theorem sized_cacheAt (path : Path) (budget : UInt64) : (cacheAt path budget).digest.Sized :=
  Sha1.sized_digest

/-- Their checksums are not empty. -/
theorem size_pos_cacheAt (path : Path) (budget : UInt64) : 0 < (cacheAt path budget).digest.size :=
  Nat.succ_pos 19

/-- The directory of such a cache is where its path leads. -/
theorem leads_cacheAt {fs : FileSystem} {path : Path} {location : Location} (budget : UInt64)
    (h : fs.Leads path location) :
    ∀ place, (cacheAt path budget).state.directory? = some place → fs.Leads place location := by
  rintro place ⟨⟩
  exact h

variable {globals : Globals} {env : Environment} {m : Machine} {path : Path} {budget : UInt64}
  {location : Location}

/-- Creating the directories of a path that leads to one does nothing. -/
theorem createDirectories_of_leads (h : m.fs.Leads path location) :
    host.createDirectories path m = (.ok (), m) := by
  show ((m.fs.makeDirectories path).1.mapError (StoreError.io path),
    m.withFiles (m.fs.makeDirectories path).2) = _
  rw [FileSystem.makeDirectories_of_leads h]
  rfl

/-- Opening the cache that a command line aims at leaves the files as they are. -/
theorem withCache_eq (h : Aims globals env m.fs path budget location) :
    ∃ ready : Machine, ready.fs = m.fs ∧ ∀ use : Cache → StateM Machine Report,
      withCache desk globals env use m = use (cacheAt path budget) ready := by
  obtain ⟨config, hconfig, hdir, rfl⟩ := h.config
  have hreport : (Cache.reportAll host (configEvents globals env) m).2.fs = m.fs := by
    rw [← Machine.faultyHost_none]
    exact Cache.fs_reportAll .none m _
  have hhost : desk.host = host := rfl
  have hmade := createDirectories_of_leads (hreport ▸ h.leads)
  refine ⟨(Cache.reportAll host (configEvents globals env) m).2.noting
    (.initialized path config.budget), hreport, fun use => ?_⟩
  unfold withCache withConfig Cache.ofConfig CacheState.ofConfig
  simp only [Machine.run_bind, hhost, hconfig, hdir, hmade]
  rfl

end Cli

end BlobCache
