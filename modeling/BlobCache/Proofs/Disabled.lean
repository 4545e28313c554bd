import BlobCache.Proofs.Parents
import BlobCache.Proofs.Sharing

/-!
# Disabled caches

A cache without a directory, or whose directory cannot be made, is disabled, and from then on it
does nothing at all: `Cache.idle_of_disabled` says so for every host.

Opening it is another matter. Parents of the directory that were made before a later step failed are
not taken away again (`Session.disabled_leaves_parent`), so the tree is as it was only if no parent
was missing. `FileSystem.Remains` says what there can be: directories on the way to the one that was
asked for, where nothing stood before. `Session.disabled_leaves_parents_only` puts both together,
for every run of commands that a disabled cache is given.
-/

namespace BlobCache

/-! ## Doing nothing -/

namespace Cache

variable {m : Type → Type} [Monad m] {φ : Type}

/-- Every operation answers at once and asks the host for nothing. -/
structure Idle (host : Host m φ) (cache : Cache) : Prop where
  /-- No request has a key. -/
  keyOf_eq : ∀ compiler request, cache.keyOf compiler request = .empty
  /-- Every look-up misses. -/
  get_eq : ∀ key, get host cache key = pure none
  /-- Nothing is stored. -/
  set_eq : ∀ key blob, set host cache key blob = pure (.skipped .disabled)
  /-- The size is zero. -/
  size_eq : size host cache = pure 0
  /-- There are no entries. -/
  entries_eq : entries host cache = pure []
  /-- There is nothing to check. -/
  verify_eq : verify host cache = pure ⟨0, [], 0⟩
  /-- Trimming frees nothing. -/
  trim_eq : trim host cache = pure 0
  /-- Clearing frees nothing. -/
  clear_eq : clear host cache = pure 0

/-- A disabled cache asks nothing of any host. -/
theorem idle_of_disabled {cache : Cache} (h : cache.state = .disabled) (host : Host m φ) :
    cache.Idle host := by
  obtain ⟨state, digest, version⟩ := cache
  obtain rfl : state = .disabled := h
  exact ⟨fun _ _ => rfl, fun _ => rfl, fun _ _ => rfl, rfl, rfl, rfl, rfl, rfl⟩

end Cache

/-! ## What opening leaves behind -/

namespace FileSystem

/-- What there is once a directory was asked for in vain: all that there was, and perhaps some of
the parents that were missing. -/
structure Remains (directory : Option Path) (fs fs' : FileSystem) : Prop where
  /-- No file was made or written. -/
  files_eq : fs'.files = fs.files
  /-- None was opened or closed. -/
  handles_eq : fs'.handles = fs.handles
  /-- What stood somewhere still does. -/
  kept : ∀ place node, fs.tree.get? place = some node → fs'.tree.get? place = some node
  /-- What was added is a directory, to which a proper front part of the path leads. -/
  added : ∀ place node, fs.tree.get? place = none → fs'.tree.get? place = some node →
    node = .directory ∧ ∃ path front, directory = some path ∧ front ≠ [] ∧
      front <:+ (Path.plain path).names.tail ∧
      fs'.Leads (Path.Plain.toPath ⟨(Path.plain path).absolute, front⟩) place
  /-- Nothing was added if no directory was asked for or its parent was there. -/
  tree_eq : (∀ path, directory = some path →
    fs.resolveLast path ≠ .error (.system .noEntry)) → fs'.tree = fs.tree

/-- As long as nothing happens, everything remains. -/
theorem Remains.refl (directory : Option Path) (fs : FileSystem) : Remains directory fs fs where
  files_eq := rfl
  handles_eq := rfl
  kept _ _ hget := hget
  added place node hfree hget := by
    rw [hfree] at hget
    cases hget
  tree_eq _ := rfl

/-- Whatever the time was when the directory was asked for. -/
theorem Remains.clock {directory : Option Path} {fs fs' : FileSystem} {time : Int}
    (h : Remains directory { fs with now := time } fs') : Remains directory fs fs' where
  files_eq := h.files_eq
  handles_eq := h.handles_eq
  kept := h.kept
  added := h.added
  tree_eq hparent := h.tree_eq fun path hdir => by
    have hclock : ({ fs with now := time } : FileSystem).resolveLast path =
        fs.resolveLast path := by
      refine resolveLast_congr ?_ ?_ path <;> rfl
    rw [hclock]
    exact hparent path hdir

/-- Where directories cannot be made, everything remains but for those that were made first. -/
theorem remains_makeDirectories {fs : FileSystem} {path : Path} {cause : Cause}
    (h : (fs.makeDirectories path).1 = .error cause) :
    Remains (some path) fs (fs.makeDirectories path).2 := by
  obtain ⟨hgrown, hfound⟩ := makeDirectories_error h
  refine ⟨?_, ?_, hgrown.kept, fun place node hfree hget => ?_, fun hparent => ?_⟩
  · rw [hgrown.rest_eq]
  · rw [hgrown.rest_eq]
  · obtain ⟨hnode, front, hne, hfront, hlead⟩ := hgrown.added place node hfree hget
    exact ⟨hnode, path, front, rfl, hne, hfront, hlead⟩
  · rw [hfound (hparent path rfl)]

end FileSystem

open FileSystem (Remains)

namespace Cache

variable (faults : Faults) (m : Machine)

/-- Reporting events changes no file. -/
theorem fs_reportAll (events : List Event) :
    (reportAll (Machine.faultyHost faults) events m).2.fs = m.fs := by
  induction events generalizing m with
  | nil => rfl
  | cons event rest ih => exact ih (m.noting event)

/-- Reading a configuration off an environment touches no file. -/
theorem configOf_faulty (env : Environment) :
    (configOf (Machine.faultyHost faults) env m).2.fs = m.fs ∧
      (configOf (Machine.faultyHost faults) env m).1.usableDirectory = env.cacheDirectory? := by
  have hreport := fs_reportAll faults m (Config.eventsOfEnvironment env)
  unfold configOf Environment.cacheDirectory?
  rw [Machine.run_bind]
  rcases Config.ofEnvironment env with error | config
  · exact ⟨hreport, rfl⟩
  · exact ⟨hreport, rfl⟩

/-- Where a configuration leads to a disabled cache, its directory was asked for in vain. -/
theorem remains_ofConfig {faults : Faults} (m : Machine) (config : Config)
    (h : (CacheState.ofConfig (Machine.faultyHost faults) config m).1 = .disabled) :
    Remains config.usableDirectory m.fs
      (CacheState.ofConfig (Machine.faultyHost faults) config m).2.fs := by
  unfold CacheState.ofConfig at h ⊢
  rcases hdir : config.usableDirectory with _ | path <;> rw [hdir] at h
  · exact .refl _ _
  simp only [Machine.run_bind] at h ⊢
  by_cases hrefused : faults.createDirectories = true
  · have hmake : (Machine.faultyHost faults).createDirectories path m =
        (.error (Faults.refusal path), m) := by
      unfold Machine.faultyHost
      simp only [hrefused, if_true]
      rfl
    rw [hmake]
    exact .refl _ _
  have hmake : (Machine.faultyHost faults).createDirectories path m =
      ((m.fs.makeDirectories path).1.mapError (.io path),
        m.withFiles (m.fs.makeDirectories path).2) := by
    unfold Machine.faultyHost
    simp only [hrefused]
    rfl
  rw [hmake] at h ⊢
  rcases hmade : (m.fs.makeDirectories path).1 with cause | _ <;> rw [hmade] at h
  · exact FileSystem.remains_makeDirectories hmade
  · cases h

/-- So it is where an environment leads to one. -/
theorem remains_ofEnvironment {faults : Faults} (m : Machine) (digest : Digest)
    (env : Environment)
    (h : (ofEnvironment (Machine.faultyHost faults) digest env m).1.state = .disabled) :
    Remains env.cacheDirectory? m.fs
      (ofEnvironment (Machine.faultyHost faults) digest env m).2.fs := by
  obtain ⟨hfs, hdir⟩ := configOf_faulty faults m env
  have hremains := remains_ofConfig (configOf (Machine.faultyHost faults) env m).2
    (configOf (Machine.faultyHost faults) env m).1 h
  rw [hfs, hdir] at hremains
  exact hremains

end Cache

namespace Session

/-! ## Asking a disabled cache -/

/-- The answer that a disabled cache gives to a command; a text that is no key is refused before. -/
def OpenCache.RepliesOff (on : OpenCache) : CacheCommand → Answer → Prop
  | .state, answer => answer = .state .disabled on.cache.digest.size
  | .key .., answer => answer = .key .empty
  | .get source _, answer => answer = if (source.key? on.cache).isSome then .miss else .invalidKey
  | .set source _, answer =>
    answer = if (source.key? on.cache).isSome then .outcome (.skipped .disabled) else .invalidKey
  | .size, answer | .trim, answer | .clear, answer => answer = .number 0
  | .entries, answer => answer = .entries []
  | .verify, answer => answer = .report ⟨0, [], 0⟩
  | .load .., answer => ∀ status bytes mapped runs, answer = .loaded status bytes mapped runs →
    (status = .bypassed ∨ status = .notStored) ∧ mapped = false

section asking

variable (faults : Faults) {m : Machine} {cache : Cache}

/-- Opening a cache that turns out to be disabled leaves all that was there, and perhaps some
parents of its directory. -/
theorem remains_openCache {source : ConfigSource} {digest : Digest} {version : Option UInt32}
    (h : (openCache source digest version faults m).1.cache.state = .disabled) :
    Remains (source.directory? (workingDirectory m.fs)) m.fs
      (openCache source digest version faults m).2.fs := by
  unfold openCache at h ⊢
  cases source with
  | config config => exact Cache.remains_ofConfig m config h
  | environment env => exact Cache.remains_ofEnvironment m digest env h
  | process bindings =>
      exact Cache.remains_ofEnvironment m digest ⟨bindings, .ok (workingDirectory m.fs)⟩ h

/-- A blob that is offered is not taken. -/
theorem offer_of_disabled (hstate : cache.state = .disabled) (key : Key) (blob : Bytes) :
    Cache.offer (Machine.faultyHost faults) cache key blob m =
      (.notStored, m.noting (.notCached (.skipped .disabled))) := by
  unfold Cache.offer
  rw [(Cache.idle_of_disabled hstate _).set_eq]
  rfl

/-- What a load without a cache may answer: a blob that is held in memory, or an error. -/
def Unaided (answer : Except LoadError (Loaded HandleId)) : Prop :=
  ∀ loaded, answer = .ok loaded →
    (loaded.status = .bypassed ∨ loaded.status = .notStored) ∧
      ∃ bytes, loaded.blob = .owned bytes

/-- A load asks the compiler at most. -/
theorem load_of_disabled (m : Machine) (hstate : cache.state = .disabled)
    (compiler : Option Compiler) (request : Request) (compiled : Except String Bytes) :
    let loading := Cache.load (Machine.faultyHost faults) cache compiler
      (do Machine.countCompilation; return compiled) request m
    loading.2.fs = m.fs ∧ Unaided loading.1 := by
  have hbypassed : ∀ bytes, Unaided (.ok ⟨.owned bytes, .bypassed⟩) := by
    intro bytes loaded e
    cases e
    exact ⟨Or.inl rfl, bytes, rfl⟩
  have hfailed : ∀ error, Unaided (.error error) := fun error loaded e => by cases e
  intro loading
  have hloading : loading = Cache.load (Machine.faultyHost faults) cache compiler
    (do Machine.countCompilation; return compiled) request m := rfl
  unfold Cache.load at hloading
  split at hloading
  · exact hloading ▸ ⟨rfl, hfailed _⟩
  split at hloading
  · exact hloading ▸ ⟨rfl, hbypassed _⟩
  split at hloading
  · rcases compiled with text | bytes
    · exact hloading ▸ ⟨rfl, hfailed _⟩
    · exact hloading ▸ ⟨rfl, hbypassed _⟩
  · simp only [(Cache.idle_of_disabled hstate _).get_eq, pure_bind] at hloading
    rcases compiled with text | bytes
    · exact hloading ▸ ⟨rfl, hfailed _⟩
    · simp only [Machine.run_bind, Machine.run_pure, Machine.run_countCompilation,
        offer_of_disabled faults hstate] at hloading
      rw [hloading]
      refine ⟨rfl, fun loaded e => ?_⟩
      cases e
      exact ⟨Or.inr rfl, bytes, rfl⟩

/-- What it comes by is no entry, so none is marked as used. -/
theorem loadGraph_of_disabled (m : Machine) (hstate : cache.state = .disabled)
    (compiler : Option Compiler) (request : Request) (compiled : Except String Bytes) :
    let loading := loadGraph (Machine.faultyHost faults) cache compiler request compiled m
    loading.2.fs = m.fs ∧ Unaided loading.1 := by
  have hload := load_of_disabled faults m hstate compiler request compiled
  unfold loadGraph
  rw [Machine.run_bind]
  generalize hloading : Cache.load (Machine.faultyHost faults) cache compiler
    (do Machine.countCompilation; return compiled) request = program at hload ⊢
  generalize program m = loading at hload ⊢
  obtain ⟨error | loaded, m'⟩ := loading
  · exact hload
  · have hstatus : loaded.status ≠ .hit := by
      rcases (hload.2 loaded rfl).1 with e | e <;> rw [e] <;> decide
    simp only [hstatus, if_false]
    exact hload

end asking

/-! ## Steps and runs -/

/-- A disabled cache answers as one and changes nothing. -/
theorem onCache_of_disabled (session : Session) {on : OpenCache}
    (hstate : on.cache.state = .disabled) (asked : CacheCommand) :
    on.RepliesOff asked (session.onCache on asked).1 ∧
      (session.onCache on asked).2.machine.fs.tree = session.machine.fs.tree ∧
      (session.onCache on asked).2.caches = session.caches := by
  obtain ⟨⟨state, digest, version⟩, faults⟩ := on
  obtain rfl : state = .disabled := hstate
  cases asked with
  | get source hold =>
      simp only [onCache, OpenCache.RepliesOff]
      rcases source.key? ⟨.disabled, digest, version⟩ with _ | key <;> exact ⟨rfl, rfl, rfl⟩
  | set source blob =>
      simp only [onCache, OpenCache.RepliesOff]
      rcases source.key? ⟨.disabled, digest, version⟩ with _ | key <;> exact ⟨rfl, rfl, rfl⟩
  | load compiler request compiled hold =>
      have hstate : Cache.state ⟨.disabled, digest, version⟩ = .disabled := rfl
      have hloads := loadGraph_of_disabled faults session.machine hstate compiler request compiled
      simp only [onCache, OpenCache.RepliesOff, onMachine] at hloads ⊢
      generalize loadGraph (Machine.faultyHost faults) ⟨.disabled, digest, version⟩ compiler
        request compiled session.machine = loading at hloads ⊢
      obtain ⟨hfs, hunaided⟩ := hloads
      obtain ⟨error | ⟨blob, status⟩, m⟩ := loading
      · exact ⟨fun _ _ _ _ e => (by cases e), congrArg _ hfs, rfl⟩
      · obtain ⟨hstatus, bytes, hblob⟩ := hunaided _ rfl
        obtain rfl : blob = .owned bytes := hblob
        refine ⟨fun status' bytes' mapped runs e => ?_, ?_, ?_⟩
        · cases e
          exact ⟨hstatus, rfl⟩
        · exact (tree_keep _ (.owned bytes) hold).trans (congrArg _ hfs)
        · exact caches_keep _ _ hold
  | _ => exact ⟨rfl, rfl, rfl⟩

/-- Opening a cache answers the state that it is in. -/
theorem answer_openCache (session : Session) (name : String) (source : ConfigSource)
    (digest : Digest) (version : Option UInt32) (faults : Faults) :
    Moment.answer ⟨session, .openCache name source digest version faults⟩ =
      .state (openCache source digest version faults session.begin.machine).1.cache.state
        digest.size := rfl

/-- A directory whose parent is missing, under a name that is too long. -/
def longDirectory : Path := Path.ofText "new/" ++ List.replicate 256 0x78

/-- A cache that is asked for there is disabled. -/
theorem answer_longDirectory :
    Moment.answer ⟨start [0x77],
      .openCache "c" (.config ⟨some longDirectory, 100⟩) Sha1.digest none .none⟩ =
        .state .disabled Sha1.digest.size := by
  have hstate : (openCache (.config ⟨some longDirectory, 100⟩) Sha1.digest none .none
      (start [0x77]).begin.machine).1.cache.state = .disabled := by decide +kernel
  rw [answer_openCache, hstate]

/-- The cache is disabled, and the parent of its directory is there all the same. -/
theorem disabled_leaves_parent :
    let opening : Moment := ⟨start [0x77],
      .openCache "c" (.config ⟨some longDirectory, 100⟩) Sha1.digest none .none⟩
    let place := (Location.top.child [0x77]).child (Path.ofText "new")
    opening.answer = .state .disabled Sha1.digest.size ∧
      opening.before.machine.fs.tree.get? place = none ∧
      opening.after.machine.fs.tree.get? place = some .directory ∧
      opening.after.machine.fs.tree ≠ opening.before.machine.fs.tree := by
  intro opening place
  have hbefore : opening.before.machine.fs.tree.get? place = none := by decide +kernel
  have hafter : opening.after.machine.fs.tree.get? place = some .directory := by decide +kernel
  refine ⟨answer_longDirectory, hbefore, hafter, fun e => ?_⟩
  rw [e, hbefore] at hafter
  cases hafter

/-- A cache that turns out to be disabled answers as such whatever it is asked, and no command of a
run changes the tree. All that opening it can have left are parents of its directory that were
missing. -/
theorem disabled_leaves_parents_only (session : Session) (name : String) (source : ConfigSource)
    (digest : Digest) (version : Option UInt32) (faults : Faults) (asked : List CacheCommand)
    (hdisabled : (Moment.answer ⟨session, .openCache name source digest version faults⟩) =
      .state .disabled digest.size) :
    let opened := Moment.after ⟨session, .openCache name source digest version faults⟩
    Remains (source.directory? (workingDirectory session.machine.fs)) session.machine.fs
        opened.machine.fs ∧
      ∃ on, opened.caches.get? name = some on ∧
        ∀ moment ∈ run opened (asked.map (.onCache name)),
          (∃ command, moment.command = .onCache name command ∧
            on.RepliesOff command moment.answer) ∧
          moment.after.machine.fs.tree = opened.machine.fs.tree := by
  let on := (openCache source digest version faults session.begin.machine).1
  have hstate : on.cache.state = .disabled := by
    have hanswer : Answer.state on.cache.state digest.size = .state .disabled digest.size :=
      hdisabled
    injection hanswer
  intro opened
  have hremains : Remains (source.directory? (workingDirectory session.begin.machine.fs))
      session.begin.machine.fs opened.machine.fs := remains_openCache faults hstate
  have hopened : opened.caches.get? name = some on := Table.get?_set_self _ _ _
  refine ⟨hremains.clock, on, hopened, ?_⟩
  -- the cache stays what it is, and so does the tree
  let Stays (s : Session) : Prop :=
    s.caches.get? name = some on ∧ s.machine.fs.tree = opened.machine.fs.tree
  have hstep : ∀ moment ∈ run opened (asked.map (.onCache name)), Stays moment.before →
      (∃ command, moment.command = .onCache name command ∧
        on.RepliesOff command moment.answer) ∧ Stays moment.after := by
    rintro ⟨before, command⟩ hmem ⟨hcache, htree⟩
    obtain ⟨command, -, rfl⟩ := List.mem_map.mp (command_mem_of_mem_run hmem)
    obtain ⟨hreplies, htree', hcaches⟩ := onCache_of_disabled before.begin hstate command
    have hanswer := step_onCache hcache command
    refine ⟨⟨command, rfl, ?_⟩, ?_, ?_⟩
    · unfold Moment.answer
      rw [hanswer]
      exact hreplies
    · unfold Moment.after
      rw [hanswer, hcaches]
      exact hcache
    · unfold Moment.after
      rw [hanswer, htree']
      exact htree
  have hstays := invariant_of_run Stays ⟨hopened, rfl⟩ fun moment hmem h => (hstep moment hmem h).2
  intro moment hmem
  obtain ⟨hreplies, -, htree⟩ := hstep moment hmem (hstays.2 moment hmem)
  exact ⟨hreplies, htree⟩

/-- What the long name leaves behind is a directory that the path goes through, and nothing changes
when the cache is asked to store, to find and to clear. -/
theorem disabled_by_long_name :
    let opened := Moment.after ⟨start [0x77],
      .openCache "c" (.config ⟨some longDirectory, 100⟩) Sha1.digest none .none⟩
    let place := (Location.top.child [0x77]).child (Path.ofText "new")
    (∃ front, front ≠ [] ∧ front <:+ [Path.ofText "new"] ∧
      opened.machine.fs.Leads (Path.Plain.toPath ⟨false, front⟩) place) ∧
    ∀ moment ∈ run opened ([.set (.text "k") [1], .get (.text "k") none, .clear].map
        (.onCache "c")),
      moment.after.machine.fs.tree = opened.machine.fs.tree := by
  have hspec := disabled_leaves_parents_only (start [0x77]) "c"
    (.config ⟨some longDirectory, 100⟩) Sha1.digest none .none
    [.set (.text "k") [1], .get (.text "k") none, .clear] answer_longDirectory
  have hbefore : (start [0x77]).machine.fs.tree.get?
      ((Location.top.child [0x77]).child (Path.ofText "new")) = none := by decide +kernel
  have hafter : (Moment.after ⟨start [0x77], .openCache "c" (.config ⟨some longDirectory, 100⟩)
      Sha1.digest none .none⟩).machine.fs.tree.get?
        ((Location.top.child [0x77]).child (Path.ofText "new")) = some .directory := by
    decide +kernel
  dsimp only at hspec ⊢
  -- nothing else about the session is needed, so it need not be computed
  generalize Moment.after ⟨start [0x77], .openCache "c" (.config ⟨some longDirectory, 100⟩)
    Sha1.digest none .none⟩ = opened at hspec hafter ⊢
  obtain ⟨hremains, on, -, hruns⟩ := hspec
  refine ⟨?_, fun moment hmem => (hruns moment hmem).2⟩
  obtain ⟨-, path, front, hpath, hne, hfront, hlead⟩ := hremains.added _ _ hbefore hafter
  obtain rfl : longDirectory = path := Option.some.inj hpath
  have hplain : (Path.plain longDirectory).absolute = false ∧
      (Path.plain longDirectory).names.tail = [Path.ofText "new"] := by decide +kernel
  rw [hplain.1] at hlead
  rw [hplain.2] at hfront
  exact ⟨front, hne, hfront, hlead⟩

end Session

end BlobCache
