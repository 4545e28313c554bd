import BlobCache.Proofs.Loading

/-!
# Runs

A run is a session and the commands carried out on it one after another; a `Moment` of it is one
command with the session that it found. The runs looked at here are those of caches that keep their
entries in one directory and share a digest (`Session.Sound`), with commands that only use the
caches (`Session.Command.Ordinary`): whoever else changes the files is left to the theorems that
allow it.

`Moment.spec` sums up what such a command can do to the files. It is calm, or it stores one blob,
and then the moment says which (`Moment.stored?`). `run_invariant` carries what every command
preserves through a whole run.
-/

namespace BlobCache.Session

/-! ## Moments -/

/-- A command and the session that it found. -/
structure Moment where
  /-- The session before. -/
  before : Session
  /-- The command. -/
  command : Command

/-- The key and the blob that a cache has stored if this is its answer, to a `set` or to a load. -/
def OpenCache.stored? (on : OpenCache) (command : CacheCommand) (answer : Answer) :
    Option (Key × Bytes) :=
  match answer, command with
  | .outcome (.stored _), .set source blob => (source.key? on.cache).map fun key => (key, blob)
  | .loaded .stored _ _ _, .load compiler request compiled _ =>
    compiled.toOption.map fun blob => (on.cache.keyOf compiler request, blob)
  | _, _ => none

namespace Moment

/-- What the command answered. -/
def answer (moment : Moment) : Answer := (moment.before.step moment.command).1

/-- The session after the command. -/
def after (moment : Moment) : Session := (moment.before.step moment.command).2

/-- The key and the blob of a moment in which a blob was stored. -/
def stored? (moment : Moment) : Option (Key × Bytes) :=
  match moment.command with
  | .onCache name command => do
    (← moment.before.caches.get? name).stored? command moment.answer
  | _ => none

/-- A blob was stored by a `set` of it, or by a load for which the compiler made it. -/
theorem command_of_stored? {moment : Moment} {key : Key} {blob : Bytes}
    (h : moment.stored? = some (key, blob)) :
    ∃ name on, moment.before.caches.get? name = some on ∧
      ((∃ source, moment.command = .onCache name (.set source blob) ∧
          source.key? on.cache = some key) ∨
        ∃ compiler request hold,
          moment.command = .onCache name (.load compiler request (.ok blob) hold) ∧
          key = on.cache.keyOf compiler request) := by
  obtain ⟨before, command⟩ := moment
  cases command with
  | onCache name command =>
      obtain ⟨on, hget, hstored⟩ := Option.bind_eq_some_iff.mp h
      refine ⟨name, on, hget, ?_⟩
      unfold OpenCache.stored? at hstored
      split at hstored
      · obtain ⟨found, hkey, heq⟩ := Option.map_eq_some_iff.mp hstored
        cases heq
        exact Or.inl ⟨_, rfl, hkey⟩
      · rename_i compiler request compiled hold _
        obtain ⟨made, hmade, heq⟩ := Option.map_eq_some_iff.mp hstored
        cases heq
        cases compiled with
        | error text => cases hmade
        | ok bytes =>
            cases hmade
            exact Or.inr ⟨compiler, request, hold, rfl, rfl⟩
      · cases hstored
  | _ => cases h

end Moment

/-- The moments of a run. -/
def run : Session → List Command → List Moment
  | _, [] => []
  | session, command :: rest => ⟨session, command⟩ :: run (session.step command).2 rest

/-- The session that a run ends in. -/
def finish (session : Session) (commands : List Command) : Session :=
  commands.foldl (fun session command => (session.step command).2) session

/-- A run goes on where its first part ends. -/
theorem run_append (session : Session) (first rest : List Command) :
    run session (first ++ rest) = run session first ++ run (finish session first) rest := by
  induction first generalizing session with
  | nil => rfl
  | cons command first ih =>
      rw [List.cons_append, run, run, ih]
      rfl

/-- Commands lead where their last part leads from where the first part leads. -/
theorem finish_append (session : Session) (first rest : List Command) :
    finish session (first ++ rest) = finish (finish session first) rest := List.foldl_append

/-- A moment of a run is a command of it with the session that the commands before it lead to. -/
theorem mem_run {session : Session} {commands : List Command} {moment : Moment}
    (h : moment ∈ run session commands) :
    ∃ past rest, commands = past ++ moment.command :: rest ∧
      moment.before = finish session past := by
  induction commands generalizing session with
  | nil => cases h
  | cons command commands ih =>
      rcases List.mem_cons.mp h with rfl | h
      · exact ⟨[], commands, rfl, rfl⟩
      · obtain ⟨past, rest, hcommands, hbefore⟩ := ih h
        exact ⟨command :: past, rest, by rw [hcommands]; rfl, hbefore⟩

/-- The moments of a run are those of its commands. -/
theorem command_mem_of_mem_run {session : Session} {commands : List Command} {moment : Moment}
    (h : moment ∈ run session commands) : moment.command ∈ commands := by
  obtain ⟨past, rest, rfl, -⟩ := mem_run h
  exact List.mem_append_right past List.mem_cons_self

/-! ## Caches in one directory -/

/-- A cache with this digest that nothing is refused and that keeps its entries behind one of these
paths. -/
structure OpenCache.Serves (digest : Digest) (paths : List Path) (on : OpenCache) : Prop where
  /-- The digest is shared. -/
  digest_eq : on.cache.digest = digest
  /-- Nothing is refused. -/
  faults_eq : on.faults = .none
  /-- The path is one of those. -/
  path_mem : ∀ path, on.cache.state.directory? = some path → path ∈ paths

/-- Commands that use caches in one directory and nothing else. Caches may be opened and closed at
any time. -/
def Command.Ordinary (digest : Digest) (paths : List Path) (here : Path) : Command → Prop
  | .openCache _ source asked _ faults =>
    asked = digest ∧ faults = .none ∧ ∀ path, source.directory? here = some path → path ∈ paths
  | .dropCache _ | .readBlob _ | .releaseBlob _ | .onCache .. => True
  | _ => False

/-- A cache may be opened in a directory that one of the paths leads to. -/
theorem Command.ordinary_openCache {digest : Digest} {paths : List Path} {path : Path}
    (hmem : path ∈ paths) (here : Path) (name : String) (budget : UInt64)
    (version : Option UInt32) :
    (Command.openCache name (.config ⟨some path, budget⟩) digest version .none).Ordinary digest
      paths here := by
  refine ⟨rfl, rfl, fun other hother => ?_⟩
  have hasked : (some path).filter (fun path => !path.isEmpty) = some other := hother
  obtain rfl : path = other := Option.some.inj (Option.filter_eq_some_iff.mp hasked).1
  exact hmem

/-- A session whose caches share a digest and keep their entries in one directory, to which all
their paths lead. -/
structure Sound (digest : Digest) (location : Location) (paths : List Path) (here : Path)
    (session : Session) : Prop where
  /-- The file system is well formed. -/
  wellFormed : session.machine.fs.WellFormed
  /-- Every path leads to the directory. -/
  leads : ∀ path ∈ paths, session.machine.fs.Leads path location
  /-- The working directory is this. -/
  here_eq : workingDirectory session.machine.fs = here
  /-- The caches are as they should be. -/
  serves : ∀ name on, session.caches.get? name = some on → on.Serves digest paths

/-! ## Answers of a cache -/

/-- A command for a cache that is open goes to that cache. -/
theorem step_onCache {session : Session} {name : String} {on : OpenCache}
    (h : session.caches.get? name = some on) (command : CacheCommand) :
    session.step (.onCache name command) = session.begin.onCache on command := by
  have hbegin : session.begin.caches.get? name = some on := h
  unfold step carryOut
  simp only [hbegin]

/-- A command for a cache that is not open does nothing. -/
theorem step_onCache_of_unknown {session : Session} {name : String}
    (h : session.caches.get? name = none) (command : CacheCommand) :
    session.step (.onCache name command) = (.nothing, session.begin) := by
  have hbegin : session.begin.caches.get? name = none := h
  unfold step carryOut
  simp only [hbegin]

/-- The session with another machine. -/
def withMachine (session : Session) (m : Machine) : Session := { session with machine := m }

/-- A session with this machine has it. -/
@[simp] theorem machine_withMachine (session : Session) (m : Machine) :
    (session.withMachine m).machine = m := rfl

section answers

variable {on : OpenCache} (hfaults : on.faults = .none) (session : Session)
include hfaults

/-- A look-up answers what was found and keeps it. -/
theorem onCache_get {source : KeySource} {key : Key} (hkey : source.key? on.cache = some key)
    (hold : Option String) :
    session.onCache on (.get source hold) =
      let looked := session.withMachine (lookUp Machine.host on.cache key session.machine).2
      match (lookUp Machine.host on.cache key session.machine).1 with
      | none => (.miss, looked)
      | some blob =>
        (.blob (blob.read Machine.host looked.machine).1 blob.summary blob.isMapped,
          looked.keep blob hold) := by
  unfold onCache
  simp only [hfaults, Machine.faultyHost_none, hkey, onMachine]
  generalize lookUp Machine.host on.cache key session.machine = looked
  obtain ⟨_ | _ | _, m⟩ := looked
  · rfl
  · rfl
  · rfl

/-- Storing answers what became of the blob. -/
theorem onCache_set {source : KeySource} {key : Key} (hkey : source.key? on.cache = some key)
    (blob : Bytes) :
    session.onCache on (.set source blob) =
      (.outcome (Cache.set Machine.host on.cache key blob session.machine).1,
        session.withMachine (Cache.set Machine.host on.cache key blob session.machine).2) := by
  unfold onCache
  simp only [hfaults, Machine.faultyHost_none, hkey]
  rfl

/-- A check answers what was found. -/
theorem onCache_verify :
    session.onCache on .verify =
      (.report (Cache.verify Machine.host on.cache session.machine).1,
        session.withMachine (Cache.verify Machine.host on.cache session.machine).2) := by
  unfold onCache
  simp only [hfaults, Machine.faultyHost_none]
  rfl

/-- A load answers the blob that came of it and keeps it. -/
theorem onCache_load (compiler : Option Compiler) (request : Request)
    (compiled : Except String Bytes) (hold : Option String) :
    session.onCache on (.load compiler request compiled hold) =
      let loading := loadGraph Machine.host on.cache compiler request compiled session.machine
      let after := session.withMachine loading.2
      match loading.1 with
      | .error error => (.loadFailed error loading.2.compilations, after)
      | .ok loaded =>
        (.loaded loaded.status (loaded.blob.read Machine.host loading.2).1 loaded.blob.isMapped
          loading.2.compilations, after.keep loaded.blob hold) := by
  unfold onCache
  simp only [hfaults, Machine.faultyHost_none, onMachine]
  generalize loadGraph Machine.host on.cache compiler request compiled session.machine = loading
  obtain ⟨_ | ⟨_ | _, status⟩, m⟩ := loading
  · rfl
  · rfl
  · rfl

end answers

/-! ## Quiet changes -/

/-- From one session to another the files were calm and the caches stayed the same. -/
structure Quiet (digest : Digest) (location : Location) (session session' : Session) : Prop where
  /-- The caches are the same. -/
  caches_eq : session'.caches = session.caches
  /-- The files were calm. -/
  calm : session.machine.Calm digest location session'.machine

variable {digest : Digest} {location : Location} {paths : List Path} {here : Path}
  {session session' session'' : Session}

namespace Quiet

/-- If nothing happens, it is quiet. -/
theorem refl (digest : Digest) (location : Location) (session : Session) :
    session.Quiet digest location session := ⟨rfl, .refl _ _ _⟩

/-- Quiet changes in a row are quiet. -/
theorem trans (h : session.Quiet digest location session')
    (hwf : session.machine.fs.WellFormed) (h' : session'.Quiet digest location session'') :
    session.Quiet digest location session'' :=
  ⟨h'.caches_eq.trans h.caches_eq, h.calm.trans hwf h'.calm⟩

/-- Calm files make for a quiet session. -/
theorem withMachine {m : Machine} (h : session.machine.Calm digest location m) :
    session.Quiet digest location (session.withMachine m) := ⟨rfl, h⟩

end Quiet

/-- To release a blob is calm. -/
theorem release_blob_calm (digest : Digest) (location : Location) (blob : Blob HandleId)
    (m : Machine) : m.Calm digest location (blob.release Machine.host m).2 := by
  cases blob with
  | owned bytes => exact .refl _ _ _
  | mapped handle length =>
      exact .withFiles (.close location m.fs handle) fun _ _ hget => hget

/-- To release a held blob is quiet. -/
theorem release_quiet (digest : Digest) (location : Location) (session : Session)
    (name : String) : session.Quiet digest location (session.release name) := by
  unfold release
  rcases session.held.get? name with _ | blob
  · exact .refl _ _ _
  · exact ⟨rfl, release_blob_calm _ _ blob _⟩

/-- To keep a blob, or to release it, is quiet. -/
theorem keep_quiet (digest : Digest) (location : Location) (session : Session)
    (blob : Blob HandleId) (hold : Option String) :
    session.Quiet digest location (session.keep blob hold) := by
  cases hold with
  | none => exact ⟨rfl, release_blob_calm _ _ blob _⟩
  | some name =>
      have h := release_quiet digest location session name
      exact ⟨h.caches_eq, h.calm⟩

namespace Sound

/-- A session stays sound while time goes by. -/
theorem begin (h : session.Sound digest location paths here) :
    session.begin.Sound digest location paths here where
  wellFormed := (FileSystem.Calm.setClock location session.machine.fs _).wellFormed h.wellFormed
  leads path hmem := (FileSystem.Calm.setClock location session.machine.fs _).leads
    (h.leads path hmem)
  here_eq := h.here_eq
  serves := h.serves

/-- The paths of an open cache lead to the directory. -/
theorem lead (h : session.Sound digest location paths here) {on : OpenCache}
    (hon : on.Serves digest paths) (path : Path)
    (hdir : on.cache.state.directory? = some path) : session.machine.fs.Leads path location :=
  h.leads path (hon.path_mem path hdir)

end Sound

/-- A new session is sound for the working directory and all paths that lead to it. -/
theorem sound_start_of_leads (digest : Digest) {directory : Bytes} {paths : List Path}
    (hleads : ∀ path ∈ paths,
      (start directory).machine.fs.Leads path (Location.top.child directory)) :
    (start directory).Sound digest (Location.top.child directory) paths
      (workingDirectory (start directory).machine.fs) where
  wellFormed := FileSystem.wellFormed_initial directory
  leads := hleads
  here_eq := rfl
  serves name on hget := by cases hget

/-- So it is for the path that is just a dot. -/
theorem sound_start (digest : Digest) (directory : Bytes) :
    (start directory).Sound digest (Location.top.child directory) [Path.dot]
      (workingDirectory (start directory).machine.fs) :=
  sound_start_of_leads digest (List.forall_mem_singleton.mpr rfl)

/-- A new session has an empty working directory. -/
theorem get?_start (directory name : Bytes) :
    (start directory).machine.fs.tree.get? ((Location.top.child directory).child name) = none := by
  refine Table.get?_set_ne _ (fun e => ?_) _
  exact absurd (congrArg Location.depth e) (Nat.succ_ne_self _)

/-! ## Keys -/

/-- The key of a request is empty or a name. -/
theorem isName_keyOf (hsized : digest.Sized) (hpos : 0 < digest.size) {cache : Cache}
    (hdigest : cache.digest = digest) (compiler : Option Compiler) (request : Request) :
    cache.keyOf compiler request = .empty ∨ (cache.keyOf compiler request).IsName := by
  unfold Cache.keyOf
  split
  · rw [hdigest]
    exact Or.inr (Key.isName_derive hsized hpos _ _ _)
  · exact Or.inl rfl

/-- The key of a command is empty or a name. -/
theorem isName_of_key? (hsized : digest.Sized) (hpos : 0 < digest.size) {cache : Cache}
    (hdigest : cache.digest = digest) {source : KeySource} {key : Key}
    (h : source.key? cache = some key) : key = .empty ∨ key.IsName := by
  cases source with
  | text written =>
      by_cases hempty : written.isEmpty = true
      · rw [KeySource.key?, if_pos hempty] at h
        exact Or.inl (Option.some.inj h).symm
      · rw [KeySource.key?, if_neg hempty] at h
        exact Or.inr (Key.isName_of_parse? h)
  | request compiler wanted =>
      rw [KeySource.key?] at h
      rw [← Option.some.inj h]
      exact isName_keyOf hsized hpos hdigest compiler wanted

/-! ## What a command does to the files -/

/-- What a step does to the files: it is calm, or a cache behind one of these paths stores a blob in
it. -/
inductive Effect (digest : Digest) (location : Location) (paths : List Path) (m m' : Machine) :
    Option (Key × Bytes) → Prop where
  /-- Nothing was stored. -/
  | calm (h : m.Calm digest location m') : Effect digest location paths m m' none
  /-- A blob was stored, and nothing more came of it. -/
  | stores {path : Path} {key : Key} {blob : Bytes} {full : Machine} (hmem : path ∈ paths)
      (h : m.Stores digest location path key blob full) (hcalm : full.Calm digest location m') :
      Effect digest location paths m m' (some (key, blob))

section effects

variable (hsized : digest.Sized) (hpos : 0 < digest.size)
  (h : session.Sound digest location paths here) {on : OpenCache} (hon : on.Serves digest paths)
include hsized hpos h hon

/-- A look-up stores nothing. -/
theorem get_quiet (source : KeySource) (hold : Option String) :
    session.Quiet digest location (session.onCache on (.get source hold)).2 := by
  rcases hkey : source.key? on.cache with _ | key
  · unfold onCache
    simp only [hkey]
    exact .refl _ _ _
  · have hname := isName_of_key? hsized hpos hon.digest_eq hkey
    obtain ⟨hcalm, -⟩ := lookUp_spec (hon.digest_eq ▸ hsized) h.wellFormed (h.lead hon) hname
    rw [hon.digest_eq] at hcalm
    have hlooked := Quiet.withMachine hcalm
    rw [onCache_get hon.faults_eq session hkey]
    rcases (lookUp Machine.host on.cache key session.machine).1 with _ | blob
    · exact hlooked
    · exact hlooked.trans h.wellFormed (keep_quiet _ _ _ _ _)

/-- A blob is stored by `set`, or nothing is. -/
theorem set_effect (source : KeySource) (blob : Bytes) :
    (session.onCache on (.set source blob)).2.caches = session.caches ∧
      Effect digest location paths session.machine
        (session.onCache on (.set source blob)).2.machine
        (on.stored? (.set source blob) (session.onCache on (.set source blob)).1) := by
  rcases hkey : source.key? on.cache with _ | key
  · unfold onCache
    simp only [hkey]
    exact ⟨trivial, .calm (.refl _ _ _)⟩
  have hname := isName_of_key? hsized hpos hon.digest_eq hkey
  have hset := Cache.set_spec h.wellFormed (h.lead hon) hname blob
  rw [hon.digest_eq] at hset
  rw [onCache_set hon.faults_eq session hkey]
  refine ⟨rfl, ?_⟩
  rcases hset with ⟨hcalm, hnot⟩ | ⟨path, hdir, houtcome, hstores⟩
  · rcases houtcome : (Cache.set Machine.host on.cache key blob session.machine).1 with
      size | reason | _
    · exact absurd houtcome (hnot size)
    · exact .calm hcalm
    · exact .calm hcalm
  · rw [houtcome, OpenCache.stored?, hkey]
    exact .stores (hon.path_mem path hdir) hstores (.refl _ _ _)

/-- A load stores the compiled blob, or nothing. -/
theorem load_effect (compiler : Option Compiler) (request : Request)
    (compiled : Except String Bytes) (hold : Option String) :
    (session.onCache on (.load compiler request compiled hold)).2.caches = session.caches ∧
      Effect digest location paths session.machine
        (session.onCache on (.load compiler request compiled hold)).2.machine
        (on.stored? (.load compiler request compiled hold)
          (session.onCache on (.load compiler request compiled hold)).1) := by
  have hname := isName_keyOf hsized hpos hon.digest_eq compiler request
  have hload := loadGraph_spec (hon.digest_eq ▸ hsized) h.wellFormed (h.lead hon) hname compiled
  rw [onCache_load hon.faults_eq]
  simp only
  rw [hon.digest_eq] at hload
  rcases hload with ⟨status, hstatus, hanswer, hcalm⟩ | ⟨blob, content, -, hanswer, -, -, hcalm⟩ |
    ⟨path, bytes, hdir, rfl, -, hanswer, hstores⟩
  · rw [hanswer]
    rcases direct request compiled with error | bytes
    · exact ⟨rfl, .calm hcalm⟩
    · have hkeep := (Quiet.withMachine hcalm).trans h.wellFormed
        (keep_quiet digest location _ (.owned bytes) hold)
      cases status with
      | stored => exact absurd rfl hstatus
      | _ => exact ⟨hkeep.caches_eq, .calm hkeep.calm⟩
  · have hkeep := (Quiet.withMachine hcalm).trans h.wellFormed
      (keep_quiet digest location _ blob hold)
    rw [hanswer]
    exact ⟨hkeep.caches_eq, .calm hkeep.calm⟩
  · rw [hanswer]
    have hkeep := keep_quiet digest location (session.withMachine
      (loadGraph Machine.host on.cache compiler request (.ok bytes) session.machine).2)
      (.owned bytes) hold
    exact ⟨hkeep.caches_eq, .stores (hon.path_mem path hdir) hstores hkeep.calm⟩

/-- What is asked of a cache changes no caches, and its effect is the one that the answer tells. -/
theorem onCache_effect (command : CacheCommand) :
    (session.onCache on command).2.caches = session.caches ∧
      Effect digest location paths session.machine (session.onCache on command).2.machine
        (on.stored? command (session.onCache on command).1) := by
  have hdigest : on.cache.digest.Sized := hon.digest_eq ▸ hsized
  have hlead := h.lead hon
  cases command with
  | state => exact ⟨rfl, .calm (.refl _ _ _)⟩
  | key compiler request => exact ⟨rfl, .calm (.refl _ _ _)⟩
  | get source hold =>
      have hquiet := get_quiet hsized hpos h hon source hold
      have hnone : on.stored? (.get source hold)
          (session.onCache on (.get source hold)).1 = none := by
        unfold OpenCache.stored?
        split <;> first | rfl | contradiction
      rw [hnone]
      exact ⟨hquiet.caches_eq, .calm hquiet.calm⟩
  | set source blob => exact set_effect hsized hpos h hon source blob
  | load compiler request compiled hold =>
      exact load_effect hsized hpos h hon compiler request compiled hold
  | size =>
      unfold onCache
      simp only [hon.faults_eq, Machine.faultyHost_none]
      exact ⟨rfl, .calm (Cache.size_calm digest hlead)⟩
  | entries =>
      unfold onCache
      simp only [hon.faults_eq, Machine.faultyHost_none]
      exact ⟨rfl, .calm (Cache.entries_calm digest hlead)⟩
  | verify =>
      have hcalm := Cache.verify_calm hdigest h.wellFormed hlead
      rw [hon.digest_eq] at hcalm
      rw [onCache_verify hon.faults_eq]
      exact ⟨rfl, .calm hcalm⟩
  | trim =>
      unfold onCache
      simp only [hon.faults_eq, Machine.faultyHost_none]
      exact ⟨rfl, .calm (Cache.trim_calm digest h.wellFormed hlead)⟩
  | clear =>
      unfold onCache
      simp only [hon.faults_eq, Machine.faultyHost_none]
      exact ⟨rfl, .calm (Cache.clear_calm digest h.wellFormed hlead)⟩

end effects

namespace Effect

variable {m m' : Machine} {stored : Option (Key × Bytes)}

/-- A step keeps the file system well formed. -/
theorem wellFormed (h : Effect digest location paths m m' stored) (hwf : m.fs.WellFormed) :
    m'.fs.WellFormed := by
  cases h with
  | calm hcalm => exact hcalm.wellFormed hwf
  | stores hmem hstores hcalm => exact hcalm.wellFormed (hstores.wellFormed hwf)

/-- A step leaves paths leading where they led. -/
theorem leads (h : Effect digest location paths m m' stored) {path : Path} {place : Location}
    (hlead : m.fs.Leads path place) : m'.fs.Leads path place := by
  cases h with
  | calm hcalm => exact hcalm.leads hlead
  | stores hmem hstores hcalm => exact hcalm.leads (hstores.leads hlead)

/-- A step leaves the working directory where it is. -/
theorem current_eq (h : Effect digest location paths m m' stored) :
    m'.fs.current = m.fs.current := by
  cases h with
  | calm hcalm => exact hcalm.files.current_eq
  | stores hmem hstores hcalm => exact hcalm.files.current_eq.trans hstores.current_eq

end Effect

namespace Sound

/-- Caches go on serving the directory through every such effect. -/
theorem effect (h : session.Sound digest location paths here) {stored : Option (Key × Bytes)}
    (heffect : Effect digest location paths session.machine session'.machine stored)
    (hserves : ∀ name on, session'.caches.get? name = some on → on.Serves digest paths) :
    session'.Sound digest location paths here where
  wellFormed := heffect.wellFormed h.wellFormed
  leads path hmem := heffect.leads (h.leads path hmem)
  here_eq := by
    rw [workingDirectory, heffect.current_eq]
    exact h.here_eq
  serves := hserves

/-- A session stays sound through quiet changes. -/
theorem quiet (h : session.Sound digest location paths here)
    (hquiet : session.Quiet digest location session') :
    session'.Sound digest location paths here :=
  h.effect (.calm hquiet.calm) (hquiet.caches_eq ▸ h.serves)

end Sound

section steps

variable (h : session.Sound digest location paths here)
include h

/-- A new cache that keeps its entries behind one of the paths joins the others. -/
theorem openCache_effect (name : String) {source : ConfigSource} (version : Option UInt32)
    (hsource : ∀ path, source.directory? here = some path → path ∈ paths) :
    (session.step (.openCache name source digest version .none)).2.Sound digest location paths
        here ∧
      session.begin.machine.Calm digest location
        (session.step (.openCache name source digest version .none)).2.machine := by
  obtain ⟨hcalm, hdigest, hfaults, hdir⟩ :=
    openCache_spec digest location h.begin.wellFormed source version
  refine ⟨h.begin.effect (.calm hcalm) fun other on hget => ?_, hcalm⟩
  have hget : (session.caches.set name _).get? other = some on := hget
  rw [Table.get?_set] at hget
  split at hget
  · cases hget
    exact ⟨hdigest, hfaults, fun path hpath =>
      hsource path (h.begin.here_eq ▸ hdir path hpath)⟩
  · exact h.serves other on hget

/-- The others stay when a cache is closed. -/
theorem dropCache_sound (name : String) :
    (session.step (.dropCache name)).2.Sound digest location paths here := by
  have hcalm : session.begin.machine.Calm digest location
      (session.step (.dropCache name)).2.machine := .refl _ _ _
  refine h.begin.effect (.calm hcalm) fun other on hget => ?_
  have hget : (session.caches.erase name).get? other = some on := hget
  rw [Table.get?_erase] at hget
  split at hget
  · cases hget
  · exact h.serves other on hget

/-- What is asked of a cache under its name has the effect that the moment tells. -/
theorem step_onCache_effect (hsized : digest.Sized) (hpos : 0 < digest.size) (name : String)
    (command : CacheCommand) :
    (session.step (.onCache name command)).2.Sound digest location paths here ∧
      Effect digest location paths session.begin.machine
        (session.step (.onCache name command)).2.machine
        (Moment.stored? ⟨session, .onCache name command⟩) := by
  rcases hget : session.caches.get? name with _ | on
  · have hstored : Moment.stored? ⟨session, .onCache name command⟩ = none := by
      show (session.caches.get? name >>= _) = none
      rw [hget]
      rfl
    rw [step_onCache_of_unknown hget, hstored]
    exact ⟨h.begin, .calm (.refl _ _ _)⟩
  · have hstored : Moment.stored? ⟨session, .onCache name command⟩ =
        on.stored? command (session.begin.onCache on command).1 := by
      show (session.caches.get? name >>= _) = _
      rw [hget, Moment.answer, step_onCache hget]
      rfl
    obtain ⟨hcaches, heffect⟩ :=
      onCache_effect hsized hpos h.begin (h.serves name on hget) command
    rw [step_onCache hget, hstored]
    exact ⟨h.begin.effect heffect (hcaches ▸ h.serves), heffect⟩

end steps

/-- Reading a held blob changes nothing, and giving it up closes its file at most. -/
theorem readBlob_quiet (digest : Digest) (location : Location) (session : Session)
    (name : String) : session.begin.Quiet digest location (session.step (.readBlob name)).2 := by
  unfold step carryOut
  simp only
  rcases session.begin.held.get? name with _ | _ | _
  · exact .refl _ _ _
  · exact .refl _ _ _
  · exact .refl _ _ _

/-- The command to release a blob is quiet. -/
theorem releaseBlob_quiet (digest : Digest) (location : Location) (session : Session)
    (name : String) :
    session.begin.Quiet digest location (session.step (.releaseBlob name)).2 := by
  unfold step carryOut
  simp only
  rcases session.begin.held.get? name with _ | _ | _
  · exact .refl _ _ _
  · exact release_quiet _ _ _ name
  · exact release_quiet _ _ _ name

/-- What a command that only uses the caches does: the session stays sound, and the effect is the
one that the moment tells. -/
theorem Moment.spec (hsized : digest.Sized) (hpos : 0 < digest.size) (moment : Moment)
    (h : moment.before.Sound digest location paths here)
    (hcommand : moment.command.Ordinary digest paths here) :
    moment.after.Sound digest location paths here ∧
      Effect digest location paths moment.before.begin.machine moment.after.machine
        moment.stored? := by
  obtain ⟨before, command⟩ := moment
  cases command with
  | openCache name source asked version faults =>
      obtain ⟨rfl, rfl, hsource⟩ := hcommand
      obtain ⟨hsound, hcalm⟩ := openCache_effect h name version hsource
      exact ⟨hsound, .calm hcalm⟩
  | dropCache name => exact ⟨dropCache_sound h name, .calm (.refl _ _ _)⟩
  | onCache name command => exact step_onCache_effect h hsized hpos name command
  | readBlob name =>
      have hquiet := readBlob_quiet digest location before name
      exact ⟨h.begin.quiet hquiet, .calm hquiet.calm⟩
  | releaseBlob name =>
      have hquiet := releaseBlob_quiet digest location before name
      exact ⟨h.begin.quiet hquiet, .calm hquiet.calm⟩
  | _ => exact absurd hcommand id

/-! ## Invariants of runs -/

/-- What every allowed command preserves, with the moments so far at hand, holds after every run of
such commands. -/
theorem run_invariant (invariant : List Moment → Session → Prop) {allowed : Command → Prop}
    (hstep : ∀ past session command, allowed command → invariant past session →
      invariant (past ++ [⟨session, command⟩]) (session.step command).2)
    {past : List Moment} {session : Session} (h : invariant past session)
    {commands : List Command} (hall : ∀ command ∈ commands, allowed command) :
    invariant (past ++ run session commands) (finish session commands) := by
  induction commands generalizing past session with
  | nil =>
      rw [run, List.append_nil]
      exact h
  | cons command rest ih =>
      have hnext := hstep past session command (hall command List.mem_cons_self) h
      have hrest := ih hnext fun other hmem => hall other (List.mem_cons_of_mem _ hmem)
      rwa [List.append_assoc] at hrest

end BlobCache.Session
