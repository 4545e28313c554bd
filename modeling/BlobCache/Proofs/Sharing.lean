import BlobCache.Proofs.Reachable

/-!
# Caches that share a directory

What caches do to a directory that they share, seen from an entry that somebody has open. Other
programs may be at work as well, as long as they leave the entry under its name
(`Session.Moment.Sharing`). Nothing is supposed of the digests: those of the caches are what the
entry has to be safe from.

* `Session.onCache_acts`: whatever is asked of a cache, it goes about it in acts.
* `FileSystem.InUse`: an entry that is open, and that no cache with these digests can take for
  damaged.
* `Session.Shared.run`: caches that share a directory go on sharing it.
* `Session.Moment.keeps_inUse`: such an entry stays under its name and is not evicted.
-/

namespace BlobCache

namespace Key

/-- A derived key is a name. Only with a digest that has no bytes it is empty. -/
theorem empty_or_isName_derive (digest : Digest) (version : UInt32) (compiler : Option Compiler)
    (request : Request) :
    derive digest version compiler request = .empty ∨
      (derive digest version compiler request).IsName := by
  unfold derive
  rcases h : digest.ofChunks (fields version compiler request) with _ | ⟨b, rest⟩
  · exact Or.inl rfl
  · exact Or.inr (isName_hex (List.cons_ne_nil b rest))

end Key

namespace Session

/-! ## Keys -/

/-- The key of a request is empty or can be the name of a file. -/
theorem empty_or_isName_keyOf (cache : Cache) (compiler : Option Compiler) (request : Request) :
    cache.keyOf compiler request = .empty ∨ (cache.keyOf compiler request).IsName := by
  unfold Cache.keyOf
  split
  · exact Key.empty_or_isName_derive _ _ _ _
  · exact Or.inl rfl

/-- So is every key that a cache is asked for. -/
theorem empty_or_isName_of_key? {cache : Cache} {source : KeySource} {key : Key}
    (h : source.key? cache = some key) : key = .empty ∨ key.IsName := by
  cases source with
  | text written =>
      rw [KeySource.key?] at h
      split at h
      · exact Or.inl (Option.some.inj h).symm
      · exact Or.inr (Key.isName_of_parse? h)
  | request compiler wanted =>
      cases h
      exact empty_or_isName_keyOf cache compiler wanted

/-! ## Acts of a cache in a session -/

/-- A cache that nothing is refused and that keeps its entries in this directory. -/
structure OpenCache.Shares (location : Location) (on : OpenCache) (fs : FileSystem) : Prop where
  /-- Nothing is refused. -/
  faults_eq : on.faults = .none
  /-- Its path leads to the directory. -/
  leads : ∀ path, on.cache.state.directory? = some path → fs.Leads path location

/-- A cache goes on sharing its directory while time goes by. -/
theorem OpenCache.Shares.begin {session : Session} {on : OpenCache} {location : Location}
    (h : on.Shares location session.machine.fs) : on.Shares location session.begin.machine.fs where
  faults_eq := h.faults_eq
  leads path hdir := (h.leads path hdir).mono rfl fun _ _ hget _ => hget

/-- To release a blob changes no name. -/
theorem tree_release (session : Session) (name : String) :
    (session.release name).machine.fs.tree = session.machine.fs.tree := by
  unfold release
  rcases session.held.get? name with _ | _ | _ <;> rfl

/-- To keep a blob changes no name. -/
theorem tree_keep (session : Session) (blob : Blob HandleId) (hold : Option String) :
    (session.keep blob hold).machine.fs.tree = session.machine.fs.tree := by
  cases hold with
  | none => cases blob <;> rfl
  | some name => exact tree_release session name

section acts

variable {session : Session} {on : OpenCache} {location : Location}
  (hwf : session.machine.fs.WellFormed) (h : on.Shares location session.machine.fs)
include hwf h

/-- What is asked with `get` comes down to acts. -/
theorem get_acts (source : KeySource) (hold : Option String) :
    ∃ m, session.machine.Acts on.cache.digest location m ∧
      (session.onCache on (.get source hold)).2.machine.fs.tree = m.fs.tree ∧
      (session.onCache on (.get source hold)).2.machine.log = m.log := by
  rcases hkey : source.key? on.cache with _ | key
  · unfold onCache
    simp only [hkey]
    exact ⟨_, .refl _ _ _, rfl, rfl⟩
  · have hacts := lookUp_acts hwf h.leads (empty_or_isName_of_key? hkey)
    rw [onCache_get h.faults_eq session hkey]
    rcases (lookUp Machine.host on.cache key session.machine).1 with _ | blob
    · exact ⟨_, hacts, rfl, rfl⟩
    · exact ⟨_, hacts, tree_keep _ _ _, log_keep _ _ _⟩

/-- So does what is asked with a load. -/
theorem load_acts (compiler : Option Compiler) (request : Request)
    (compiled : Except String Bytes) (hold : Option String) :
    ∃ m, session.machine.Acts on.cache.digest location m ∧
      (session.onCache on (.load compiler request compiled hold)).2.machine.fs.tree = m.fs.tree ∧
      (session.onCache on (.load compiler request compiled hold)).2.machine.log = m.log := by
  have hacts := loadGraph_acts hwf h.leads (empty_or_isName_keyOf on.cache compiler request)
    compiled
  rw [onCache_load h.faults_eq]
  simp only
  rcases (loadGraph Machine.host on.cache compiler request compiled session.machine).1 with
    error | loaded
  · exact ⟨_, hacts, rfl, rfl⟩
  · exact ⟨_, hacts, tree_keep _ _ _, log_keep _ _ _⟩

/-- Whatever is asked of a cache comes down to acts; after them it closes files at most. -/
theorem onCache_acts (asked : CacheCommand) :
    ∃ m, session.machine.Acts on.cache.digest location m ∧
      (session.onCache on asked).2.machine.fs.tree = m.fs.tree ∧
      (session.onCache on asked).2.machine.log = m.log := by
  have hhost : Machine.faultyHost on.faults = Machine.host := by
    rw [h.faults_eq, Machine.faultyHost_none]
  have hdone : ∀ {α : Type} {x : StateM Machine α} {after : Session},
      after.machine = (x session.machine).2 →
      session.machine.Acts on.cache.digest location (x session.machine).2 →
      ∃ m, session.machine.Acts on.cache.digest location m ∧ after.machine.fs.tree = m.fs.tree ∧
        after.machine.log = m.log :=
    fun hafter hacts => ⟨_, hacts, congrArg (·.fs.tree) hafter, congrArg (·.log) hafter⟩
  cases asked with
  | state => exact ⟨_, .refl _ _ _, rfl, rfl⟩
  | key compiler request => exact ⟨_, .refl _ _ _, rfl, rfl⟩
  | get source hold => exact get_acts hwf h source hold
  | set source blob =>
      rcases hkey : source.key? on.cache with _ | key
      · unfold onCache
        simp only [hkey]
        exact ⟨_, .refl _ _ _, rfl, rfl⟩
      · rw [onCache_set h.faults_eq session hkey]
        exact hdone rfl (Cache.set_acts hwf h.leads (empty_or_isName_of_key? hkey) blob)
  | size => exact hdone rfl (hhost ▸ Cache.size_acts h.leads)
  | entries => exact hdone rfl (hhost ▸ Cache.entries_acts h.leads)
  | verify => exact hdone rfl (hhost ▸ Cache.verify_acts hwf h.leads)
  | trim => exact hdone rfl (hhost ▸ Cache.trim_acts hwf h.leads)
  | clear => exact hdone rfl (hhost ▸ Cache.clear_acts hwf h.leads)
  | load compiler request compiled hold => exact load_acts hwf h compiler request compiled hold

end acts

end Session

/-! ## Entries in use -/

/-- An entry that somebody has open. Either it is being written, or none of these digests finds it
damaged. -/
structure FileSystem.InUse (fs : FileSystem) (digests : Digest → Prop) (location : Location)
    (name : Bytes) (id : FileId) : Prop where
  /-- It stands under its name. -/
  bound : fs.tree.get? (location.child name) = some (.file id)
  /-- Somebody has it open. -/
  locked : fs.locksOn id ≠ []
  /-- It is being written, or it is not damaged. -/
  intact : .exclusive ∈ fs.locksOn id ∨ ∀ digest, digests digest → ∀ path error,
    Entry.check digest path (fs.contents id) = .error error → error.isCorrupt = false

/-- An entry in use is secured against every cache with such a digest. -/
theorem FileSystem.InUse.secures {m : Machine} {digests : Digest → Prop} {location : Location}
    {name : Bytes} {id : FileId} (h : m.fs.InUse digests location name id) {digest : Digest}
    (hdigest : digests digest) (hnot : m.NotEvicted name) : m.Secures digest location name id where
  bound := h.bound
  locked := h.locked
  intact := h.intact.imp_right fun hsound => hsound digest hdigest
  notEvicted := hnot

namespace Session

/-- The entry under a name is left alone: it stays there, and its file gets no further name. -/
structure Moment.Spares (place : Location) (moment : Moment) : Prop where
  /-- The entry stays. -/
  kept : ∀ id, moment.before.machine.fs.tree.get? place = some (.file id) →
    moment.after.machine.fs.tree.get? place = some (.file id)
  /-- It gets no further name. -/
  links_le : ∀ id, moment.before.machine.fs.tree.get? place = some (.file id) →
    moment.after.machine.fs.linkCount (.file id) ≤ moment.before.machine.fs.linkCount (.file id)

/-- Caches with these digests share the directory, and whoever else takes names away or makes links
leaves the entry alone. -/
def Moment.Sharing (digests : Digest → Prop) (location : Location) (name : Bytes)
    (moment : Moment) : Prop :=
  match moment.command with
  | .onCache cacheName _ => ∀ on, moment.before.caches.get? cacheName = some on →
    digests on.cache.digest ∧ on.Shares location moment.before.machine.fs
  | .meddle _ | .storeRemove _ | .tool .. => moment.Spares (location.child name)
  | _ => True

/-- Every open cache shares the directory. -/
def Shared (location : Location) (session : Session) : Prop :=
  ∀ name on, session.caches.get? name = some on → on.Shares location session.machine.fs

/-- Commands by which names are taken away or links made, but not by a cache. -/
def Command.IsForeign : Command → Prop
  | .meddle _ | .storeRemove _ | .tool .. => True
  | _ => False

/-- Where all caches share the directory, a command of theirs is one that shares it. -/
theorem Shared.sharing {moment : Moment} {digests : Digest → Prop} {location : Location}
    (h : moment.before.Shared location)
    (hdigests : ∀ name on, moment.before.caches.get? name = some on → digests on.cache.digest)
    (hforeign : ¬moment.command.IsForeign) (name : Bytes) :
    moment.Sharing digests location name := by
  obtain ⟨before, command⟩ := moment
  cases command with
  | onCache cacheName asked => exact fun on hon => ⟨hdigests cacheName on hon, h cacheName on hon⟩
  | meddle | storeRemove | tool => exact absurd trivial hforeign
  | _ => trivial

/-- Caches that serve a directory share it. -/
theorem Sound.shared {session : Session} {digest : Digest} {location : Location} {paths : List Path}
    {here : Path} (h : session.Sound digest location paths here) : session.Shared location :=
  fun name on hon => ⟨(h.serves name on hon).faults_eq, h.lead (h.serves name on hon)⟩

/-- So is an ordinary command in a sound session. -/
theorem Moment.sharing_of_sound {moment : Moment} {digest : Digest} {location : Location}
    {paths : List Path} {here : Path} (h : moment.before.Sound digest location paths here)
    (hcommand : moment.command.Ordinary digest paths here) (name : Bytes) :
    moment.Sharing (· = digest) location name := by
  refine h.shared.sharing (fun name on hon => (h.serves name on hon).digest_eq) ?_ name
  intro hforeign
  obtain ⟨before, command⟩ := moment
  cases command with
  | meddle | storeRemove | tool => exact hcommand
  | _ => exact hforeign

/-- So do all caches in a run of commands that only use them. -/
theorem Sound.run {session : Session} {digest : Digest} {location : Location} {paths : List Path}
    {here : Path} (hsized : digest.Sized) (hpos : 0 < digest.size)
    (h : session.Sound digest location paths here) {commands : List Command}
    (hcommands : ∀ command ∈ commands, command.Ordinary digest paths here) :
    (finish session commands).Sound digest location paths here ∧
      ∀ moment ∈ Session.run session commands, ∀ name,
        moment.Sharing (· = digest) location name := by
  have hordinary : ∀ moment ∈ Session.run session commands,
      moment.command.Ordinary digest paths here :=
    fun moment hmem => hcommands moment.command (command_mem_of_mem_run hmem)
  obtain ⟨hend, hall⟩ := invariant_of_run (Sound digest location paths here) h
    fun moment hmem hsound => (moment.spec hsized hpos hsound (hordinary moment hmem)).1
  exact ⟨hend, fun moment hmem name =>
    Moment.sharing_of_sound (hall moment hmem) (hordinary moment hmem) name⟩

/-! ## Caches that go on sharing -/

/-- Commands that are not foreign and open no cache. -/
def Command.IsInner (command : Command) : Prop :=
  ¬command.IsForeign ∧ ∀ name source digest version faults,
    command ≠ .openCache name source digest version faults

/-- To release a blob leaves the caches open. -/
theorem caches_release (session : Session) (name : String) :
    (session.release name).caches = session.caches := by
  unfold release
  rcases session.held.get? name with _ | _ | _ <;> rfl

/-- To keep a blob leaves the caches open. -/
theorem caches_keep (session : Session) (blob : Blob HandleId) (hold : Option String) :
    (session.keep blob hold).caches = session.caches := by
  cases hold with
  | none => rfl
  | some name => exact caches_release session name

/-- To close a file leaves the caches open. -/
theorem caches_closeFile (session : Session) (name : String) :
    (session.closeFile name).caches = session.caches := by
  unfold closeFile
  rcases session.files.get? name with _ | _ <;> rfl

/-- Asking a cache opens none and closes none. -/
theorem caches_onCache (session : Session) (on : OpenCache) (asked : CacheCommand) :
    (session.onCache on asked).2.caches = session.caches := by
  cases asked with
  | get source hold =>
      unfold onCache
      rcases hkey : source.key? on.cache with _ | key <;> simp only [hkey, onMachine]
      generalize lookUp (Machine.faultyHost on.faults) on.cache key session.machine = looked
      obtain ⟨_ | blob, m⟩ := looked
      · rfl
      · exact caches_keep _ blob hold
  | set source blob =>
      unfold onCache
      rcases hkey : source.key? on.cache with _ | key <;> simp only [hkey]
      rfl
  | load compiler request compiled hold =>
      unfold onCache
      simp only [onMachine]
      generalize loadGraph (Machine.faultyHost on.faults) on.cache compiler request compiled
        session.machine = loading
      obtain ⟨_ | ⟨blob, status⟩, m⟩ := loading
      · rfl
      · exact caches_keep _ blob hold
  | _ => rfl

/-- Only `openCache` opens caches, and only it and `dropCache` close any. -/
theorem caches_carryOut (session : Session) {command : Command}
    (hopen : ∀ name source digest version faults,
      command ≠ .openCache name source digest version faults)
    (hdrop : ∀ name, command ≠ .dropCache name) :
    (session.carryOut command).2.caches = session.caches := by
  cases command with
  | openCache name source digest version faults => exact absurd rfl (hopen _ _ _ _ _)
  | dropCache name => exact absurd rfl (hdrop name)
  | meddle change =>
      unfold carryOut
      simp only [onMachine]
      generalize Machine.onFiles (fun fs => change.apply fs) session.machine = changed
      obtain ⟨_ | _, m⟩ := changed <;> rfl
  | contentOf | attributes | storeList | readBlob | onFile =>
      unfold carryOut
      simp only
      split <;> rfl
  | onCache name asked =>
      unfold carryOut
      simp only
      split
      · rfl
      · exact caches_onCache session _ asked
  | releaseBlob name =>
      unfold carryOut
      simp only
      split
      · rfl
      · exact caches_release _ name
  | openFile name path mode =>
      unfold carryOut
      simp only [onMachine]
      generalize openFile path mode session.machine = opened
      obtain ⟨_ | handle, m⟩ := opened
      · rfl
      · exact caches_closeFile _ name
  | closeFile name => exact caches_closeFile session name
  | storeDirectories | storeRemove | tool => rfl

/-- A cache that is open after a step was open before, or it is opened in this step. -/
theorem Moment.cache_origin (moment : Moment) {name : String} {on : OpenCache}
    (h : moment.after.caches.get? name = some on) :
    moment.before.caches.get? name = some on ∨
      ∃ source digest version faults,
        moment.command = .openCache name source digest version faults ∧
        on = (openCache source digest version faults moment.before.begin.machine).1 := by
  obtain ⟨before, command⟩ := moment
  by_cases hopen : ∃ opened source digest version faults,
      command = .openCache opened source digest version faults
  · obtain ⟨opened, source, digest, version, faults, rfl⟩ := hopen
    have h : (before.caches.set opened (openCache source digest version faults
      before.begin.machine).1).get? name = some on := h
    rw [Table.get?_set] at h
    split at h
    · rename_i hname
      exact Or.inr ⟨source, digest, version, faults, hname ▸ rfl, (Option.some.inj h).symm⟩
    · exact Or.inl h
  by_cases hdrop : ∃ dropped, command = .dropCache dropped
  · obtain ⟨dropped, rfl⟩ := hdrop
    have h : (before.caches.erase dropped).get? name = some on := h
    rw [Table.get?_erase] at h
    split at h
    · cases h
    · exact Or.inl h
  · have hcaches : (before.begin.carryOut command).2.caches = before.begin.caches :=
      caches_carryOut before.begin
        (fun opened source digest version faults e =>
          hopen ⟨opened, source, digest, version, faults, e⟩)
        fun dropped e => hdrop ⟨dropped, e⟩
    exact Or.inl (hcaches ▸ h)

section inner

variable {location : Location} {moment : Moment} (horderly : moment.before.Orderly)
  (h : moment.before.Shared location) (hinner : moment.command.IsInner)
include horderly h hinner

/-- A path leads where it led after a command that shares the directory. -/
theorem Shared.leads_after {path : Path} (hlead : moment.before.machine.fs.Leads path location) :
    moment.after.machine.fs.Leads path location := by
  have hchanges := (moment.keepsToFreedom horderly).changes
  have hbegin : moment.before.begin.machine.fs.Leads path location :=
    hlead.mono rfl fun _ _ hget _ => hget
  by_cases hcache : ∃ cacheName asked, moment.command = .onCache cacheName asked
  · obtain ⟨before, command⟩ := moment
    obtain ⟨cacheName, asked, rfl⟩ := hcache
    have hafter : Moment.after ⟨before, .onCache cacheName asked⟩ =
        (before.step (.onCache cacheName asked)).2 := rfl
    rcases hon : before.caches.get? cacheName with _ | on
    · rw [hafter, step_onCache_of_unknown hon]
      exact hbegin
    · have hcurrent := hchanges.current_eq
      rw [hafter, step_onCache hon] at hcurrent ⊢
      obtain ⟨m, hacts, htree, -⟩ :=
        onCache_acts horderly.begin.wellFormed (h cacheName on hon).begin asked
      exact (hacts.leads hbegin).mono (hcurrent.trans hacts.current_eq.symm)
        fun _ _ hget _ => htree ▸ hget
  · refine hchanges.leads (fun hremoves => ?_) hlead
    obtain ⟨before, command⟩ := moment
    cases command with
    | onCache cacheName asked => exact hcache ⟨cacheName, asked, rfl⟩
    | meddle | storeRemove | tool => exact hinner.1 trivial
    | _ => exact hremoves

/-- Caches that share the directory go on sharing it. -/
theorem Shared.step : moment.after.Shared location := by
  intro name on hon
  have hbefore : moment.before.caches.get? name = some on :=
    (moment.cache_origin hon).resolve_right fun ⟨_, _, _, _, hopen, _⟩ => hinner.2 _ _ _ _ _ hopen
  exact ⟨(h name on hbefore).faults_eq, fun path hdir =>
    h.leads_after horderly hinner ((h name on hbefore).leads path hdir)⟩

end inner

/-- Where only inner commands are given, the caches share the directory all the time. -/
theorem Shared.run {session : Session} {location : Location} (horderly : session.Orderly)
    (h : session.Shared location) {commands : List Command}
    (hinner : ∀ command ∈ commands, command.IsInner) :
    (finish session commands).Shared location ∧
      ∀ moment ∈ Session.run session commands, ∀ name,
        moment.Sharing (fun _ => True) location name := by
  have hmoments : ∀ moment ∈ Session.run session commands, moment.command.IsInner :=
    fun moment hmem => hinner moment.command (command_mem_of_mem_run hmem)
  obtain ⟨hend, hall⟩ := invariant_of_run (fun session => session.Orderly ∧ session.Shared location)
    ⟨horderly, h⟩ fun moment hmem ⟨horderly, h⟩ =>
      ⟨moment.orderly horderly, h.step horderly (hmoments moment hmem)⟩
  exact ⟨hend.2, fun moment hmem name =>
    (hall moment hmem).2.sharing (fun _ _ _ => trivial) (hmoments moment hmem).1 name⟩

namespace Moment

variable {moment : Moment} {digests : Digest → Prop} {location : Location} {name : Bytes}
  {id : FileId} (horderly : moment.before.Orderly)
  (hsharing : moment.Sharing digests location name)
include horderly hsharing

/-- A command that shares the directory gives no entry a further name. -/
theorem links_le (hbound : moment.before.machine.fs.tree.get? (location.child name) =
      some (.file id)) :
    moment.after.machine.fs.linkCount (.file id) ≤
      moment.before.machine.fs.linkCount (.file id) := by
  by_cases hmeddle : ∃ change, moment.command = .meddle change
  · obtain ⟨change, hcommand⟩ := hmeddle
    unfold Sharing at hsharing
    rw [hcommand] at hsharing
    exact hsharing.links_le id hbound
  · exact (moment.keepsToFreedom horderly).changes.links_le hmeddle
      (horderly.wellFormed.file_lt _ _ hbound)

/-- An entry in use stays under its name, and no cache evicts it. -/
theorem keeps_inUse (h : moment.before.machine.fs.InUse digests location name id) :
    moment.after.machine.fs.tree.get? (location.child name) = some (.file id) ∧
      ∀ cacheName asked, moment.command = .onCache cacheName asked →
        moment.after.machine.NotEvicted name := by
  have hstep := moment.keepsToFreedom horderly
  have hclean : moment.before.begin.machine.NotEvicted name := fun _ _ _ _ hmem => by cases hmem
  obtain ⟨before, command⟩ := moment
  cases command with
  | onCache cacheName asked =>
      have hcache : Moment.after ⟨before, .onCache cacheName asked⟩ =
          (before.step (.onCache cacheName asked)).2 := rfl
      rcases hon : before.caches.get? cacheName with _ | on
      · rw [hcache, step_onCache_of_unknown hon]
        exact ⟨h.bound, fun _ _ _ => hclean⟩
      · obtain ⟨hdigest, hshares⟩ := hsharing on hon
        have hbegin : before.begin.machine.fs.InUse digests location name id :=
          ⟨h.bound, h.locked, h.intact⟩
        have hwf := horderly.begin.wellFormed
        obtain ⟨m, hacts, htree, hlog⟩ := onCache_acts hwf hshares.begin asked
        have hsecures := (hbegin.secures hdigest hclean).secures_of_acts hwf hacts
        rw [hcache, step_onCache hon]
        refine ⟨htree ▸ hsecures.bound, fun _ _ _ => ?_⟩
        unfold Machine.NotEvicted
        rw [hlog]
        exact hsecures.notEvicted
  | meddle change => exact ⟨hsharing.kept id h.bound, fun _ _ e => by cases e⟩
  | storeRemove path => exact ⟨hsharing.kept id h.bound, fun _ _ e => by cases e⟩
  | tool words bindings => exact ⟨hsharing.kept id h.bound, fun _ _ e => by cases e⟩
  | _ => exact ⟨hstep.changes.names_kept not_false h.bound, fun _ _ e => by cases e⟩

end Moment

end Session

end BlobCache
