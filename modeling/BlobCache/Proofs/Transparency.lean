import BlobCache.Proofs.Runs

/-!
# A cache changes no answer

Whatever caches do, and whatever others do to their entries short of forging one, a load answers
what it would answer without a cache (`Session.load_as_disabled`).

The reason is where entries come from. In such a history every entry whose checksum is right was put
there by a load, so it holds what the compiler made of some request that has this key
(`Session.Honest`). Each step keeps this true, no matter whether it stores, evicts, removes or
damages entries, and a load that finds an entry therefore finds what it would have compiled itself.
-/

namespace BlobCache

/-! ## Changes from outside -/

namespace FileSystem

variable {fs fs' : FileSystem} {path : Path} {location : Location} {name : Bytes}

/-- Nothing in the directory is a symbolic link. -/
def NoLinks (fs : FileSystem) (location : Location) : Prop :=
  ∀ name id target, fs.tree.get? (location.child name) ≠ some (.link id target)

/-- Calm changes put no symbolic link into a directory. -/
theorem Calm.noLinks (h : fs.Calm location fs') (hlinks : fs.NoLinks location) :
    fs'.NoLinks location := by
  intro name id target hget
  rcases h.origin _ _ hget with hold | hdir
  · exact hlinks name id target hold
  · cases hdir

/-- Nor does a new file. -/
theorem NoLinks.planting (h : fs.NoLinks location) (place : Location) (file : FileData) :
    (fs.planting place file).NoLinks location := by
  intro name id target hget
  rw [get?_planting] at hget
  split at hget
  · cases hget
  · exact h name id target hget

/-- Where no symbolic link stands, the file under a name is emptied, or a new one is made. -/
theorem truncate_join (h : fs.Leads path location) (hn : Path.IsName name)
    (hlinks : fs.NoLinks location) :
    fs.truncate (Path.join path name) =
      match fs.under path location name with
      | .error cause => .error cause
      | .ok none => .ok (fs.addFile (location.child name) plainMode [])
      | .ok (some (.file id)) =>
        if fs.mayWrite id then
          .ok (id, fs.modifyFile id fun f => { f with bytes := [], accessed := fs.now })
        else .error (.system .permissionDenied)
      | .ok (some _) => .error (.system .isDirectory) := by
  unfold truncate
  rw [resolveForCreation_join h hn (hlinks name)]
  rcases fs.under path location name with cause | _ | _ | _ | id
  · rfl
  · rfl
  · rfl
  · rfl
  · simp only [except_ok_bind]
    by_cases hmay : fs.mayWrite id = true
    · rw [if_pos hmay, if_pos hmay]
      rfl
    · rw [if_neg hmay, if_neg hmay]
      rfl

/-- Removing a name of the directory takes away a file at most. -/
theorem unlink_join_calm (h : fs.Leads path location) (hn : Path.IsName name)
    (hlinks : fs.NoLinks location) :
    fs.Calm location (Session.settle fs (fs.unlink (Path.join path name))).2 := by
  rw [unlink_join h hn]
  rcases hunder : fs.under path location name with cause | _ | _ | ⟨id, target⟩ | id
  · exact .refl _ _
  · exact .refl _ _
  · exact .refl _ _
  · exact absurd (under_eq_ok_iff.mp hunder).2 (hlinks name id target)
  · exact .unbind (under_eq_ok_iff.mp hunder).2

/-- Replacing a name of the directory takes away a file at most, and may put a new one there. -/
theorem replace_join (h : fs.Leads path location) (hn : Path.IsName name)
    (hlinks : fs.NoLinks location) (bytes : Bytes) (time : Option Int) :
    ∃ cleared, fs.Calm location cleared ∧
      ((fs.replace (Path.join path name) bytes time).2 = cleared ∨
        cleared.tree.get? (location.child name) = none ∧ Fits path name ∧
          (fs.replace (Path.join path name) bytes time).2 =
            cleared.planting (location.child name) ⟨bytes, plainMode, time.getD fs.now⟩) := by
  unfold replace
  rw [unlink_join h hn]
  rcases hunder : fs.under path location name with cause | _ | _ | ⟨id, target⟩ | id
  · refine ⟨fs, .refl _ _, Or.inl ?_⟩
    simp only [Except.toOption, Option.getD_none, truncate_join h hn hlinks, hunder]
  · obtain ⟨hfit, hfree⟩ := under_eq_ok_iff.mp hunder
    refine ⟨fs, .refl _ _, Or.inr ⟨hfree, hfit, ?_⟩⟩
    simp only [Except.toOption, Option.getD_none, truncate_join h hn hlinks, hunder]
    exact writeAt_addFile bytes _
  · refine ⟨fs, .refl _ _, Or.inl ?_⟩
    simp only [Except.toOption, Option.getD_none, truncate_join h hn hlinks, hunder]
  · exact absurd (under_eq_ok_iff.mp hunder).2 (hlinks name id target)
  · obtain ⟨hfit, hget⟩ := under_eq_ok_iff.mp hunder
    have hcalm : fs.Calm location (fs.unbind (location.child name)) := .unbind hget
    have hfree : (fs.unbind (location.child name)).tree.get? (location.child name) = none :=
      Table.get?_erase_self _ _
    have hunder' := under_eq_ok_iff.mpr ⟨hfit, hfree⟩
    refine ⟨_, hcalm, Or.inr ⟨hfree, hfit, ?_⟩⟩
    simp only [Except.toOption, Option.getD_some,
      truncate_join (hcalm.leads h) hn (hcalm.noLinks hlinks), hunder']
    exact writeAt_addFile bytes _

/-! ## Where entries come from -/

/-- Every entry whose checksum is right holds a blob that someone vouches for. -/
structure Vouched (digest : Digest) (location : Location) (vouch : Bytes → Bytes → Prop)
    (fs : FileSystem) : Prop where
  /-- Entries are no symbolic links. -/
  noLinks : fs.NoLinks location
  /-- The blob under a name is vouched for. -/
  vouched : ∀ name id blob, fs.tree.get? (location.child name) = some (.file id) →
    fs.contents id = Entry.encode digest blob → vouch name blob

namespace Vouched

variable {digest : Digest} {vouch vouch' : Bytes → Bytes → Prop}

/-- What someone vouches for others may vouch for, too. -/
theorem mono (h : fs.Vouched digest location vouch)
    (hvouch : ∀ name blob, vouch name blob → vouch' name blob) :
    fs.Vouched digest location vouch' :=
  ⟨h.noLinks, fun name id blob hget hblob => hvouch name blob (h.vouched name id blob hget hblob)⟩

/-- After calm changes entries are still vouched for. -/
theorem calm (h : fs.Vouched digest location vouch) (hwf : fs.WellFormed)
    (hcalm : fs.Calm location fs') : fs'.Vouched digest location vouch where
  noLinks := hcalm.noLinks h.noLinks
  vouched name id blob hget hblob := by
    rw [hcalm.contents_of_named hwf hget] at hblob
    exact h.vouched name id blob (hcalm.file_origin hget) hblob

/-- A new file needs someone who vouches for it only if its checksum is right. -/
theorem planting (h : fs.Vouched digest location vouch) (hwf : fs.WellFormed) (name : Bytes)
    (file : FileData) (hfile : ∀ blob, file.bytes = Entry.encode digest blob → vouch name blob) :
    (fs.planting (location.child name) file).Vouched digest location vouch where
  noLinks := h.noLinks.planting _ _
  vouched other id blob hget hblob := by
    rw [get?_planting] at hget
    split at hget
    · rename_i hplace
      cases hget
      rw [contents_planting_self] at hblob
      rw [(Location.child_inj.mp hplace).2]
      exact hfile blob hblob
    · rw [contents_planting_of_lt (hwf.file_lt _ _ hget)] at hblob
      exact h.vouched other id blob hget hblob

end Vouched

end FileSystem

/-- A stored blob needs someone who vouches for it. -/
theorem Machine.Stores.vouched {digest : Digest} {location : Location} {path : Path} {key : Key}
    {blob : Bytes} {m m' : Machine} {vouch : Bytes → Bytes → Prop} (hsized : digest.Sized)
    (h : m.Stores digest location path key blob m') (hwf : m.fs.WellFormed)
    (hvouched : m.fs.Vouched digest location vouch) (hblob : vouch key.fileName blob) :
    m'.fs.Vouched digest location vouch := by
  obtain ⟨roomy, hcalm, -, hfs, -⟩ := h.steps
  have hwf' := hcalm.wellFormed hwf
  have hplanted := (hvouched.calm hwf hcalm.files).planting hwf' key.fileName
    ⟨Entry.encode digest blob, entryMode, roomy.fs.now⟩ fun other hother => by
      rw [← (Entry.encode_inj hsized).mp hother]
      exact hblob
  rw [hfs]
  exact hplanted.calm (hwf'.planting h.isName h.fits.2 _) (.spent _ _)

namespace Session

variable {digest : Digest} {location : Location} {paths : List Path} {here : Path}
  {session session' : Session} {compilerOf : Request → Option Compiler}
  {compile : Request → Except String Bytes}

/-! ## Histories of loads -/

/-- The key that a load asks a cache for and the request behind it. -/
def Moment.wanted? (moment : Moment) : Option (Key × Request) :=
  match moment.command with
  | .onCache name (.load compiler request _ _) => do
    let on ← moment.before.caches.get? name
    return (Key.derive on.cache.digest on.cache.version compiler request, request)
  | _ => none

/-- Graphs are loaded with one compiler, and nothing else is stored. -/
def Command.Compiling (compilerOf : Request → Option Compiler)
    (compile : Request → Except String Bytes) : Command → Prop
  | .onCache _ (.set ..) => False
  | .onCache _ (.load compiler request compiled _) =>
    compiler = compilerOf request ∧ compiled = compile request
  | _ => True

/-- Someone else removes an entry, or puts something in its place that has no checksum or a wrong
one. -/
def Command.Spoiling (digest : Digest) (paths : List Path) : Command → Prop
  | .meddle (.unlink path) =>
    ∃ directory ∈ paths, ∃ name, Path.IsName name ∧ path = Path.join directory name
  | .meddle (.write path bytes _) =>
    (∃ directory ∈ paths, ∃ name, Path.IsName name ∧ path = Path.join directory name) ∧
      ¬Entry.Sealed digest bytes
  | _ => False

/-- The bytes or the error of a load. -/
def Answer.outcome? : Answer → Option (Except LoadError Bytes)
  | .loaded _ content _ _ => some (.ok content)
  | .loadFailed error _ => some (.error error)
  | _ => none

/-- The session in which one of the caches is disabled. -/
def disabling (session : Session) (name : String) : Session :=
  { session with
    caches := session.caches.modify name fun on =>
      { on with cache := { on.cache with state := .disabled } } }

/-- A load among these moments asked for the key of this name, and the compiler made this blob of
its request. -/
def Compiled (compile : Request → Except String Bytes) (past : List Moment) (name blob : Bytes) :
    Prop :=
  ∃ moment ∈ past, ∃ key request, moment.wanted? = some (key, request) ∧ key.fileName = name ∧
    compile request = .ok blob

/-- A session in which every entry that passes was compiled by a load of the past. -/
structure Honest (digest : Digest) (location : Location) (paths : List Path) (here : Path)
    (compile : Request → Except String Bytes) (past : List Moment) (session : Session) :
    Prop where
  /-- The caches share the directory. -/
  sound : session.Sound digest location paths here
  /-- Entries come from loads. -/
  vouched : session.machine.fs.Vouched digest location (Compiled compile past)

/-- What came from the compiler came from it also in a longer past. -/
theorem Compiled.mono {past more : List Moment} (hsub : past ⊆ more) {name blob : Bytes}
    (h : Compiled compile past name blob) : Compiled compile more name blob := by
  obtain ⟨moment, hmem, hrest⟩ := h
  exact ⟨moment, hsub hmem, hrest⟩

/-! ## Every step keeps entries honest -/

/-- A key that can be a name is derived, not empty. -/
theorem keyOf_eq_derive {cache : Cache} {compiler : Option Compiler} {request : Request}
    (h : (cache.keyOf compiler request).IsName) :
    cache.keyOf compiler request = Key.derive cache.digest cache.version compiler request := by
  unfold Cache.keyOf at h ⊢
  split
  · rfl
  · rename_i hdisabled
    rw [if_neg hdisabled] at h
    exact absurd rfl h.ne_nil

/-- A blob that is stored under a name comes from the compiler. -/
theorem wanted?_of_stored? {moment : Moment}
    (hcommand : moment.command.Compiling compilerOf compile) {key : Key} {blob : Bytes}
    (hstored : moment.stored? = some (key, blob)) (hname : key.IsName) :
    ∃ request, moment.wanted? = some (key, request) ∧ compile request = .ok blob := by
  obtain ⟨name, on, hget, ⟨source, heq, -⟩ | ⟨compiler, request, hold, heq, rfl⟩⟩ :=
    Moment.command_of_stored? hstored
  · rw [heq] at hcommand
    exact absurd hcommand id
  · rw [heq] at hcommand
    refine ⟨request, ?_, hcommand.2.symm⟩
    unfold Moment.wanted?
    rw [heq, keyOf_eq_derive hname]
    simp only [hget]
    rfl

namespace Honest

variable {past more : List Moment}

/-- A longer past can be told of an honest session. -/
theorem mono (h : session.Honest digest location paths here compile past) (hsub : past ⊆ more) :
    session.Honest digest location paths here compile more :=
  ⟨h.sound, h.vouched.mono fun _ _ => Compiled.mono hsub⟩

/-- A session stays honest while time goes by. -/
theorem begin (h : session.Honest digest location paths here compile past) :
    session.begin.Honest digest location paths here compile past :=
  ⟨h.sound.begin, h.vouched.calm h.sound.wellFormed (.setClock location _ _)⟩

/-- Whoever only loads keeps entries honest. -/
theorem ordinary (hsized : digest.Sized) (hpos : 0 < digest.size)
    (h : session.Honest digest location paths here compile past) {command : Command}
    (hordinary : command.Ordinary digest paths here)
    (hcompiling : command.Compiling compilerOf compile) :
    (session.step command).2.Honest digest location paths here compile
      (past ++ [⟨session, command⟩]) := by
  obtain ⟨hsound, heffect⟩ := Moment.spec hsized hpos ⟨session, command⟩ h.sound hordinary
  have hbegin := h.begin.mono (List.subset_append_left past [⟨session, command⟩])
  have hwf := hbegin.sound.wellFormed
  refine ⟨hsound, ?_⟩
  generalize hstored : Moment.stored? ⟨session, command⟩ = stored at heffect
  cases heffect with
  | calm hcalm => exact hbegin.vouched.calm hwf hcalm.files
  | stores hmem hstores hcalm =>
      obtain ⟨request, hwanted, hcompile⟩ := wanted?_of_stored? hcompiling hstored hstores.isName
      have hblob : Compiled compile (past ++ [⟨session, command⟩]) _ _ :=
        ⟨_, List.mem_append_right _ (List.mem_singleton_self _), _, request, hwanted, rfl,
          hcompile⟩
      have hfull := hstores.vouched hsized hwf hbegin.vouched hblob
      exact hfull.calm (hstores.wellFormed hwf) hcalm.files

/-- So do changes from outside that write nothing. -/
theorem withCalmFiles (h : session.Honest digest location paths here compile past)
    {fs : FileSystem} (hcalm : session.machine.fs.Calm location fs) :
    (session.withMachine (session.machine.withFiles fs)).Honest digest location paths here compile
      past where
  sound :=
    { wellFormed := hcalm.wellFormed h.sound.wellFormed
      leads := fun path hmem => hcalm.leads (h.sound.leads path hmem)
      here_eq := by
        show Path.Plain.toPath ⟨true, fs.current.names⟩ = here
        rw [hcalm.current_eq]
        exact h.sound.here_eq
      serves := h.sound.serves }
  vouched := h.vouched.calm h.sound.wellFormed hcalm

/-- So do new files that do not pass. -/
theorem withPlanted (h : session.Honest digest location paths here compile past) {name : Bytes}
    (hname : Path.IsName name) (hlen : name.length ≤ FileSystem.nameLimit)
    (hfree : session.machine.fs.tree.get? (location.child name) = none) {file : FileData}
    (hsealed : ¬Entry.Sealed digest file.bytes) :
    (session.withMachine (session.machine.withFiles
      (session.machine.fs.planting (location.child name) file))).Honest digest location paths here
        compile past where
  sound :=
    { wellFormed := h.sound.wellFormed.planting hname hlen file
      leads := fun path hmem => (h.sound.leads path hmem).planting hfree file
      here_eq := h.sound.here_eq
      serves := h.sound.serves }
  vouched := h.vouched.planting h.sound.wellFormed name file fun blob hblob =>
    absurd ⟨blob, hblob⟩ hsealed

/-- To meddle changes the files and nothing else. -/
theorem step_meddle (session : Session) (change : Meddling) :
    (session.step (.meddle change)).2 = session.begin.withMachine
      (session.begin.machine.withFiles (change.apply session.begin.machine.fs).2) := by
  unfold step carryOut onMachine Machine.onFiles
  simp only
  generalize change.apply session.begin.machine.fs = changed
  obtain ⟨_ | _, fs⟩ := changed
  · rfl
  · rfl

/-- Removing entries and replacing them by something that does not pass keeps entries honest. -/
theorem spoiling (h : session.Honest digest location paths here compile past) {command : Command}
    (hspoiling : command.Spoiling digest paths) :
    (session.step command).2.Honest digest location paths here compile
      (past ++ [⟨session, command⟩]) := by
  have hbegin := h.begin.mono (List.subset_append_left past [⟨session, command⟩])
  rcases command with ⟨change⟩ | _ | _ | _ | _ | _ | _ | _ | _ | _ | _ | _ | _ | _ | _
  case meddle =>
    rw [step_meddle]
    rcases change with _ | ⟨path⟩ | _ | ⟨path, bytes, time⟩ | _ | _ | _ | _
    case unlink =>
      obtain ⟨directory, hmem, name, hname, rfl⟩ := hspoiling
      exact hbegin.withCalmFiles (FileSystem.unlink_join_calm
        (hbegin.sound.leads directory hmem) hname hbegin.vouched.noLinks)
    case write =>
      obtain ⟨⟨directory, hmem, name, hname, rfl⟩, hsealed⟩ := hspoiling
      obtain ⟨cleared, hcalm, hfs | ⟨hfree, hfit, hfs⟩⟩ := FileSystem.replace_join
        (hbegin.sound.leads directory hmem) hname hbegin.vouched.noLinks bytes time
      · rw [Meddling.apply, hfs]
        exact hbegin.withCalmFiles hcalm
      · rw [Meddling.apply, hfs]
        exact (hbegin.withCalmFiles hcalm).withPlanted hname hfit.2 hfree hsealed
    all_goals cases hspoiling
  all_goals cases hspoiling

/-- Every step keeps entries honest. -/
theorem step (hsized : digest.Sized) (hpos : 0 < digest.size)
    (h : session.Honest digest location paths here compile past) {command : Command}
    (hcommand : command.Ordinary digest paths here ∧ command.Compiling compilerOf compile ∨
      command.Spoiling digest paths) :
    (session.step command).2.Honest digest location paths here compile
      (past ++ [⟨session, command⟩]) := by
  rcases hcommand with ⟨hordinary, hcompiling⟩ | hspoiling
  · exact h.ordinary hsized hpos hordinary hcompiling
  · exact h.spoiling hspoiling

/-- An empty directory has no entry that anyone had to compile. -/
theorem of_empty (hsound : session.Sound digest location paths here)
    (hempty : ∀ name, session.machine.fs.tree.get? (location.child name) = none) :
    session.Honest digest location paths here compile [] := by
  refine ⟨hsound, fun name id target hget => ?_, fun name id blob hget _ => ?_⟩
  · rw [hempty] at hget
    cases hget
  · rw [hempty] at hget
    cases hget

/-- Entries are honest after every history of loads and spoiled entries. -/
theorem run (hsized : digest.Sized) (hpos : 0 < digest.size)
    (h : session.Honest digest location paths here compile past) {commands : List Command}
    (hcommands : ∀ command ∈ commands, command.Ordinary digest paths here ∧
      command.Compiling compilerOf compile ∨ command.Spoiling digest paths) :
    (finish session commands).Honest digest location paths here compile
      (past ++ session.run commands) :=
  run_invariant (fun past session => session.Honest digest location paths here compile past)
    (fun _ _ _ hcommand h => h.step hsized hpos hcommand) h hcommands

end Honest

/-! ## What a load answers -/

section loads

variable {on : OpenCache} {compiler : Option Compiler} {request : Request}
  {compiled : Except String Bytes}

/-- A load answers what the compiler or the input itself would, if an entry that it may find holds
what the compiler makes. -/
theorem outcome?_load (location : Location) (hsized : on.cache.digest.Sized)
    (hpos : 0 < on.cache.digest.size) (hfaults : on.faults = .none)
    (hwf : session.machine.fs.WellFormed)
    (hlead : ∀ path, on.cache.state.directory? = some path →
      session.machine.fs.Leads path location)
    (hheld : ∀ blob, Cache.Holds on.cache.digest session.machine.fs location
      (on.cache.keyOf compiler request) blob → compiled = .ok blob) (hold : Option String) :
    (session.onCache on (.load compiler request compiled hold)).1.outcome? =
      some (direct request compiled) := by
  have hkey : on.cache.keyOf compiler request = .empty ∨
      (on.cache.keyOf compiler request).IsName := isName_keyOf hsized hpos rfl compiler request
  rw [onCache_load hfaults]
  rcases loadGraph_spec hsized hwf hlead hkey compiled with
    ⟨status, -, hanswer, -⟩ | ⟨blob, content, hdirect, hanswer, hholds, hread, -⟩ |
    ⟨path, bytes, -, -, hdirect, hanswer, -⟩
  · simp only [hanswer]
    rcases direct request compiled with error | bytes
    · rfl
    · rfl
  · obtain rfl := hheld content hholds
    simp only [hanswer, hread, hdirect]
    rfl
  · simp only [hanswer, hdirect]
    rfl

/-- A disabled cache holds nothing, so there the compiler or the input answers. -/
theorem outcome?_load_of_disabled (session : Session) (on : OpenCache)
    (hsized : on.cache.digest.Sized) (hpos : 0 < on.cache.digest.size) (hfaults : on.faults = .none)
    (hwf : session.machine.fs.WellFormed) (hstate : on.cache.state = .disabled)
    (hold : Option String) :
    (session.onCache on (.load compiler request compiled hold)).1.outcome? =
      some (direct request compiled) := by
  refine outcome?_load .top hsized hpos hfaults hwf ?_ ?_ hold
  · intro path hdir
    rw [hstate] at hdir
    cases hdir
  · intro blob hholds
    have hempty : on.cache.keyOf compiler request = .empty := by
      unfold Cache.keyOf
      rw [hstate]
      rfl
    have hname := hholds.isName hwf
    rw [hempty] at hname
    exact absurd rfl hname.ne_nil

end loads

namespace Honest

variable {past : List Moment} {name : String} {on : OpenCache} {request : Request}

/-- What a load finds was compiled from a request with the same key. -/
theorem of_holds (h : session.Honest digest location paths here compile past) {key : Key}
    {blob : Bytes} (hholds : Cache.Holds digest session.machine.fs location key blob) :
    ∃ moment ∈ past, ∃ request, moment.wanted? = some (key, request) ∧
      compile request = .ok blob := by
  obtain ⟨id, hget, hcontents, -⟩ := hholds
  obtain ⟨moment, hmem, other, request, hwanted, hname, hcompile⟩ :=
    h.vouched.vouched _ id blob hget hcontents
  rw [Key.fileName_injective hname] at hwanted
  exact ⟨moment, hmem, request, hwanted, hcompile⟩

/-- A load answers what the compiler or the input would, if whatever was loaded before with its key
compiles to the same. -/
theorem outcome?_load (hsized : digest.Sized) (hpos : 0 < digest.size)
    (h : session.Honest digest location paths here compile past)
    (hon : session.caches.get? name = some on) (compiler : Option Compiler)
    (hkeys : ∀ other ∈ past, ∀ request',
      other.wanted? =
        some (Key.derive on.cache.digest on.cache.version compiler request, request') →
      compile request' = compile request) (hold : Option String) :
    (session.step (.onCache name (.load compiler request (compile request) hold))).1.outcome? =
      some (direct request (compile request)) := by
  have hbegin := h.begin
  have hserves := hbegin.sound.serves name on hon
  obtain rfl := hserves.digest_eq
  rw [step_onCache hon]
  refine Session.outcome?_load location hsized hpos hserves.faults_eq hbegin.sound.wellFormed
    (hbegin.sound.lead hserves) (fun blob hholds => ?_) hold
  have hname := hholds.isName hbegin.sound.wellFormed
  obtain ⟨other, hmem, request', hwanted, hcompile⟩ := hbegin.of_holds hholds
  rw [keyOf_eq_derive hname] at hwanted
  rw [← hkeys other hmem request' hwanted]
  exact hcompile

end Honest

/-- So does a load by a cache that has been disabled. -/
theorem Sound.outcome?_load_disabling (hsized : digest.Sized) (hpos : 0 < digest.size)
    (h : session.Sound digest location paths here) {name : String} {on : OpenCache}
    (hon : session.caches.get? name = some on) (compiler : Option Compiler) (request : Request)
    (compiled : Except String Bytes) (hold : Option String) :
    ((session.disabling name).step
        (.onCache name (.load compiler request compiled hold))).1.outcome? =
      some (direct request compiled) := by
  have hserves := h.serves name on hon
  obtain rfl := hserves.digest_eq
  have hdisabled : (session.disabling name).caches.get? name =
      some { on with cache := { on.cache with state := .disabled } } := by
    unfold disabling
    rw [Table.get?_modify, if_pos rfl, hon]
    rfl
  rw [step_onCache hdisabled]
  exact outcome?_load_of_disabled (session.disabling name).begin
    { on with cache := { on.cache with state := .disabled } } hsized hpos hserves.faults_eq
    h.begin.wellFormed rfl hold

/-! ## Transparency -/

/-- A load answers what it would answer if its cache were disabled. This holds in every history of
any number of caches in a directory that was empty, in which graphs are loaded with one compiler and
entries may be looked up, checked, evicted, removed and spoiled at any time, as long as requests
that compile to different things have different keys. -/
theorem load_as_disabled (compilerOf : Request → Option Compiler)
    (compile : Request → Except String Bytes) (hsized : digest.Sized) (hpos : 0 < digest.size)
    {start : Session} (hsound : start.Sound digest location paths here)
    (hempty : ∀ name, start.machine.fs.tree.get? (location.child name) = none)
    {commands : List Command}
    (hcommands : ∀ command ∈ commands, command.Ordinary digest paths here ∧
      command.Compiling compilerOf compile ∨ command.Spoiling digest paths)
    (hkeys : ∀ a ∈ run start commands, ∀ b ∈ run start commands, ∀ key request request',
      a.wanted? = some (key, request) → b.wanted? = some (key, request') →
        compile request = compile request')
    {moment : Moment} (hmem : moment ∈ run start commands) {name : String}
    {compiler : Option Compiler} {request : Request} {compiled : Except String Bytes}
    {hold : Option String}
    (hcommand : moment.command = .onCache name (.load compiler request compiled hold))
    {on : OpenCache} (hon : moment.before.caches.get? name = some on) :
    ∃ outcome, moment.answer.outcome? = some outcome ∧
      ((moment.before.disabling name).step moment.command).1.outcome? = some outcome := by
  obtain ⟨past, rest, hsplit, hbefore⟩ := mem_run hmem
  -- up to the load, every entry that passes was compiled
  have hhonest : moment.before.Honest digest location paths here compile (run start past) := by
    rw [hbefore]
    exact (Honest.of_empty hsound hempty).run hsized hpos fun command hmem =>
      hcommands command (hsplit ▸ List.mem_append_left _ hmem)
  obtain ⟨rfl, rfl⟩ : compiler = compilerOf request ∧ compiled = compile request := by
    have hmine := hcommands moment.command (hsplit ▸ List.mem_append_right _ List.mem_cons_self)
    rw [hcommand] at hmine
    rcases hmine with ⟨-, hcompiling⟩ | hspoiling
    · exact hcompiling
    · cases hspoiling
  have hwanted : moment.wanted? = some
      (Key.derive on.cache.digest on.cache.version (compilerOf request) request, request) := by
    unfold Moment.wanted?
    rw [hcommand]
    simp only [hon]
    rfl
  refine ⟨direct request (compile request), ?_, ?_⟩
  · rw [Moment.answer, hcommand]
    refine hhonest.outcome?_load hsized hpos hon _ (fun other hother request' hother' => ?_) hold
    have hin : other ∈ run start commands := by
      rw [hsplit, run_append]
      exact List.mem_append_left _ hother
    exact hkeys other hin moment hmem _ _ _ hother' hwanted
  · rw [hcommand]
    exact hhonest.sound.outcome?_load_disabling hsized hpos hon _ _ _ hold

/-- An entry is spoiled between two loads, and a third one with other flags comes in between. -/
theorem load_after_damage_as_disabled :
    let request : Request := ⟨.intermediate, [1, 2], none, ⟨0⟩⟩
    let other : Request := ⟨.intermediate, [1, 2], none, ⟨2⟩⟩
    let compile : Request → Except String Bytes := fun request => .ok (request.input ++ [7])
    let load (request : Request) : Command :=
      .onCache "a" (.load none request (compile request) none)
    let key := Key.derive .weightedSum Key.driverVersion none request
    let past : List Command :=
      [.openCache "a" (.config ⟨some Path.dot, 100⟩) .weightedSum none .none, load request,
        .meddle (.write (Cache.entryPath Path.dot key) [1] none), load request, load other]
    let moment : Moment := ⟨finish (start [0x77]) past, load request⟩
    ∃ outcome, moment.answer.outcome? = some outcome ∧
      ((moment.before.disabling "a").step moment.command).1.outcome? = some outcome := by
  intro request other compile load key past moment
  have hrun : moment ∈ run (start [0x77]) (past ++ [load request]) := by
    rw [run_append]
    exact List.mem_append_right _ (List.mem_singleton_self _)
  have hkeys : ∀ a ∈ (run (start [0x77]) (past ++ [load request])).filterMap Moment.wanted?,
      ∀ b ∈ (run (start [0x77]) (past ++ [load request])).filterMap Moment.wanted?,
        a.1 = b.1 → compile a.2 = compile b.2 := by
    decide +kernel
  have hname : key.IsName := Key.isName_derive Digest.sized_weightedSum (by decide) _ _ _
  have hsealed : ¬Entry.Sealed .weightedSum [1] := by
    rintro ⟨blob, hblob⟩
    have hlength := Entry.length_encode Digest.sized_weightedSum blob
    rw [← hblob] at hlength
    simp [Digest.weightedSum, Digest.ofMachine] at hlength
  obtain ⟨on, hon⟩ : ∃ on, moment.before.caches.get? "a" = some on :=
    Option.isSome_iff_exists.mp (by decide +kernel)
  refine load_as_disabled (fun _ => none) compile Digest.sized_weightedSum (by decide)
    (sound_start .weightedSum [0x77]) (get?_start [0x77]) ?_ ?_ hrun rfl hon
  · have hload : ∀ request, (load request).Ordinary .weightedSum [Path.dot]
        (workingDirectory (start [0x77]).machine.fs) ∧
          (load request).Compiling (fun _ => none) compile := fun _ => ⟨trivial, rfl, rfl⟩
    intro command hcommand
    simp only [past, List.cons_append, List.nil_append, List.mem_cons, List.not_mem_nil,
      or_false] at hcommand
    rcases hcommand with rfl | rfl | rfl | rfl | rfl | rfl
    · exact Or.inl ⟨Command.ordinary_openCache List.mem_cons_self _ _ _ _, trivial⟩
    · exact Or.inl (hload request)
    · exact Or.inr ⟨⟨Path.dot, List.mem_singleton_self _, key.fileName, hname, rfl⟩, hsealed⟩
    · exact Or.inl (hload request)
    · exact Or.inl (hload other)
    · exact Or.inl (hload request)
  · exact fun a ha b hb key request request' hr hr' => hkeys (key, request)
      (List.mem_filterMap.mpr ⟨a, ha, hr⟩) (key, request') (List.mem_filterMap.mpr ⟨b, hb, hr'⟩) rfl

end Session

end BlobCache
