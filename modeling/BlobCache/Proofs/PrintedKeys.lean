import BlobCache.Proofs.CommandLines
import BlobCache.Proofs.Delivery
import BlobCache.Proofs.KeyNames

/-!
# Printed keys

The tool derives keys by itself. A `Cli.KeyLine` says what it is asked for, and the compiler and the
request that a driver would load with are read off the line without regard to the tool
(`Cli.KeyLine.compiler`, `Cli.KeyLine.request`).

* `Cache.of_load_stored`: what a load that says that it stored has done.
* `Cli.printsKey`: the tool prints the key that the cache derives.
* `Cli.filed_of_load`: in an empty directory a load that stored leaves one file. Its name is the
  text of the key, and with this text the tool gets the blob.
* `Cli.keys_agree`: all of that for command lines, whatever the order of their arguments.
-/

namespace BlobCache

/-- A derived key is accepted as text. -/
theorem Key.parse?_derive {digest : Digest} (hsized : digest.Sized) (hpos : 0 < digest.size)
    (version : UInt32) (compiler : Option Compiler) (request : Request) :
    parse? (derive digest version compiler request).text =
      some (derive digest version compiler request) := by
  refine parse?_hex fun h => ?_
  have hlen := hsized (fields version compiler request)
  rw [h, List.length_nil] at hlen
  omega

/-! ## Loads that store -/

namespace Cache

variable {m : Machine} {cache : Cache} {path : Path} {location : Location} {key : Key}
  {compiler : Option Compiler} {compile : StateM Machine (Except String Bytes)}
  {request : Request} {blob : Blob HandleId}

/-- A load that says that it stored has missed, compiled, and stored what it compiled. -/
theorem of_load_stored
    (h : (load Machine.host cache compiler compile request m).1 = .ok ⟨blob, .stored⟩) :
    ∃ missed compiled bytes size,
      get Machine.host cache (cache.keyOf compiler request) m = (none, missed) ∧
      compile missed = (.ok bytes, compiled) ∧ blob = .owned bytes ∧
      set Machine.host cache (cache.keyOf compiler request) bytes compiled =
        (.stored size, (load Machine.host cache compiler compile request m).2) := by
  unfold load at h ⊢
  by_cases hempty : request.input.isEmpty = true
  · rw [if_pos hempty] at h
    cases h
  rw [if_neg hempty] at h ⊢
  by_cases hnative : request.format = .native
  · rw [if_pos hnative] at h
    cases h
  rw [if_neg hnative] at h ⊢
  by_cases hflag : request.flags.contains .disableCaching = true
  · rw [if_pos hflag] at h
    simp only [Machine.run_bind] at h
    rcases hcompiled : compile (Machine.host.report .cachingDisabled m).2 with
      ⟨text | bytes, compiled⟩ <;> rw [hcompiled] at h <;> cases h
  rw [if_neg hflag] at h ⊢
  simp only [Machine.run_bind] at h ⊢
  rcases hlooked : get Machine.host cache (cache.keyOf compiler request) m with
    ⟨_ | found, missed⟩ <;> rw [hlooked] at h
  · simp only [Machine.run_bind] at h ⊢
    rcases hcompiled : compile missed with ⟨text | bytes, compiled⟩ <;> rw [hcompiled] at h
    · cases h
    · unfold offer at h ⊢
      simp only [Machine.run_bind] at h ⊢
      rcases hset : set Machine.host cache (cache.keyOf compiler request) bytes compiled with
        ⟨size | reason | _, after⟩ <;> rw [hset] at h <;> cases h
      exact ⟨missed, compiled, bytes, size, rfl, hcompiled, rfl, hset⟩
  · cases h

/-- The compiler leaves a cache directory alone, whatever it does to other files. -/
structure Aloof (compile : StateM Machine (Except String Bytes)) (path : Path)
    (location : Location) : Prop where
  /-- It gives out identities and names as everyone does. -/
  wellFormed : ∀ m, m.fs.WellFormed → (compile m).2.fs.WellFormed
  /-- It makes no symbolic link that cannot be followed. -/
  legible : ∀ m, m.fs.Legible → (compile m).2.fs.Legible
  /-- The directory can still be reached. -/
  leads : ∀ m, m.fs.Leads path location → (compile m).2.fs.Leads path location
  /-- What stands in it stays. -/
  same : ∀ m name, (compile m).2.fs.tree.get? (location.child name) =
    m.fs.tree.get? (location.child name)

/-- Looking up a free name changes no file. -/
theorem get_of_free (hwf : m.fs.WellFormed) (hlead : m.fs.Leads path location)
    (hdir : cache.state.directory? = some path) (hname : key.IsName)
    (hfree : m.fs.tree.get? (location.child key.fileName) = none) :
    (get Machine.host cache key m).2.fs = m.fs := by
  rw [get_eq hwf hlead hdir hname]
  cases hgranted : m.fs.granted (entryPath path key) .shared with
  | error error => rfl
  | ok id =>
      have hget := ((FileSystem.granted_eq_ok_iff hlead hname).mp hgranted).2.1
      rw [hfree] at hget
      cases hget

/-- What is stored in an empty directory is its only file. -/
theorem stored_in_empty {budget : UInt64} {bytes : Bytes} {size : Nat} {after : Machine}
    (hstate : cache.state = .enabled path budget) (hsized : cache.digest.Sized)
    (hpos : 0 < cache.digest.size) (hwf : m.fs.WellFormed) (hlead : m.fs.Leads path location)
    (hname : key.IsName) (hempty : ∀ name, m.fs.tree.get? (location.child name) = none)
    (hset : set Machine.host cache key bytes m = (.stored size, after)) :
    bytes ≠ [] ∧ FileSystem.Fits path key.fileName ∧
      cache.Stored location key bytes m after ∧
      ∀ place, after.fs.tree.get? place =
        if place = location.child key.fileName then some (.file m.fs.next)
        else m.fs.tree.get? place := by
  have hdir : ∀ other, cache.state.directory? = some other → m.fs.Leads other location := by
    intro other hother
    rw [hstate] at hother
    exact Option.some.inj hother ▸ hlead
  have hstored : (set Machine.host cache key bytes m).1 = .stored size := by rw [hset]
  have hafter : (set Machine.host cache key bytes m).2 = after := by rw [hset]
  -- a blob that is stored fits the budget, and its name can be reached
  obtain ⟨hne, hbudget⟩ : bytes ≠ [] ∧ bytes.length ≤ budget.toNat := by
    rcases set_cases cache key bytes m with ⟨reason, _, heq, -⟩ | ⟨_, _, hstate', -, hne, hle, -⟩
    · rw [heq] at hstored
      cases hstored
    · rw [hstate] at hstate'
      cases hstate'
      exact ⟨hne, hle⟩
  have hfit : FileSystem.Fits path key.fileName := by
    rcases set_spec hwf hdir (Or.inr hname) bytes with ⟨-, hnot⟩ | ⟨other, hother, -, hstores⟩
    · exact absurd hstored (hnot size)
    · rw [hstate] at hother
      cases hother
      exact hstores.fits
  obtain ⟨gone, hgone, -, hfs⟩ := set_eq_storing hstate hsized hpos hwf hlead hname hfit
    (hempty _) hne hbudget
  rw [hafter] at hfs
  refine ⟨hne, hfit, stored_of_storing hsized hwf hname hfit.2 (hempty _) hne hgone hfs, ?_⟩
  -- there is nothing that could have made way
  obtain rfl : gone = [] := by
    rw [List.eq_nil_iff_forall_not_mem]
    intro entry hentry
    obtain ⟨id, hget, -⟩ := FileSystem.mem_entriesIn.mp (hgone entry hentry)
    rw [hempty] at hget
    cases hget
  intro place
  rw [hfs, FileSystem.get?_storing, FileSystem.get?_without]
  simp [FileSystem.without]

end Cache

namespace Cli

open Machine (desk host)

/-! ## What the driver makes of a line -/

namespace KeyLine

/-- The compiler that the line names: none without its name, whatever else is said of it. -/
def compiler (line : KeyLine) : Option Compiler :=
  line.compilerId.map fun id => ⟨id, line.compilerVersion.getD 0, line.opsets.getD 0⟩

/-- The request that the line describes. The flag to leave the cache alone is the first bit, and
the flag to compile for profiling the second. -/
def request (line : KeyLine) (format : Format) (content : Bytes) : Request where
  format := format
  input := content
  buildFlags := line.buildFlags
  flags := ⟨(if line.disableCaching then 1 else 0) ||| (if line.profiling then 2 else 0)⟩

/-- The report on a key: the key and the inputs behind it. -/
def report (line : KeyLine) (format : Format) (key : Key) : Json :=
  .ofMembers
    [("key", .ofText key.text), ("driver_version", .ofNat 65536),
      ("format", .ofText (match format with
        | .native => "native"
        | .intermediate => "intermediate")),
      ("flags",
        .ofNat ((if line.disableCaching then 1 else 0) + (if line.profiling then 2 else 0))),
      ("build_flags", .ofText? line.buildFlags),
      ("compiler", match line.compilerId with
        | none => .null
        | some id => .ofMembers
          [("id", .ofText id), ("version", .ofNat (line.compilerVersion.getD 0).toNat),
            ("supported_opsets", .ofNat (line.opsets.getD 0).toNat)])]

variable (line : KeyLine) (format : Format) (content : Bytes) (path : Path) (budget : UInt64)

/-- What the tool derives is the key that the cache derives. -/
theorem keyOf_options : (line.options format).keyOf content =
    (cacheAt path budget).keyOf line.compiler (line.request format content) := by
  have hflags : (line.options format).flags = (line.request format content).flags := by
    unfold KeyOptions.flags options request
    cases line.disableCaching <;> cases line.profiling <;> rfl
  unfold KeyOptions.keyOf KeyOptions.request
  rw [hflags]
  rfl

/-- The report of the tool is that of the line. -/
theorem keyJson_options (key : Key) :
    keyJson (line.options format) key = line.report format key := by
  have hflags : (line.options format).flags.bits.toNat =
      (if line.disableCaching then 1 else 0) + (if line.profiling then 2 else 0) := by
    unfold KeyOptions.flags options
    cases line.disableCaching <;> cases line.profiling <;>
      simp [Flags.union, Flags.none, Flags.disableCaching, Flags.profiling]
  have hcompiler : ((line.options format).compiler.map compilerJson).getD .null =
      match line.compilerId with
        | none => .null
        | some id => .ofMembers
          [("id", .ofText id), ("version", .ofNat (line.compilerVersion.getD 0).toNat),
            ("supported_opsets", .ofNat (line.opsets.getD 0).toNat)] := by
    unfold KeyOptions.compiler options
    cases line.compilerId <;> rfl
  unfold keyJson report
  rw [hflags, hcompiler]
  cases format <;> rfl

/-- The report on a key is well spelled. -/
theorem wellSpelled_report (key : Key) : Json.WellSpelled (line.report format key).tokens := by
  refine Json.wellSpelled_ofMembers ?_
  simp only [List.forall_mem_cons, List.not_mem_nil, false_imp_iff, implies_true, and_true]
  refine ⟨Json.wellSpelled_ofText _, Json.wellSpelled_ofNat _, Json.wellSpelled_ofText _,
    Json.wellSpelled_ofNat _, Json.wellSpelled_ofText? _, ?_⟩
  cases line.compilerId with
  | none => exact fun spelling hmem => by simp [Json.tokens] at hmem
  | some id =>
      refine Json.wellSpelled_ofMembers ?_
      simp only [List.forall_mem_cons, List.not_mem_nil, false_imp_iff, implies_true, and_true]
      exact ⟨Json.wellSpelled_ofText _, Json.wellSpelled_ofNat _, Json.wellSpelled_ofNat _⟩

end KeyLine

/-! ## What the tool prints -/

/-- The key and, on demand, the report on it were printed, and that was all. -/
structure PrintsKey (line : KeyLine) (format : Format) (json : Bool) (key : Key) (m : Machine)
    (ended : Ending × Machine) : Prop where
  /-- The command did not fail. -/
  exit : ended.1.exit = 0
  /-- No file was touched, and nothing was reported. -/
  unchanged : ended.2 = m
  /-- The text of the key is a line. -/
  text : json = false → ended.1.output = Utf8.encode (key.text ++ "\n")
  /-- The report is a text from which it can be read. -/
  report : json = true → ∃ text, ended.1.output = Utf8.encode text ∧
    Json.read? text = some (line.report format key)

/-- The text of a key names the only file of a directory, and for whoever asks the tool for it the
tool gets these bytes. -/
structure Filed (key : Key) (bytes : Bytes) (path : Path) (location : Location) (m : Machine) :
    Prop where
  /-- There is one file, and its name is the text of the key. -/
  only : ∃ id, ∀ name, m.fs.tree.get? (location.child name) =
    if name = Utf8.encode key.text then some (.file id) else none
  /-- The tool gets the bytes, by the path they were stored by or any other that is not too long. -/
  fetched : ∀ words globals env path' budget output,
    read words = .ok (.run globals (.get key.text output)) →
    Aims globals env m.fs path' budget location →
    path' = path ∨ FileSystem.Fits path' (Utf8.encode key.text) →
    (∀ out, output = some out → m.fs.Deliverable location out) →
    (run desk env words m).1.exit = 0 ∧
      Delivered output bytes (run desk env words m).1.output (run desk env words m).2.fs

section keys

variable {line : KeyLine} {format : Format} {content : Bytes} {path : Path} {budget : UInt64}
  {location : Location} {m : Machine}

/-- The tool prints the key of the request that the command line makes. -/
theorem printsKey {words : List Bytes} {globals : Globals} {json : Bool}
    (hread : read words = .ok (.run globals (.key (line.options format) json))) (env : Environment)
    (hcontent : m.fs.read line.input = .ok content) (path : Path) (budget : UInt64) :
    PrintsKey line format json
      ((cacheAt path budget).keyOf line.compiler (line.request format content)) m
      (run desk env words m) := by
  have hfile : desk.contentOf (line.options format).input m = (.ok content, m) := by
    show (m.fs.read line.input, m) = _
    rw [hcontent]
  have hrun : runCommand desk globals env (.key (line.options format) json) m =
      (if json then prettyReport (line.report format
          ((cacheAt path budget).keyOf line.compiler (line.request format content)))
        else .ofLine ((cacheAt path budget).keyOf line.compiler
          (line.request format content)).text, m) := by
    unfold runCommand key
    simp only [Machine.run_bind, hfile, line.keyOf_options format content path budget,
      KeyLine.keyJson_options]
    cases json <;> rfl
  rw [run_eq hread, hrun]
  refine ⟨by cases json <;> rfl, rfl, ?_, ?_⟩
  · rintro rfl
    rfl
  · rintro rfl
    refine ⟨_, rfl, (Json.read?_line (line.wellSpelled_report format _) fun spelling => ?_).2⟩
    unfold KeyLine.report Json.ofMembers
    exact nofun

/-- A blob that a load stored in an empty directory is filed under the key of the request. -/
theorem filed_of_load {compiler : Option Compiler}
    {compile : StateM Machine (Except String Bytes)} {request : Request} {blob : Blob HandleId}
    (hwf : m.fs.WellFormed) (hlegible : m.fs.Legible) (hlead : m.fs.Leads path location)
    (hempty : ∀ name, m.fs.tree.get? (location.child name) = none)
    (haloof : Cache.Aloof compile path location)
    (hload : (Cache.load host (cacheAt path budget) compiler compile request m).1 =
      .ok ⟨blob, .stored⟩) :
    let key := (cacheAt path budget).keyOf compiler request
    ∃ bytes, (compile (Cache.get host (cacheAt path budget) key m).2).1 = .ok bytes ∧
      blob = .owned bytes ∧ Filed key bytes path location
        (Cache.load host (cacheAt path budget) compiler compile request m).2 := by
  intro key
  obtain ⟨missed, compiled, bytes, size, hget, hcompiled, hblob, hset⟩ :=
    Cache.of_load_stored hload
  have hkey : Key.parse? key.text = some key :=
    Key.parse?_derive Sha1.sized_digest (size_pos_cacheAt path budget) _ _ _
  have hname : key.IsName := Key.isName_of_parse? hkey
  have hmissed : missed.fs = m.fs := by
    have hfree : (Cache.get host (cacheAt path budget) key m).2.fs = m.fs :=
      Cache.get_of_free hwf hlead rfl hname (hempty _)
    rwa [hget] at hfree
  -- the compiler leaves the directory empty
  obtain rfl : (compile missed).2 = compiled := by rw [hcompiled]
  have hwf' := haloof.wellFormed missed (hmissed ▸ hwf)
  have hlegible' := haloof.legible missed (hmissed ▸ hlegible)
  have hlead' := haloof.leads missed (hmissed ▸ hlead)
  have hempty' : ∀ name, (compile missed).2.fs.tree.get? (location.child name) = none := by
    intro name
    rw [haloof.same, hmissed, hempty]
  have hstate : (cacheAt path budget).state = .enabled path budget := rfl
  obtain ⟨hne, hfit, hstored, htree⟩ := Cache.stored_in_empty hstate Sha1.sized_digest
    (size_pos_cacheAt path budget) hwf' hlead' hname hempty' hset
  have hdoes : (compile missed).2.Does ⟨((compile missed).2.fs.next ≤ ·), True, False, False⟩
      (Cache.set host (cacheAt path budget) key bytes) _ :=
    Cache.set_does (Machine.host_keeps _) trivial rfl _ _ _
  have hchanges := (hdoes ⟨hwf', hlegible', fun _ hle => hle⟩).1
  rw [hset] at hchanges
  refine ⟨bytes, by rw [hget, hcompiled], hblob, ⟨(compile missed).2.fs.next, fun name => ?_⟩, ?_⟩
  · rw [htree, hempty']
    simp only [Location.child_inj, true_and]
    rfl
  · intro words globals env path' budget' output hread haims hpath houtput
    rw [run_eq hread]
    have hback : (compile missed).2.fs.Leads path' location := by
      refine haims.leads.mono hchanges.current_eq.symm fun place node hnode hfile => ?_
      rw [htree] at hnode
      split at hnode
      · exact absurd (Option.some.inj hnode).symm (hfile _)
      · exact hnode
    refine get_of_stored hstored hne (hchanges.wellFormed hwf') (hchanges.legible hlegible') haims
      hback hkey ?_ houtput
    rcases hpath with rfl | hfit'
    · exact hfit
    · exact hfit'

end keys

/-- The tool derives the key of the driver. Whatever a line says, in whatever order, is read as
that; what is then printed, by these or any other words for the same, is the key that an enabled
cache with the digest and the version of the driver derives for the compiler and the request of the
line. Where a load stores this request in an empty directory, the file that it makes has the printed
name, and the tool gets the compiled bytes with it. -/
theorem keys_agree {line : KeyLine} {format : Format} (hnames : line.Names format) :
    (∀ order, order.Perm KeyLine.arguments → line.input ≠ [] →
      read (line.words order) = .ok (.run ⟨false, false, none, none⟩
        (.key (line.options format) line.json))) ∧
    ∀ words globals json env m content path budget,
      read words = .ok (.run globals (.key (line.options format) json)) →
      m.fs.read line.input = .ok content →
      let cache := cacheAt path budget
      let request := line.request format content
      let key := cache.keyOf line.compiler request
      PrintsKey line format json key m (run desk env words m) ∧
        ∀ before location compile blob, before.fs.WellFormed → before.fs.Legible →
          before.fs.Leads path location →
          (∀ name, before.fs.tree.get? (location.child name) = none) →
          Cache.Aloof compile path location →
          (Cache.load host cache line.compiler compile request before).1 = .ok ⟨blob, .stored⟩ →
          ∃ bytes, (compile (Cache.get host cache key before).2).1 = .ok bytes ∧
            blob = .owned bytes ∧ Filed key bytes path location
              (Cache.load host cache line.compiler compile request before).2 := by
  refine ⟨fun order horder hinput => KeyLine.read_words hnames hinput horder, ?_⟩
  intro words globals json env m content path budget hread hcontent
  refine ⟨printsKey hread env hcontent path budget, ?_⟩
  intro before location compile blob hwf hlegible hlead hempty haloof hload
  exact filed_of_load hwf hlegible hlead hempty haloof hload

/-- The blob that was compiled and stored, if this is the result of a load that stored one. -/
def compiledAndStored? : Except LoadError (Loaded HandleId) → Option Bytes
  | .ok ⟨.owned bytes, .stored⟩ => some bytes
  | _ => none

/-- What is compiled and stored is an answer with the bytes in hand. -/
theorem eq_of_compiledAndStored? {result : Except LoadError (Loaded HandleId)} {bytes : Bytes}
    (h : compiledAndStored? result = some bytes) : result = .ok ⟨.owned bytes, .stored⟩ := by
  unfold compiledAndStored? at h
  split at h
  · cases h
    rfl
  · cases h

/-- The key of a file for profiling with a named compiler is printed, a load stores under it, and
the tool gets what was compiled. -/
theorem keys_agree_for_profiling :
    let session := Session.finish (.start [0x77])
      [.meddle (.makeDirectories [0x63]), .meddle (.write [0x62] [1, 2, 3] none)]
    let m := session.machine
    let env : Environment := ⟨[], .ok []⟩
    let line : KeyLine :=
      ⟨[0x62], some "0x2", some "-O2", false, true, some "vpu", some 7, none, false⟩
    let words := line.words [.profiling, .compilerVersion, .compilerId, .format, .buildFlags,
      .opsets, .json, .disableCaching]
    let request := line.request .intermediate [1, 2, 3]
    let cache := cacheAt [0x63] 100
    let key := cache.keyOf line.compiler request
    let after := (Cache.load host cache line.compiler (pure (.ok [7, 8])) request m).2
    let fetch := ["--dir=c", "get", key.text].map Utf8.encode
    (run desk env words m).1.output = Utf8.encode (key.text ++ "\n") ∧
      (run desk env fetch after).1.output = [7, 8] := by
  intro session m env line words request cache key after fetch
  let here := (Location.top.child [0x77]).child [0x63]
  have horderly : session.Orderly := Session.orderly_finish (.start _) _
  have hnames : line.Names .intermediate := by
    unfold KeyLine.Names
    decide +kernel
  have hagree := keys_agree hnames
  have hread := hagree.1 [.profiling, .compilerVersion, .compilerId, .format, .buildFlags,
      .opsets, .json, .disableCaching] (by decide) (by decide)
  have hlead : m.fs.Leads [0x63] here := by decide +kernel
  have hempty : ∀ name, m.fs.tree.get? (here.child name) = none := by
    have hnone : m.fs.children here = [] := by decide +kernel
    intro name
    rw [Option.eq_none_iff_forall_not_mem]
    intro node hget
    have hmem := FileSystem.mem_children.mpr hget
    rw [hnone] at hmem
    exact absurd hmem List.not_mem_nil
  obtain ⟨hprinted, hload⟩ := hagree.2 _ _ _ env m [1, 2, 3] [0x63] 100 hread (by decide +kernel)
  have hstored : (Cache.load host cache line.compiler (pure (.ok [7, 8])) request m).1 =
      .ok ⟨.owned [7, 8], .stored⟩ := eq_of_compiledAndStored? (by decide +kernel)
  obtain ⟨bytes, hbytes, -, hfiled⟩ := hload m here (pure (.ok [7, 8])) _ horderly.wellFormed
    horderly.legible hlead hempty ⟨fun _ h => h, fun _ h => h, fun _ h => h, fun _ _ => rfl⟩ hstored
  obtain rfl : [7, 8] = bytes := Except.ok.inj hbytes
  have hfetch : read fetch = .ok (.run ⟨false, false, some [0x63], none⟩ (.get key.text none)) :=
    read_of_asked? (by decide +kernel)
  have haims : Aims ⟨false, false, some [0x63], none⟩ env after.fs [0x63] defaultBudget here :=
    ⟨⟨⟨some [0x63], defaultBudget⟩, rfl, rfl, rfl⟩, by decide +kernel⟩
  exact ⟨hprinted.text rfl,
    (hfiled.fetched fetch _ env [0x63] _ none hfetch haims (Or.inl rfl) nofun).2⟩

end Cli

end BlobCache
