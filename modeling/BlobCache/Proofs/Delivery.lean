import BlobCache.Proofs.JsonTexts
import BlobCache.Proofs.Overwriting
import BlobCache.Proofs.RoundTrip

/-!
# Blobs in and out by the tool

`Cli.put` is `set` with the content of a file, and `Cli.get` is `get` with the blob written to a
file or to the output.

* `Cli.writeBlob_eq`: a blob of an entry is written in full, whatever the file held before.
* `Cli.get_of_hit`, `Cli.get_of_miss`, `Cli.put_of_content`: what each command does.
* `Cli.exchanges`: all of that for command lines, and that one command undoes the other.
-/

namespace BlobCache

namespace Cache

variable {m : Machine} {cache : Cache} {location : Location} {key : Key}

/-- What is found is the blob of an entry. It reads like that as long as the entry is open and keeps
its content. -/
theorem hit_cases (hsized : cache.digest.Sized) (hwf : m.fs.WellFormed)
    (hlead : ∀ path, cache.state.directory? = some path → m.fs.Leads path location)
    (hname : key.IsName) {blob : Blob HandleId}
    (hhit : (get Machine.host cache key m).1 = some blob) :
    ∃ id bytes, m.fs.tree.get? (location.child key.fileName) = some (.file id) ∧
      Holds cache.digest m.fs location key bytes ∧ blob = .mapped m.fs.next bytes.length ∧
      (get Machine.host cache key m).2.fs.contents id = m.fs.contents id ∧
      (get Machine.host cache key m).2.fs.tree = m.fs.tree ∧
      ∀ m' : Machine, m'.fs.handles = (get Machine.host cache key m).2.fs.handles →
        m'.fs.contents id = m.fs.contents id → blob.read Machine.host m' = (bytes, m') := by
  obtain ⟨place, id, bytes, hget, hcontent, hne, rfl, hafter⟩ :=
    get_some hsized hwf hlead (Or.inr hname) hhit
  have hfs : (get Machine.host cache key m).2.fs = m.fs.holding place id := by rw [hafter]; rfl
  refine ⟨id, bytes, hget, ⟨id, hget, hcontent, hne⟩, rfl, by rw [hfs]; rfl, by rw [hfs]; rfl,
    fun m' hhandles hsame => ?_⟩
  rw [read_holding bytes.length (hhandles.trans (by rw [hfs])) hsame, hcontent]
  simp [Entry.encode]

/-- Looking up takes away at most an entry: no other name, and no content. -/
theorem get_outside {path : Path} (hsized : cache.digest.Sized) (hwf : m.fs.WellFormed)
    (hdir : cache.state.directory? = some path) (hlead : m.fs.Leads path location)
    (hname : key.IsName) :
    (get Machine.host cache key m).2.fs.files = m.fs.files ∧
      (get Machine.host cache key m).2.fs.current = m.fs.current ∧
      (∀ place node, m.fs.tree.get? place = some node → (∀ id, node ≠ .file id) →
        (get Machine.host cache key m).2.fs.tree.get? place = some node) ∧
      ∀ place, place.parent ≠ location →
        (get Machine.host cache key m).2.fs.tree.get? place = m.fs.tree.get? place := by
  have hfinds := (get_exact hwf hdir (Key.not_isEmpty_of_isName hname) hsized).1
  have hleads : ∀ other, cache.state.directory? = some other → m.fs.Leads other location := by
    intro other hother
    rw [hdir] at hother
    exact Option.some.inj hother ▸ hlead
  have hcalm := get_calm hsized hwf hleads (Or.inr hname)
  -- what is taken away is a file of the directory
  have hgone : ∀ place, (get Machine.host cache key m).2.fs.tree.get? place ≠ m.fs.tree.get? place →
      (∃ id, m.fs.tree.get? place = some (.file id)) ∧ place.parent = location := by
    intro place hchanged
    obtain ⟨id, hreadable, -⟩ := (hfinds.removes_iff place).mp hchanged
    have hplace := FileSystem.get?_of_ownNodeAt hreadable.stands
    have hinside := (FileSystem.of_ownNodeAt_join hlead hname hreadable.stands).2
    refine ⟨⟨id, hplace⟩, ?_⟩
    by_contra hparent
    have hne : place ≠ location.child key.fileName := fun e =>
      hparent (by rw [e, Location.parent_child])
    have htwo := FileSystem.two_le_linkCount hne hplace hinside
    have hone := hreadable.single
    omega
  refine ⟨hfinds.files_eq, hcalm.files.current_eq, fun place node hget hfile => ?_,
    fun place hparent => ?_⟩
  · by_contra hne
    obtain ⟨⟨id, hid⟩, -⟩ := hgone place (by rwa [hget])
    exact hfile id (Option.some.inj (hget.symm.trans hid))
  · by_contra hne
    exact hparent (hgone place hne).2

/-- Where entries made way for a new one, other names than theirs and its own stay. -/
theorem storing_outside {fs : FileSystem} {gone : List Entry} {name : Bytes}
    (hgone : ∀ entry ∈ gone, entry ∈ fs.entriesIn location)
    (hfree : fs.tree.get? (location.child name) = none) (content : Bytes) :
    let fs' := (fs.without location gone).storing (location.child name) content
    (∀ place node, fs.tree.get? place = some node → (∀ id, node ≠ .file id) →
        fs'.tree.get? place = some node) ∧
      ∀ place, place.parent ≠ location → fs'.tree.get? place = fs.tree.get? place := by
  intro fs'
  have hget : ∀ place, fs'.tree.get? place = if place = location.child name then
      some (.file (fs.without location gone).next)
      else if place ∈ gone.map (FileSystem.placeOf location) then none
      else fs.tree.get? place := by
    intro place
    rw [FileSystem.get?_storing, FileSystem.get?_without]
  constructor
  · intro place node hplace hfile
    have hne : place ≠ location.child name := by
      rintro rfl
      rw [hfree] at hplace
      cases hplace
    rw [hget, if_neg hne, if_neg, hplace]
    intro hmem
    obtain ⟨entry, hentry, rfl⟩ := List.mem_map.mp hmem
    obtain ⟨id, hid, -⟩ := FileSystem.mem_entriesIn.mp (hgone entry hentry)
    rw [FileSystem.placeOf, hid] at hplace
    exact hfile id (Option.some.inj hplace).symm
  · intro place hparent
    have hne : place ≠ location.child name := fun e =>
      hparent (by rw [e, Location.parent_child])
    rw [hget, if_neg hne, if_neg]
    intro hmem
    obtain ⟨entry, -, rfl⟩ := List.mem_map.mp hmem
    exact hparent (Location.parent_child _ _)

end Cache

namespace Cli

open Machine (desk host)

/-! ## Outcomes in reports -/

/-- Different outcomes are printed differently. -/
theorem outcomeJson_inj {outcome other : SetOutcome} :
    outcomeJson outcome = outcomeJson other ↔ outcome = other := by
  have hcode : ∀ reason reason' : SkipReason, reason.code = reason'.code → reason = reason' := by
    intro reason reason'
    cases reason <;> cases reason' <;> decide
  constructor
  · intro h
    rcases outcome with size | reason | _ <;> rcases other with size' | reason' | _ <;>
      simp [outcomeJson, Json.ofMembers, Json.ofText] at h
    · rw [Json.ofNat_inj.mp h]
    · rw [hcode _ _ h]
    · rfl
  · rintro rfl
    rfl

/-- An outcome is read off the line that is printed for it. -/
theorem read?_outcome {outcome other : SetOutcome} :
    Json.read? ((outcomeJson outcome).compact ++ "\n") = some (outcomeJson other) ↔
      other = outcome := by
  have hspelled : Json.WellSpelled (outcomeJson outcome).tokens := by
    cases outcome with
    | stored size =>
        exact Json.wellSpelled_ofMembers (by
          simpa using Json.wellSpelled_ofMembers (by simpa using Json.wellSpelled_ofNat size))
    | skipped reason =>
        exact Json.wellSpelled_ofMembers (by simpa using Json.wellSpelled_ofText _)
    | failed => exact Json.wellSpelled_ofText _
  have hread := (Json.read?_line hspelled fun spelling => by cases outcome <;> nofun).1
  rw [hread, Option.some.injEq, outcomeJson_inj, eq_comm]

/-! ## Writing a blob -/

section delivering

variable {m : Machine} {path : Path} {location : Location} {name : Bytes} {id : FileId}
  {blob : Blob HandleId} {bytes : Bytes}

/-- A blob of an entry is written in full, whatever the file held before; closing the entry changes
nothing about that. -/
theorem writeBlob_eq (hwf : m.fs.WellFormed) (hlegible : m.fs.Legible)
    (h : m.fs.Deliverable location path)
    (hget : m.fs.tree.get? (location.child name) = some (.file id))
    (hread : ∀ m' : Machine, m'.fs.handles = m.fs.handles →
      m'.fs.contents id = m.fs.contents id → blob.read host m' = (bytes, m'))
    (hlength : blob.length = bytes.length) :
    ∃ written, writeBlob desk blob path m = (.ok (), m.withFiles written) ∧
      ∀ handle, (written.close handle).read path = .ok bytes := by
  obtain ⟨target, opened, htruncate, hne⟩ := h.truncate hwf hlegible hget
  obtain ⟨written, happend, hwritten⟩ :=
    FileSystem.read_append_truncate hlegible htruncate bytes
  have hemptied : desk.truncateFile path m = (.ok (), m.withFiles opened) := by
    simp only [desk, Machine.onFiles, htruncate]
    rfl
  have hblob : blob.read desk.host (m.withFiles opened) = (bytes, m.withFiles opened) :=
    hread _ (FileSystem.handles_truncate hlegible htruncate)
      ((FileSystem.contents_truncate hlegible htruncate).2.2 id hne)
  have happended : desk.appendFile path bytes (m.withFiles opened) =
      (.ok (), m.withFiles written) := by
    simp only [desk, Machine.onFiles, Machine.fs_withFiles, happend]
    rfl
  refine ⟨written, ?_, fun handle => hwritten _⟩
  unfold writeBlob
  simp only [Machine.run_bind, hemptied, hblob, hlength, Nat.lt_irrefl, if_false, happended]

/-- The bytes were printed, or they are the content of the file that was named for them. -/
def Delivered (output : Option Path) (bytes printed : Bytes) (fs : FileSystem) : Prop :=
  match output with
  | none => printed = bytes
  | some path => fs.read path = .ok bytes

/-- What is delivered to a file is what a read of it gives. -/
theorem delivered_some {out : Path} {printed : Bytes} {fs : FileSystem} :
    Delivered (some out) bytes printed fs ↔ fs.read out = .ok bytes := Iff.rfl

/-- A blob that is found is delivered whole, to the file or to the standard output. -/
theorem deliver_eq (hwf : m.fs.WellFormed) (hlegible : m.fs.Legible) {output : Option Path}
    (h : ∀ path, output = some path → m.fs.Deliverable location path)
    (hget : m.fs.tree.get? (location.child name) = some (.file id))
    (hread : ∀ m' : Machine, m'.fs.handles = m.fs.handles →
      m'.fs.contents id = m.fs.contents id → blob.read host m' = (bytes, m'))
    (hlength : blob.length = bytes.length) :
    (deliver desk blob output m).1.exit = 0 ∧
      ∀ handle, Delivered output bytes (deliver desk blob output m).1.output
        ((deliver desk blob output m).2.fs.close handle) := by
  rcases output with _ | path
  · have hblob := hread m rfl rfl
    have hhost : desk.host = host := rfl
    unfold deliver
    simp only [Machine.run_bind, hhost, hblob]
    exact ⟨rfl, fun _ => rfl⟩
  · obtain ⟨written, hwrite, hwritten⟩ := writeBlob_eq hwf hlegible (h path rfl) hget hread hlength
    unfold deliver
    simp only [Machine.run_bind, hwrite]
    exact ⟨rfl, hwritten⟩

end delivering

/-! ## The two commands -/

section commands

variable {m : Machine} {globals : Globals} {env : Environment} {path : Path} {budget : UInt64}
  {location : Location} {text : String} {key : Key} {output : Option Path}

/-- With a key that is one, `get` looks it up and delivers what is found. -/
theorem get_eq (haims : Aims globals env m.fs path budget location)
    (hkey : Key.parse? text = some key) (output : Option Path) :
    ∃ ready : Machine, ready.fs = m.fs ∧
      get desk globals env text output m =
        match Cache.get host (cacheAt path budget) key ready with
        | (none, after) =>
          (((Report.ofText "").withRemarks globals.quiet [s!"miss: {key.text}"]).withExit 1, after)
        | (some blob, after) =>
          ((deliver desk blob output after).1,
            (blob.release host (deliver desk blob output after).2).2) := by
  obtain ⟨ready, hfs, hopened⟩ := withCache_eq haims
  have hhost : desk.host = host := rfl
  refine ⟨ready, hfs, ?_⟩
  unfold get
  rw [hopened]
  unfold withKey
  simp only [hkey, Machine.run_bind, hhost]
  rcases Cache.get host (cacheAt path budget) key ready with ⟨_ | blob, after⟩ <;> rfl

/-- With a key that is one, `put` stores the content of the file. -/
theorem put_eq (haims : Aims globals env m.fs path budget location)
    (hkey : Key.parse? text = some key) {blob : Path} {content : Bytes}
    (hcontent : m.fs.read blob = .ok content) (json : Bool) :
    ∃ ready : Machine, ready.fs = m.fs ∧
      put desk globals env text blob json m =
        let outcome := (Cache.set host (cacheAt path budget) key content ready).1
        ((if json then Report.ofLine (outcomeJson outcome).compact
            else (Report.ofText "").withRemarks globals.quiet [outcomeRemark key outcome]).withExit
              (outcomeExit outcome),
          (Cache.set host (cacheAt path budget) key content ready).2) := by
  obtain ⟨ready, hfs, hopened⟩ := withCache_eq haims
  have hread : desk.contentOf blob ready = (.ok content, ready) := by
    show (ready.fs.read blob, ready) = _
    rw [hfs, hcontent]
  refine ⟨ready, hfs, ?_⟩
  unfold put
  rw [hopened]
  unfold withKey
  simp only [hkey, Machine.run_bind, hread]
  rfl

/-- What is refused as a key is refused before anything is touched. -/
theorem withKey_refused (hkey : Key.parse? text = none) (use : Key → StateM Machine Report) :
    withKey text use m = (.failure s!"invalid cache key '{text}'", m) := by
  unfold withKey
  rw [hkey]
  rfl

/-- A blob that the cache finds is delivered. -/
theorem get_of_hit (hwf : m.fs.WellFormed) (hlegible : m.fs.Legible)
    (haims : Aims globals env m.fs path budget location) (hkey : Key.parse? text = some key)
    (houtput : ∀ out, output = some out → m.fs.Deliverable location out) {blob : Blob HandleId}
    (hhit : (Cache.get host (cacheAt path budget) key m).1 = some blob) :
    ∃ bytes, (blob.read host (Cache.get host (cacheAt path budget) key m).2).1 = bytes ∧
      Cache.Holds Sha1.digest m.fs location key bytes ∧
      (get desk globals env text output m).1.exit = 0 ∧
      Delivered output bytes (get desk globals env text output m).1.output
        (get desk globals env text output m).2.fs := by
  have hname : key.IsName := Key.isName_of_parse? hkey
  have hlead := leads_cacheAt budget haims.leads
  obtain ⟨id, bytes, -, hholds, -, hsame, -, hread⟩ :=
    Cache.hit_cases (sized_cacheAt path budget) hwf hlead hname hhit
  refine ⟨bytes, congrArg Prod.fst (hread _ rfl hsame), hholds, ?_⟩
  -- the tool finds the same on the machine that opening the cache leaves
  obtain ⟨ready, hfs, htool⟩ := get_eq haims hkey output
  have hhit' := (Cache.heedless_get key (cacheAt path budget) ready m hfs).1.trans hhit
  obtain ⟨id', bytes', hget, hholds', hblob, hsame', htree, hread'⟩ :=
    Cache.hit_cases (sized_cacheAt path budget) (hfs ▸ hwf) (hfs ▸ hlead) hname hhit'
  rw [hfs] at hget hholds' hblob hsame' htree hread'
  obtain rfl := hholds.unique Sha1.sized_digest hholds'
  have hdoes : ready.Does ⟨(m.fs.next ≤ ·), True, False, False⟩
      (Cache.get host (cacheAt path budget) key) _ :=
    Cache.get_does (Machine.host_keeps _) trivial rfl _ _
  have hchanges := (hdoes ⟨hfs ▸ hwf, hfs ▸ hlegible, fun _ hle => hfs ▸ hle⟩).1
  rw [hfs] at hchanges
  generalize Cache.get host (cacheAt path budget) key ready = found at *
  obtain ⟨answer, after⟩ := found
  obtain rfl : answer = some blob := hhit'
  have houtput' : ∀ out, output = some out → after.fs.Deliverable location out :=
    fun out hout => (houtput out hout).after hwf hlegible hchanges (fun h => h)
      (fun _ _ hget _ => htree ▸ hget) fun _ _ => by rw [htree]
  obtain ⟨hexit, hdelivered⟩ := deliver_eq (hchanges.wellFormed hwf) (hchanges.legible hlegible)
    houtput' (htree ▸ hget) (fun m' hhandles hcontents =>
      hread' m' hhandles (hcontents.trans hsame')) (by rw [hblob]; rfl)
  rw [htool]
  exact ⟨hexit, hblob ▸ hdelivered m.fs.next⟩

/-- Where the cache finds nothing, `get` fails and does what the look-up does. -/
theorem get_of_miss (haims : Aims globals env m.fs path budget location)
    (hkey : Key.parse? text = some key) (output : Option Path)
    (hmiss : (Cache.get host (cacheAt path budget) key m).1 = none) :
    (get desk globals env text output m).1.exit = 1 ∧
      (get desk globals env text output m).2.fs =
        (Cache.get host (cacheAt path budget) key m).2.fs := by
  obtain ⟨ready, hfs, htool⟩ := get_eq haims hkey output
  obtain ⟨hanswer, hafter⟩ := Cache.heedless_get key (cacheAt path budget) ready m hfs
  rw [hmiss] at hanswer
  rw [htool]
  generalize Cache.get host (cacheAt path budget) key ready = found at *
  obtain ⟨answer, after⟩ := found
  obtain rfl : answer = none := hanswer
  exact ⟨rfl, hafter⟩

/-- `put` does to the files what `set` does, ends well if the blob was stored, and prints the
outcome if it is asked for it. -/
theorem put_of_content (haims : Aims globals env m.fs path budget location)
    (hkey : Key.parse? text = some key) {blob : Path} {content : Bytes}
    (hcontent : m.fs.read blob = .ok content) (json : Bool) :
    (put desk globals env text blob json m).2.fs =
        (Cache.set host (cacheAt path budget) key content m).2.fs ∧
      ((put desk globals env text blob json m).1.exit = 0 ↔
        ∃ size, (Cache.set host (cacheAt path budget) key content m).1 = .stored size) ∧
      (json = true → ∃ line, (put desk globals env text blob json m).1.output = Utf8.encode line ∧
        ∀ outcome, Json.read? line = some (outcomeJson outcome) ↔
          outcome = (Cache.set host (cacheAt path budget) key content m).1) := by
  obtain ⟨ready, hfs, htool⟩ := put_eq haims hkey hcontent json
  obtain ⟨hanswer, hafter⟩ := Cache.heedless_set key content (cacheAt path budget) ready m hfs
  rw [htool, ← hanswer]
  refine ⟨hafter, ?_, ?_⟩
  · show outcomeExit (Cache.set host (cacheAt path budget) key content ready).1 = 0 ↔ _
    rcases (Cache.set host (cacheAt path budget) key content ready).1 with size | reason | _ <;>
      simp [outcomeExit]
  · rintro rfl
    exact ⟨_, rfl, fun outcome => read?_outcome⟩

/-- What is no key is refused by both commands before they touch anything. -/
theorem refused_of_no_key (haims : Aims globals env m.fs path budget location)
    (hkey : Key.parse? text = none) (output : Option Path) (blob : Path) (json : Bool) :
    ((get desk globals env text output m).1.exit = 1 ∧
        (get desk globals env text output m).2.fs = m.fs) ∧
      (put desk globals env text blob json m).1.exit = 1 ∧
        (put desk globals env text blob json m).2.fs = m.fs := by
  obtain ⟨ready, hfs, hopened⟩ := withCache_eq haims
  unfold get put
  simp only [hopened, withKey_refused hkey]
  exact ⟨⟨rfl, hfs⟩, rfl, hfs⟩

/-- A blob that was stored, by whatever path, is delivered. -/
theorem get_of_stored {before : Machine} {path' : Path} {budget' : UInt64} {content : Bytes}
    (hstored : (cacheAt path' budget').Stored location key content before m) (hne : content ≠ [])
    (hwf : m.fs.WellFormed) (hlegible : m.fs.Legible)
    (haims : Aims globals env m.fs path budget location) (hlead : before.fs.Leads path location)
    (hkey : Key.parse? text = some key) (hfit : FileSystem.Fits path key.fileName)
    (houtput : ∀ out, output = some out → m.fs.Deliverable location out) :
    (get desk globals env text output m).1.exit = 0 ∧
      Delivered output content (get desk globals env text output m).1.output
        (get desk globals env text output m).2.fs := by
  obtain ⟨handle, hhit, -⟩ := hstored.read (cacheAt path budget) path rfl rfl hlead hfit
  obtain ⟨id, -, hget, hfile, -, -⟩ := hstored.file
  have hcontent : m.fs.contents id = Entry.encode Sha1.digest content := by
    unfold FileSystem.contents
    rw [hfile]
    rfl
  have hholds : Cache.Holds Sha1.digest m.fs location key content :=
    ⟨id, hget, hcontent, by simp [Entry.encode, hne]⟩
  obtain ⟨bytes, -, hbytes, hexit, hdelivered⟩ :=
    get_of_hit hwf hlegible haims hkey houtput hhit
  rw [hbytes.unique Sha1.sized_digest hholds] at hdelivered
  exact ⟨hexit, hdelivered⟩

/-- What `get` delivers once a blob was put under a free name. -/
theorem get_after_set (hwf : m.fs.WellFormed) (hlegible : m.fs.Legible)
    (haims : Aims globals env m.fs path budget location) (hkey : Key.parse? text = some key)
    {content : Bytes} (hne : content ≠ []) {gone : List Entry}
    (hgone : ∀ entry ∈ gone, entry ∈ m.fs.entriesIn location)
    (hfit : FileSystem.Fits path key.fileName)
    (hfree : m.fs.tree.get? (location.child key.fileName) = none) {after : Machine}
    (hafter : after.fs = (m.fs.without location gone).storing (location.child key.fileName)
      (Entry.encode Sha1.digest content))
    {free : Freedom} (hchanges : m.fs.Changes free after.fs) (hlinks : ¬free.links)
    (houtput : ∀ out, output = some out → m.fs.Deliverable location out) :
    (get desk globals env text output after).1.exit = 0 ∧
      Delivered output content (get desk globals env text output after).1.output
        (get desk globals env text output after).2.fs := by
  have hname : key.IsName := Key.isName_of_parse? hkey
  have hstored : (cacheAt path budget).Stored location key content m after :=
    Cache.stored_of_storing Sha1.sized_digest hwf hname hfit.2 hfree hne hgone hafter
  obtain ⟨htree, houtside⟩ :=
    Cache.storing_outside hgone hfree (Entry.encode Sha1.digest content)
  rw [← hafter] at htree houtside
  exact get_of_stored hstored hne (hchanges.wellFormed hwf) (hchanges.legible hlegible)
    ⟨haims.config, haims.leads.mono hchanges.current_eq htree⟩ haims.leads hkey hfit
    fun out hout => (houtput out hout).after hwf hlegible hchanges hlinks htree houtside

end commands

/-! ## Put and get -/

/-- The exit code of the tool. -/
def Ending.exit : Ending → UInt32
  | .misused _ => 2
  | .done report => report.exit

/-- What the tool printed to its output. -/
def Ending.output : Ending → Bytes
  | .misused _ => []
  | .done report => report.output

/-- The tool does what its command line is read as. -/
theorem run_eq {words : List Bytes} {globals : Globals} {command : Command}
    (h : read words = .ok (.run globals command)) (env : Environment) (m : Machine) :
    run desk env words m = (.done (runCommand desk globals env command m).1,
      (runCommand desk globals env command m).2) := by
  unfold run
  rw [h]
  rfl

/-- The command that words ask for, with what holds for it. -/
def asked? (words : List Bytes) : Option (Globals × Command) :=
  match read words with
  | .ok (.run globals command) => some (globals, command)
  | _ => none

/-- A command line that asks for something is read as that. -/
theorem read_of_asked? {words : List Bytes} {globals : Globals} {command : Command}
    (h : asked? words = some (globals, command)) : read words = .ok (.run globals command) := by
  unfold asked? at h
  split at h
  · rename_i hread
    rw [hread]
    cases h
    rfl
  · cases h

/-- `put` and `get` are `set` and `get` of the cache that the command lines aim at. -/
structure Exchanges (m : Machine) (globals : Globals) (env : Environment) (path : Path)
    (budget : UInt64) (location : Location) : Prop where
  /-- `put` does to the files what `set` does with the content of the file, ends well if and only if
  the blob was stored, and the value that it prints on demand is that of the outcome. -/
  put : ∀ words text key blob json content,
    read words = .ok (.run globals (.put text blob json)) → Key.parse? text = some key →
    m.fs.read blob = .ok content →
    (run desk env words m).2.fs = (Cache.set host (cacheAt path budget) key content m).2.fs ∧
      ((run desk env words m).1.exit = 0 ↔
        ∃ size, (Cache.set host (cacheAt path budget) key content m).1 = .stored size) ∧
      (json = true → ∃ line, (run desk env words m).1.output = Utf8.encode line ∧
        ∀ outcome, Json.read? line = some (outcomeJson outcome) ↔
          outcome = (Cache.set host (cacheAt path budget) key content m).1)
  /-- `get` ends well where the look-up hits. The blob is delivered as the cache reads it, without
  the checksum that follows it in the entry. -/
  get_hit : ∀ words text key output blob,
    read words = .ok (.run globals (.get text output)) → Key.parse? text = some key →
    (∀ out, output = some out → m.fs.Deliverable location out) →
    (Cache.get host (cacheAt path budget) key m).1 = some blob →
    ∃ bytes, (blob.read host (Cache.get host (cacheAt path budget) key m).2).1 = bytes ∧
      Cache.Holds Sha1.digest m.fs location key bytes ∧ (run desk env words m).1.exit = 0 ∧
      Delivered output bytes (run desk env words m).1.output (run desk env words m).2.fs
  /-- It fails where the look-up misses. Then no file has changed, and the output path names what
  it named. -/
  get_miss : ∀ words text key output, read words = .ok (.run globals (.get text output)) →
    Key.parse? text = some key → (Cache.get host (cacheAt path budget) key m).1 = none →
    (run desk env words m).1.exit = 1 ∧
      (run desk env words m).2.fs = (Cache.get host (cacheAt path budget) key m).2.fs ∧
      (run desk env words m).2.fs.files = m.fs.files ∧
      (∀ place, place.parent ≠ location →
        (run desk env words m).2.fs.tree.get? place = m.fs.tree.get? place) ∧
      ∀ out, output = some out → m.fs.Deliverable location out →
        (run desk env words m).2.fs.resolve out = m.fs.resolve out
  /-- With a text that is no key both fail and leave the files alone. -/
  refused : ∀ words text output blob json,
    read words = .ok (.run globals (.get text output)) ∨
      read words = .ok (.run globals (.put text blob json)) → Key.parse? text = none →
    (run desk env words m).1.exit = 1 ∧ (run desk env words m).2.fs = m.fs
  /-- A file that fits the budget can be put under a key that is free and fits the path, and any
  command line that aims at the directory gets it back. -/
  put_get : ∀ words text key blob json content,
    read words = .ok (.run globals (.put text blob json)) → Key.parse? text = some key →
    m.fs.read blob = .ok content → content ≠ [] → content.length ≤ budget.toNat →
    FileSystem.Fits path key.fileName →
    m.fs.tree.get? (location.child key.fileName) = none →
    (run desk env words m).1.exit = 0 ∧
      ∀ words' globals' env' path' budget' output,
        read words' = .ok (.run globals' (.get text output)) →
        Aims globals' env' m.fs path' budget' location → FileSystem.Fits path' key.fileName →
        (∀ out, output = some out → m.fs.Deliverable location out) →
        (run desk env' words' (run desk env words m).2).1.exit = 0 ∧
          Delivered output content (run desk env' words' (run desk env words m).2).1.output
            (run desk env' words' (run desk env words m).2).2.fs

/-- Command lines that aim at a directory exchange blobs as its cache does. -/
theorem exchanges {m : Machine} {globals : Globals} {env : Environment} {path : Path}
    {budget : UInt64} {location : Location} (hwf : m.fs.WellFormed) (hlegible : m.fs.Legible)
    (haims : Aims globals env m.fs path budget location) :
    Exchanges m globals env path budget location := by
  constructor
  case put =>
    intro words text key blob json content hread hkey hcontent
    rw [run_eq hread]
    exact put_of_content haims hkey hcontent json
  case get_hit =>
    intro words text key output blob hread hkey houtput hhit
    rw [run_eq hread]
    exact get_of_hit hwf hlegible haims hkey houtput hhit
  case get_miss =>
    intro words text key output hread hkey hmiss
    rw [run_eq hread]
    obtain ⟨hexit, hfs⟩ := get_of_miss haims hkey output hmiss
    obtain ⟨hfiles, hcurrent, htree, houtside⟩ := Cache.get_outside (sized_cacheAt path budget) hwf
      rfl haims.leads (Key.isName_of_parse? hkey)
    refine ⟨hexit, hfs, ?_⟩
    show (get desk globals env text output m).2.fs.files = _ ∧ _
    simp only [runCommand, hfs]
    exact ⟨hfiles, houtside, fun out _ hout => hout.resolve_eq hcurrent htree houtside⟩
  case refused =>
    intro words text output blob json hread hkey
    obtain ⟨hget, hput⟩ := refused_of_no_key haims hkey output blob json
    rcases hread with hread | hread <;> rw [run_eq hread]
    · exact hget
    · exact hput
  case put_get =>
    intro words text key blob json content hread hkey hcontent hne hbudget hfit hfree
    have hname : key.IsName := Key.isName_of_parse? hkey
    have hstate : (cacheAt path budget).state = .enabled path budget := rfl
    obtain ⟨gone, hgone, hstored, hfs⟩ := Cache.set_eq_storing hstate Sha1.sized_digest
      (size_pos_cacheAt path budget) hwf haims.leads hname hfit hfree hne hbudget
    obtain ⟨hafter, hexit, -⟩ := put_of_content haims hkey hcontent json
    have hdoes : m.Does ⟨(m.fs.next ≤ ·), True, False, False⟩
        (Cache.set host (cacheAt path budget) key content) _ :=
      Cache.set_does (Machine.host_keeps _) trivial rfl _ _ _
    have hchanges := (hdoes ⟨hwf, hlegible, fun _ hle => hle⟩).1
    rw [run_eq hread]
    refine ⟨hexit.mpr ⟨_, hstored⟩, ?_⟩
    intro words' globals' env' path' budget' output hread' haims' hfit' houtput
    rw [run_eq hread']
    exact get_after_set hwf hlegible haims' hkey hne hgone hfit' hfree (hafter.trans hfs)
      (hafter ▸ hchanges) (fun h => h) houtput

/-- A file is put into a cache that missed its key, and a longer file is replaced by it. -/
theorem exchanges_over_longer_file :
    let session := Session.finish (.start [0x77])
      [.meddle (.makeDirectories [0x63]), .meddle (.write [0x62] [1, 2, 3] none),
        .meddle (.write [0x6F] [9, 8, 7, 6, 5, 4] none)]
    let m := session.machine
    let env : Environment := ⟨[], .ok []⟩
    let put := ["--dir=c", "--max-size=100", "put", "--json", "--", "k", "b"].map Utf8.encode
    let get := ["--dir=c", "--max-size=100", "get", "--output=o", "--", "k"].map Utf8.encode
    let odd := ["--dir=c", "--max-size=100", "get", "--output=o", "--", "k/k"].map Utf8.encode
    (run desk env get m).1.exit = 1 ∧ (run desk env odd m).2.fs = m.fs ∧
      (run desk env put m).1.exit = 0 ∧
      (run desk env get (run desk env put m).2).1.exit = 0 ∧
      (run desk env get (run desk env put m).2).2.fs.read [0x6F] = .ok [1, 2, 3] := by
  intro session m env put get odd
  have horderly : session.Orderly := Session.orderly_finish (.start _) _
  let here := Location.top.child [0x77]
  have haims : Aims ⟨false, false, some [0x63], some 100⟩ env m.fs [0x63] 100
      (here.child [0x63]) := ⟨⟨⟨some [0x63], 100⟩, rfl, rfl, rfl⟩, by decide +kernel⟩
  have houtput : ∀ out, some [0x6F] = some out → m.fs.Deliverable (here.child [0x63]) out := by
    rintro out ⟨⟩
    have hspot : m.fs.resolve [0x6F] = .ok (.occupied (here.child [0x6F]) (.file 1)) := by
      decide +kernel
    exact .file hspot (by decide +kernel) (by decide +kernel) (by decide +kernel)
  have hexchanges := exchanges (m := m) horderly.wellFormed horderly.legible haims
  have hget : read get = .ok (.run ⟨false, false, some [0x63], some 100⟩
      (.get "k" (some [0x6F]))) := read_of_asked? (by decide +kernel)
  have hodd : read odd = .ok (.run ⟨false, false, some [0x63], some 100⟩
      (.get "k/k" (some [0x6F]))) := read_of_asked? (by decide +kernel)
  have hmiss := hexchanges.get_miss get "k" ⟨"k"⟩ _ hget (by decide +kernel) (by decide +kernel)
  have hrefused := hexchanges.refused odd "k/k" _ [] false (Or.inl hodd) (by decide +kernel)
  obtain ⟨hexit, hback⟩ := hexchanges.put_get put "k" ⟨"k"⟩ [0x62] true [1, 2, 3]
    (read_of_asked? (by decide +kernel)) (by decide +kernel) (by decide +kernel) (by simp)
    (by decide +kernel) (by decide +kernel) (by decide +kernel)
  obtain ⟨hexit', hread⟩ := hback get _ env [0x63] 100 _ hget haims (by decide +kernel) houtput
  exact ⟨hmiss.1, hrefused.2, hexit, hexit', delivered_some.mp hread⟩

/-- What could not be stored is not found. -/
theorem lost_of_failed {m : Machine} {globals : Globals} {env : Environment} {path : Path}
    {budget : UInt64} {location : Location} {text : String} {key : Key} {blob : Path}
    {content : Bytes} (hwf : m.fs.WellFormed) (haims : Aims globals env m.fs path budget location)
    (hkey : Key.parse? text = some key) (hcontent : m.fs.read blob = .ok content)
    (hfailed : (Cache.set host (cacheAt path budget) key content m).1 = .failed)
    (hlost : (Cache.get host (cacheAt path budget) key
      (Cache.set host (cacheAt path budget) key content m).2).1.isNone = true) (json : Bool) :
    (put desk globals env text blob json m).1.exit ≠ 0 ∧
      (get desk globals env text none (put desk globals env text blob json m).2).1.exit ≠ 0 := by
  obtain ⟨hafter, hexit, -⟩ := put_of_content haims hkey hcontent json
  have hlead : (put desk globals env text blob json m).2.fs.Leads path location := by
    rw [hafter]
    rcases Cache.set_spec hwf (leads_cacheAt budget haims.leads)
      (Or.inr (Key.isName_of_parse? hkey)) content with ⟨hcalm, -⟩ | ⟨_, -, hstored, -⟩
    · exact hcalm.leads haims.leads
    · exact absurd (hfailed.symm.trans hstored) nofun
  have hmiss := (Cache.heedless_get key (cacheAt path budget) _ _ hafter).1.trans
    (Option.isNone_iff_eq_none.mp hlost)
  constructor
  · rw [ne_eq, hexit, hfailed]
    exact fun ⟨size, h⟩ => nomatch h
  · rw [(get_of_miss ⟨haims.config, hlead⟩ hkey none hmiss).1]
    decide

/-- The key of 256 characters is read back from its text. -/
theorem parse?_longKey : Key.parse? Cache.longKey.text = some Cache.longKey := by
  have hempty : Cache.longKey.text.isEmpty = false := by decide +kernel
  have hdot : (Cache.longKey.text == ".") = false := by decide +kernel
  have hdotDot : (Cache.longKey.text == "..") = false := by decide +kernel
  have hchars : Cache.longKey.text.toList = List.replicate 256 'x' := String.toList_ofList
  have hallowed : Cache.longKey.text.toList.any Key.isForbidden = false := by
    rw [hchars, List.any_replicate]
    decide
  unfold Key.parse?
  rw [hempty, hdot, hdotDot, hallowed]
  rfl

/-- The entry of another cache is one file with one name outside the cache directory, but nobody may
write it, so a blob that is found is not delivered there. And a key of more than 255 bytes is one,
but no file can have its name, so nothing is stored under it. -/
theorem undelivered_and_unstored :
    let session := Session.finish (.start [0x77])
      [.openCache "c" (.config ⟨some [0x63], 100⟩) Sha1.digest none .none,
        .onCache "c" (.set (.text "k") [1, 2, 3]),
        .openCache "d" (.config ⟨some [0x64], 100⟩) Sha1.digest none .none,
        .onCache "d" (.set (.text "x") [4]), .meddle (.write [0x62] [1, 2, 3] none)]
    let m := session.machine
    let globals : Globals := ⟨false, false, some [0x63], some 100⟩
    let env : Environment := ⟨[], .ok []⟩
    let directory := (Location.top.child [0x77]).child [0x63]
    let place := ((Location.top.child [0x77]).child [0x64]).child [0x78]
    session.Orderly ∧ Aims globals env m.fs [0x63] 100 directory ∧
      (m.fs.resolve (Utf8.encode "d/x") = .ok (.occupied place (.file 2)) ∧
        place.parent ≠ directory ∧ m.fs.linkCount (.file 2) = 1 ∧
        Key.parse? "k" = some ⟨"k"⟩ ∧
        (Cache.get host (cacheAt [0x63] 100) ⟨"k"⟩ m).1.isSome = true ∧
        (get desk globals env "k" (some (Utf8.encode "d/x")) m).1.exit ≠ 0) ∧
      Key.parse? Cache.longKey.text = some Cache.longKey ∧ m.fs.read [0x62] = .ok [1, 2, 3] ∧
        m.fs.tree.get? (directory.child Cache.longKey.fileName) = none ∧
        (put desk globals env Cache.longKey.text [0x62] false m).1.exit ≠ 0 ∧
        (get desk globals env Cache.longKey.text none
          (put desk globals env Cache.longKey.text [0x62] false m).2).1.exit ≠ 0 := by
  intro session m globals env directory place
  have horderly : session.Orderly := Session.orderly_finish (.start _) _
  have haims : Aims globals env m.fs [0x63] 100 directory :=
    ⟨⟨⟨some [0x63], 100⟩, rfl, rfl, rfl⟩, by decide +kernel⟩
  have hcontent : m.fs.read [0x62] = .ok [1, 2, 3] := by decide +kernel
  have hfailed : (Cache.set host (cacheAt [0x63] 100) Cache.longKey [1, 2, 3] m).1 = .failed := by
    decide +kernel
  have hlost : (Cache.get host (cacheAt [0x63] 100) Cache.longKey
      (Cache.set host (cacheAt [0x63] 100) Cache.longKey [1, 2, 3] m).2).1.isNone = true := by
    decide +kernel
  refine ⟨horderly, haims, ⟨by decide +kernel, by decide +kernel, by decide +kernel,
    by decide +kernel, by decide +kernel, by decide +kernel⟩, parse?_longKey, hcontent,
    by decide +kernel, ?_⟩
  exact lost_of_failed (m := m) horderly.wellFormed haims parse?_longKey hcontent hfailed hlost
    false

end Cli

end BlobCache
