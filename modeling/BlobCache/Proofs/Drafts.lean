import BlobCache.Proofs.Checking
import BlobCache.Proofs.Keeping
import BlobCache.Proofs.Pinning

/-!
# Entries that are being written

Whoever creates an entry has it locked for himself until he closes it (`FileSystem.Drafts`). While
he writes, the content may be anything: nothing yet, too little to hold a checksum, by chance a
blob with its checksum. Nobody gets to see it. Every reader, every check and every eviction asks for
a lock before it looks at the content, and no lock is granted on a file that is locked exclusively.

* `Session.Drafted.step`: what is written through the open file is all that ever comes to the
  content, whatever anybody does.
* `Session.Untouchable`: what others find who look for the entry.
* `Session.draft_is_untouchable`: that is how it is as long as the entry has its name, and sharing
  the directory does not take the name away.
* `Session.draft_missed_by_long_path`: whose path has no room for the name, he is told that storing
  failed, not that the entry is there.
-/

namespace BlobCache

/-! ## Open files that are written -/

namespace FileSystem

/-- A new file is open for writing and has this content by now. Nobody else has it open, and its
permission bits let nobody write it. -/
structure Drafts (fs : FileSystem) (handle : HandleId) (id : FileId) (path : Path)
    (content : Bytes) : Prop where
  /-- It is open under an exclusive lock. -/
  opened : ∃ writes, fs.handles.get? handle =
    some ⟨id, path, true, content.length, none, .exclusive, writes⟩
  /-- It is not open otherwise. -/
  sole : ∀ other file, fs.handles.get? other = some file → file.file = id → other = handle
  /-- It is there. -/
  stored : (fs.files.get? id).isSome = true
  /-- It has this content. -/
  content_eq : fs.contents id = content
  /-- It may not be written by its path. -/
  mayWrite_eq : fs.mayWrite id = false

namespace Drafts

variable {fs fs' : FileSystem} {handle : HandleId} {id : FileId} {path : Path} {content : Bytes}
  {free : Freedom}

/-- A draft is locked exclusively. -/
theorem exclusive_mem (h : fs.Drafts handle id path content) : .exclusive ∈ fs.locksOn id := by
  obtain ⟨writes, hget⟩ := h.opened
  exact mem_locksOn.mpr ⟨handle, _, hget, rfl, rfl⟩

/-- The file of a draft was given out. -/
theorem lt_next (h : fs.Drafts handle id path content) (hwf : fs.WellFormed) : id < fs.next := by
  obtain ⟨writes, hget⟩ := h.opened
  exact hwf.open_lt handle _ hget

/-- No lock is granted on it. -/
theorem not_lockable (h : fs.Drafts handle id path content) (lock : Lock) :
    fs.lockable id lock ≠ true := by
  intro hlock
  cases lock with
  | shared =>
      have := lockable_shared_iff.mp hlock _ h.exclusive_mem
      cases this
  | exclusive =>
      have hmem := h.exclusive_mem
      rw [lockable_exclusive_iff.mp hlock] at hmem
      cases hmem

/-- A file that was just created. -/
theorem create (hwf : fs.WellFormed) (path : Path) (place : Location) :
    (fs.drafting path place [] 0).Drafts (fs.next + 1) fs.next path [] where
  opened := ⟨0, get?_drafting⟩
  sole other file hget hfile := by
    have hget : (fs.handles.set (fs.next + 1) (fs.writer path [] 0)).get? other = some file := hget
    rw [Table.get?_set] at hget
    split at hget
    · assumption
    · exact absurd (hwf.open_lt other file hget) (Nat.not_lt.mpr (Nat.le_of_eq hfile.symm))
  stored := by
    unfold drafting storing planting spent
    simp only [Table.get?_set_self, Option.isSome_some]
  content_eq := contents_storing_self fs place []
  mayWrite_eq := by
    have hmode : entryMode.testBit 7 = false := by decide
    unfold mayWrite drafting storing planting spent
    simp [hmode]

/-- Nobody else comes upon it. -/
theorem change (h : fs.Drafts handle id path content) (hwf : fs.WellFormed)
    (hnot : ¬free.handles handle) (hchange : Change free fs fs') :
    fs'.Drafts handle id path content where
  opened := by
    obtain ⟨writes, hget⟩ := h.opened
    exact ⟨writes, hchange.handles_kept hwf hnot hget⟩
  sole other file hget hfile := by
    rcases hchange.handle_origin hget with ⟨old, hold, hfile', -⟩ | ⟨hlock, -⟩ | ⟨hnew, -⟩
    · exact h.sole other old hold (hfile'.trans hfile)
    · exact absurd (hfile ▸ hlock) (h.not_lockable file.lock)
    · exact absurd (h.lt_next hwf) (Nat.not_lt.mpr (Nat.le_of_eq (hnew.symm.trans hfile)))
  stored := by
    obtain ⟨edit, -, hget⟩ := hchange.file_eq (h.lt_next hwf)
    rw [hget, Option.isSome_map, h.stored]
  content_eq := by
    refine (hchange.contents_eq (h.lt_next hwf) (fun _ => h.mayWrite_eq)
      fun other file hother hget hfile => ?_).trans h.content_eq
    exact absurd (h.sole other file hget hfile ▸ hother) hnot
  mayWrite_eq := (hchange.mayWrite_eq (h.lt_next hwf)).trans h.mayWrite_eq

/-- A draft stays one as long as its handle is not free. -/
theorem changes (h : fs.Drafts handle id path content) (hwf : fs.WellFormed)
    (hnot : ¬free.handles handle) (hchanges : fs.Changes free fs') :
    fs'.Drafts handle id path content := by
  induction hchanges with
  | refl => exact h
  | tail hchanges hchange ih => exact ih.change (Changes.wellFormed hchanges hwf) hnot hchange

/-! ### Using the open file -/

/-- It cannot be mapped. -/
theorem mapEntry_eq (h : fs.Drafts handle id path content) :
    fs.mapEntry handle = (.error (.mappingWriter path), fs) := by
  obtain ⟨writes, hget⟩ := h.opened
  unfold mapEntry
  rw [hget]
  rfl

/-- A draft is not mapped. -/
theorem mappedEntry_eq (h : fs.Drafts handle id path content) : fs.mappedEntry handle = none := by
  obtain ⟨writes, hget⟩ := h.opened
  unfold mappedEntry
  rw [hget]
  rfl

/-- Writing nothing is refused. -/
theorem writeEntry_nil (h : fs.Drafts handle id path content) :
    fs.writeEntry handle [] = (.error (.emptyWrite path), fs) := by
  obtain ⟨writes, hget⟩ := h.opened
  unfold writeEntry
  rw [hget]
  rfl

/-- What is written goes behind what is there. -/
theorem writeEntry (h : fs.Drafts handle id path content) {data : Bytes} (hne : data ≠ []) :
    (fs.writeEntry handle data).1 = .ok () ∧
      (fs.writeEntry handle data).2.Drafts handle id path (content ++ data) := by
  obtain ⟨writes, hget⟩ := h.opened
  have hempty : data.isEmpty = false := by simpa using hne
  let written := (fs.writeAt id content.length data).modifyHandle handle fun file =>
    { file with size := file.size + data.length, writes := file.writes + 1 }
  have hwrite : fs.writeEntry handle data = (.ok (), written) := by
    unfold FileSystem.writeEntry
    rw [hget]
    simp [hempty, written]
  have hhandles : ∀ other, written.handles.get? other = if other = handle then
      (fs.handles.get? other).map fun file =>
        { file with size := file.size + data.length, writes := file.writes + 1 }
      else fs.handles.get? other := fun other => Table.get?_modify _ _ _ _
  have hfiles : written.files.get? id = (fs.files.get? id).map fun file =>
      { file with bytes := splice file.bytes content.length data, accessed := fs.now } :=
    (Table.get?_modify _ _ _ _).trans (if_pos rfl)
  obtain ⟨file, hfile⟩ := Option.isSome_iff_exists.mp h.stored
  have hbytes : file.bytes = content := by
    have hcontent := h.content_eq
    unfold contents at hcontent
    rwa [hfile] at hcontent
  have hmode := h.mayWrite_eq
  rw [hwrite]
  refine ⟨rfl, ⟨writes + 1, ?_⟩, fun other found hother hfound => ?_, ?_, ?_, ?_⟩
  · rw [hhandles, if_pos rfl, hget, List.length_append]
    rfl
  · rw [hhandles] at hother
    split at hother
    · assumption
    · exact h.sole other found hother hfound
  · rw [hfiles, hfile]
    rfl
  · unfold contents
    rw [hfiles, hfile, ← hbytes, ← splice_append]
    rfl
  · unfold mayWrite at hmode ⊢
    rw [hfile] at hmode
    rw [hfiles, hfile]
    exact hmode

/-- Its name is there, but no lock on it is granted. -/
theorem refused (h : fs.Drafts handle id path content) {place : Path} {location : Location}
    {name : Bytes} (hlead : fs.Leads place location) (hname : Path.IsName name)
    (hbound : fs.tree.get? (location.child name) = some (.file id)) (lock : Lock) :
    ∃ error, fs.granted (Path.join place name) lock = .error error := by
  rcases hgranted : fs.granted (Path.join place name) lock with error | found
  · exact ⟨error, rfl⟩
  · obtain ⟨-, hget, -, hlock⟩ := (granted_eq_ok_iff hlead hname).mp hgranted
    obtain rfl : id = found := by
      have hsame := hbound.symm.trans hget
      cases hsame
      rfl
    exact absurd hlock (h.not_lockable lock)

end Drafts

end FileSystem

namespace Cache

variable {cache : Cache} {path : Path} {budget : UInt64} {location : Location} {m : Machine}
  {key : Key} {blob : Bytes} {id : FileId}

/-- An entry in use does not make room for a blob with its own key. Whoever cannot reach it does not
see that it is there, but cannot create another one either. -/
theorem set_of_secures (hstate : cache.state = .enabled path budget) (hwf : m.fs.WellFormed)
    (hlead : m.fs.Leads path location)
    (hsecures : m.Secures cache.digest location key.fileName id) (hne : blob ≠ [])
    (hlength : blob.length ≤ budget.toNat) :
    (set Machine.host cache key blob m).1 =
      if FileSystem.Fits path key.fileName then .skipped .alreadyCached else .failed := by
  have hname : key.IsName := (hwf.named _ _ _ hsecures.bound).1
  have hacts : m.Acts cache.digest location _ :=
    makeRoom_acts hwf hlead budget.toNat (blob.length + cache.digest.size)
  have hstill := (hsecures.secures_of_acts hwf hacts).bound
  rw [set_of_fits hstate hname hne hlength,
    addEntry_eq (hacts.wellFormed hwf) (hacts.leads hlead) hname hne]
  by_cases hfit : FileSystem.Fits path key.fileName
  · rw [if_pos hfit, FileSystem.under_eq_ok_iff.mpr ⟨hfit, hstill⟩]
  · rw [if_neg hfit, FileSystem.under, if_neg hfit]
    rfl

end Cache

namespace Session

variable {session after : Session} {location : Location} {name : String} {handle : HandleId}
  {id : FileId} {path : Path} {content : Bytes} {key : Key}

/-! ## Writing in a session -/

/-- What a command writes through the file that is open under a name. -/
def Command.writtenTo (name : String) : Command → Bytes
  | .onFile other (.write data) => if other = name then data else []
  | _ => []

/-- What an open file answers that is written. -/
def Answer.ofDraft (path : Path) (content : Bytes) : FileCommand → Answer
  | .size => .number content.length
  | .map => .storeFailed (.mappingWriter path)
  | .mapped => .nothing
  | .write data => if data = [] then .storeFailed (.emptyWrite path) else .done

/-- A command for an open file does what it asks of the file. -/
theorem step_onFile (h : session.files.get? name = some handle) (asked : FileCommand) :
    session.step (.onFile name asked) = session.begin.onMachine (onFile handle asked) := by
  have hbegin : session.begin.files.get? name = some handle := h
  unfold step carryOut
  simp only [hbegin]

/-- Through the open file one can write and see how much was written, and that is all. -/
theorem onFile_of_drafts {m : Machine} (h : m.fs.Drafts handle id path content) (name : String)
    (asked : FileCommand) :
    (onFile handle asked m).1 = .ofDraft path content asked ∧
      (onFile handle asked m).2.fs.Drafts handle id path
        (content ++ (Command.onFile name asked).writtenTo name) := by
  cases asked with
  | size =>
      obtain ⟨writes, hget⟩ := h.opened
      have hsize : (onFile handle .size m).1 =
          .number (((m.fs.handles.get? handle).map (·.size)).getD 0) := rfl
      refine ⟨?_, (List.append_nil content).symm ▸ h⟩
      rw [hsize, hget]
      rfl
  | map =>
      have hmap : Machine.host.map handle m =
          ((m.fs.mapEntry handle).1, m.withFiles (m.fs.mapEntry handle).2) := rfl
      unfold onFile
      simp only [Machine.run_bind, hmap, h.mapEntry_eq]
      exact ⟨rfl, (List.append_nil content).symm ▸ h⟩
  | mapped =>
      have hmapped : Machine.host.mapped handle m = (m.fs.mappedEntry handle, m) := rfl
      unfold onFile
      simp only [Machine.run_bind, hmapped, h.mappedEntry_eq]
      exact ⟨rfl, (List.append_nil content).symm ▸ h⟩
  | write data =>
      have hwrite : onFile handle (.write data) m =
          (answerOf (m.fs.writeEntry handle data).1,
            m.withFiles (m.fs.writeEntry handle data).2) := rfl
      rw [hwrite, Command.writtenTo, if_pos rfl, Answer.ofDraft]
      by_cases hne : data = []
      · rw [if_pos hne, hne, h.writeEntry_nil, List.append_nil]
        exact ⟨rfl, h⟩
      · obtain ⟨hok, hdrafts⟩ := h.writeEntry hne
        rw [if_neg hne, hok]
        exact ⟨rfl, hdrafts⟩

/-- The name of the file is taken, and no lock on it is granted. -/
theorem openFile_of_drafts {m : Machine} (h : m.fs.Drafts handle id path content) {place : Path}
    {entry : Bytes} (hlead : m.fs.Leads place location) (hname : Path.IsName entry)
    (hbound : m.fs.tree.get? (location.child entry) = some (.file id)) (mode : OpenMode) :
    ∃ error, openFile (Path.join place entry) mode m = (.error error, m) := by
  have hlocked : ∀ lock, ∃ error,
      m.fs.openEntry (Path.join place entry) lock = (.error error, m.fs) := by
    intro lock
    obtain ⟨error, hrefused⟩ := h.refused hlead hname hbound lock
    exact ⟨error, by rw [FileSystem.openEntry_eq, hrefused]⟩
  have hruns : ∀ (operation : FileSystem → Except StoreError HandleId × FileSystem) {error},
      operation m.fs = (.error error, m.fs) → Machine.onFiles operation m = (.error error, m) := by
    intro operation error hfails
    unfold Machine.onFiles
    rw [hfails]
  cases mode with
  | shared =>
      obtain ⟨error, hfails⟩ := hlocked .shared
      exact ⟨error, hruns (·.openEntry (Path.join place entry) .shared) hfails⟩
  | exclusive =>
      obtain ⟨error, hfails⟩ := hlocked .exclusive
      exact ⟨error, hruns (·.openEntry (Path.join place entry) .exclusive) hfails⟩
  | create =>
      have hcreate := FileSystem.createEntry_join hlead hname
      unfold FileSystem.under at hcreate
      by_cases hfit : FileSystem.Fits place entry
      · rw [if_pos hfit, hbound] at hcreate
        exact ⟨_, hruns (·.createEntry (Path.join place entry)) hcreate⟩
      · rw [if_neg hfit] at hcreate
        exact ⟨_, hruns (·.createEntry (Path.join place entry)) hcreate⟩

/-- A file that is open for writing under a name and in nobody else's hands. -/
structure Drafted (name : String) (handle : HandleId) (id : FileId) (path : Path) (content : Bytes)
    (session : Session) : Prop where
  /-- The session is in order. -/
  orderly : session.Orderly
  /-- The file is in no other hand. -/
  has : session.Has (.file name) handle
  /-- It is open for writing. -/
  drafts : session.machine.fs.Drafts handle id path content

namespace Drafted

/-- A draft stays one while time goes by. -/
theorem begin (h : session.Drafted name handle id path content) :
    session.begin.Drafted name handle id path content where
  orderly := h.orderly.begin
  has := ⟨h.has.inHand_eq, h.has.sole⟩
  drafts := ⟨h.drafts.opened, h.drafts.sole, h.drafts.stored, h.drafts.content_eq,
    h.drafts.mayWrite_eq⟩

/-- All that ever comes to the content is what is written through the open file. -/
theorem step {moment : Moment} (h : moment.before.Drafted name handle id path content)
    (hkept : moment.after.files.get? name = moment.before.files.get? name) :
    moment.after.Drafted name handle id path (content ++ moment.command.writtenTo name) := by
  have hstep := moment.keepsToFreedom h.orderly
  have hfile : moment.before.files.get? name = some handle := h.has.inHand_eq
  have hhand : moment.after.inHand (.file name) = some handle := hkept.trans hfile
  refine ⟨h.orderly.orderly_after hstep, h.has.has_after h.orderly hhand hstep, ?_⟩
  by_cases huses : moment.command.Uses name
  · obtain ⟨before, command⟩ := moment
    obtain ⟨asked, rfl⟩ : ∃ asked, command = .onFile name asked := huses
    have hbegin : before.begin.Drafted name handle id path content := h.begin
    show (before.step (.onFile name asked)).2.machine.fs.Drafts _ _ _ _
    rw [step_onFile hfile]
    exact (onFile_of_drafts hbegin.drafts name asked).2
  · have hnothing : moment.command.writtenTo name = [] := by
      unfold Command.writtenTo
      split
      · rename_i other data hcommand
        refine if_neg fun hsame => huses ⟨.write data, ?_⟩
        rw [hcommand, hsame]
      · rfl
    rw [hnothing, List.append_nil]
    refine h.drafts.changes h.orderly.wellFormed ?_ hstep.changes
    refine h.has.not_free h.orderly hhand fun other e => ?_
    cases e
    exact huses

/-- In a run that keeps the file open its content is what was written, in this order. -/
theorem run {session : Session} (h : session.Drafted name handle id path content)
    {commands : List Command}
    (hopen : ∀ moment ∈ Session.run session commands,
      moment.after.files.get? name = session.files.get? name) :
    (finish session commands).Drafted name handle id path
      (content ++ commands.flatMap (Command.writtenTo name)) := by
  induction commands generalizing session content with
  | nil => exact (List.append_nil content).symm ▸ h
  | cons command rest ih =>
      have hfirst : (Moment.after ⟨session, command⟩).files.get? name =
          session.files.get? name := hopen _ List.mem_cons_self
      have hnext : (Moment.after ⟨session, command⟩).Drafted name handle id path
          (content ++ command.writtenTo name) := step h hfirst
      have hthen := ih hnext fun moment hmem =>
        (hopen moment (List.mem_cons_of_mem _ hmem)).trans hfirst.symm
      rw [List.flatMap_cons, ← List.append_assoc]
      exact hthen

end Drafted

/-! ## Creating in a session -/

/-- A session in which a file is to be created stays as it is, or it has the new file in its
hands. -/
theorem step_create (session : Session) (name : String) (path : Path) :
    (∃ error, session.step (.openFile name path .create) = (.storeFailed error, session.begin)) ∨
      ∃ (directory : Location) (entry : Bytes) (size : Nat),
        Path.IsName entry ∧ entry.length ≤ FileSystem.nameLimit ∧
        path.length < FileSystem.pathLimit ∧
        session.step (.openFile name path .create) =
          (.opened size path, (session.begin.withMachine (session.begin.machine.withFiles
            (session.begin.machine.fs.drafting path (directory.child entry) [] 0))).putFile name
              (session.begin.machine.fs.next + 1)) := by
  have hcreate : openFile path .create session.begin.machine =
      ((session.begin.machine.fs.createEntry path).1,
        session.begin.machine.withFiles (session.begin.machine.fs.createEntry path).2) := rfl
  unfold step carryOut
  simp only [onMachine, hcreate]
  rcases FileSystem.createEntry_cases session.begin.machine.fs path with
    ⟨error, h⟩ | ⟨directory, entry, -, hname, hlength, h⟩ <;> simp only [h]
  · exact Or.inl ⟨error, rfl⟩
  · have hpath := FileSystem.length_lt_of_createEntry (congrArg Prod.fst h)
    exact Or.inr ⟨directory, entry, _, hname, hlength, hpath, rfl⟩

/-- A file that was created is open for writing and has nothing in it. -/
theorem Moment.drafted {moment : Moment} (h : moment.before.Orderly)
    (hcommand : moment.command = .openFile name path .create) {size : Nat} {shown : Path}
    (hanswer : moment.answer = .opened size shown) :
    path.length < FileSystem.pathLimit ∧
      ∃ handle id, moment.after.Drafted name handle id path [] := by
  have horderly := moment.orderly h
  obtain ⟨before, command⟩ := moment
  obtain rfl : command = .openFile name path .create := hcommand
  unfold Moment.answer at hanswer
  unfold Moment.after at horderly ⊢
  simp only at hanswer horderly ⊢
  rcases step_create before name path with
    ⟨error, hstep⟩ | ⟨directory, entry, _, hname, hlength, hpath, hstep⟩ <;>
      rw [hstep] at hanswer horderly ⊢
  · cases hanswer
  refine ⟨hpath, before.begin.machine.fs.next + 1, before.begin.machine.fs.next, horderly, ?_, ?_⟩
  · exact h.begin.has_of_new (Nat.le_succ _) (inHand_putFile _ _ _)
  · have hwf := h.begin.wellFormed
    -- what the name stood for before is closed
    let created := before.begin.withMachine (before.begin.machine.withFiles
      (before.begin.machine.fs.drafting path (directory.child entry) [] 0))
    have hclosed : created.machine.fs.Changes
        ⟨(· < before.begin.machine.fs.next), False, False, False⟩
        (created.closeFile name).machine.fs :=
      closeFile_changes created name fun old hold => h.begin.inHand_lt (.file name) old hold
    exact (FileSystem.Drafts.create hwf path _).changes (hwf.drafting hname hlength path [] 0)
      (Nat.not_lt.mpr (Nat.le_succ _)) hclosed

/-! ## What others find -/

/-- The file that is open under a name. -/
def fileOf (session : Session) (name : String) : Option FileId := do
  let handle ← session.files.get? name
  let file ← session.machine.fs.handles.get? handle
  return file.file

/-- An entry that is being written has this content by now, and this is what others find who look
for it. -/
structure Untouchable (location : Location) (key : Key) (name : String) (id : FileId) (path : Path)
    (content : Bytes) (session : Session) : Prop where
  /-- The entry stands under its name. -/
  keeps : session.machine.Keeps location key.fileName id content
  /-- Through the open file one sees how much was written, and it is never mapped. -/
  onFile : ∀ asked, (session.step (.onFile name asked)).1 = .ofDraft path content asked
  /-- Nobody can open it. -/
  openFile : ∀ other place mode, session.machine.fs.Leads place location →
    ∃ error, (session.step (.openFile other (Path.join place key.fileName) mode)).1 =
      .storeFailed error
  /-- Nobody can look it up. -/
  get : ∀ cacheName on source hold, session.caches.get? cacheName = some on →
    on.Shares location session.machine.fs → source.key? on.cache = some key →
    (session.step (.onCache cacheName (.get source hold))).1 = .miss
  /-- Nobody can store another blob under its key, and whoever can reach the entry is told that it
  is there. -/
  set : ∀ cacheName on place budget source blob, session.caches.get? cacheName = some on →
    on.Shares location session.machine.fs → on.cache.state = .enabled place budget →
    source.key? on.cache = some key → blob ≠ [] → blob.length ≤ budget.toNat →
    (session.step (.onCache cacheName (.set source blob))).1 =
      .outcome (if FileSystem.Fits place key.fileName then .skipped .alreadyCached else .failed)
  /-- A check lists it and skips it. -/
  verify : ∀ cacheName on place, session.caches.get? cacheName = some on →
    on.Shares location session.machine.fs → on.cache.state.directory? = some place →
    ∃ front entry back,
      Entry.inOrder (session.begin.machine.fs.entriesIn location) = front ++ entry :: back ∧
      entry.name = key.text ∧ (∀ other ∈ front ++ back, other.name ≠ key.text) ∧
      (session.step (.onCache cacheName .verify)).1 =
        let found := Cache.VerifyReport.ofVerdicts
          (session.begin.machine.fs.verdict on.cache.digest place) (front ++ back)
        .report { found with skipped := found.skipped + 1 }
  /-- Closing the file leaves the entry as it is. -/
  closed : (session.step (.closeFile name)).2.machine.Keeps location key.fileName id content

namespace Drafted

/-- The entry of a file that is being written is in use. -/
theorem inUse (h : session.Drafted name handle id path content) {entry : Bytes}
    (hbound : session.machine.fs.tree.get? (location.child entry) = some (.file id)) :
    session.machine.fs.InUse (fun _ => True) location entry id where
  bound := hbound
  locked := List.ne_nil_of_mem h.drafts.exclusive_mem
  intact := Or.inl h.drafts.exclusive_mem

section entry

variable (h : session.Drafted name handle id path content)
  (hbound : session.machine.fs.tree.get? (location.child key.fileName) = some (.file id))
include h hbound

/-- The key that a draft stands under can be the name of a file. -/
theorem isName : key.IsName := (h.orderly.wellFormed.named _ _ _ hbound).1

/-- Nobody can open it, and nobody can create it. -/
theorem openFile_eq {place : Path} (hlead : session.machine.fs.Leads place location)
    (other : String) (mode : OpenMode) :
    ∃ error, (session.step (.openFile other (Path.join place key.fileName) mode)).1 =
      .storeFailed error := by
  have hlead : session.begin.machine.fs.Leads place location :=
    hlead.mono rfl fun _ _ hget _ => hget
  obtain ⟨error, hopen⟩ :=
    openFile_of_drafts h.begin.drafts hlead (h.isName hbound) hbound mode
  refine ⟨error, ?_⟩
  unfold Session.step carryOut
  simp only [onMachine, hopen]

section caches

variable {cacheName : String} {on : OpenCache} (hon : session.caches.get? cacheName = some on)
  (hshares : on.Shares location session.machine.fs)
include hon hshares

/-- Nobody gets a draft. -/
theorem get_eq {source : KeySource} (hkey : source.key? on.cache = some key)
    (hold : Option String) : (session.step (.onCache cacheName (.get source hold))).1 = .miss := by
  have hwf := h.orderly.begin.wellFormed
  have hname : key.IsName := h.isName hbound
  have hmiss : (lookUp Machine.host on.cache key session.begin.machine).1 = none := by
    rw [lookUp_fst]
    rcases hdir : on.cache.state.directory? with _ | place
    · rw [Cache.get_of_disabled hdir]
    · have hlead := hshares.begin.leads place hdir
      obtain ⟨error, hrefused⟩ := h.begin.drafts.refused hlead hname hbound .shared
      have hgranted : session.begin.machine.fs.granted (Cache.entryPath place key) .shared =
        .error error := hrefused
      rw [Cache.get_eq hwf hlead hdir hname, hgranted]
  rw [step_onCache hon, onCache_get hshares.faults_eq _ hkey, hmiss]

/-- Nobody can store a blob in place of a draft; by a path that is too long the attempt fails. -/
theorem set_eq {place : Path} {budget : UInt64} {source : KeySource} {blob : Bytes}
    (hstate : on.cache.state = .enabled place budget) (hkey : source.key? on.cache = some key)
    (hne : blob ≠ []) (hlength : blob.length ≤ budget.toNat) :
    (session.step (.onCache cacheName (.set source blob))).1 =
      .outcome (if FileSystem.Fits place key.fileName then .skipped .alreadyCached
        else .failed) := by
  have hdir : on.cache.state.directory? = some place := by
    rw [hstate]
    rfl
  have hsecures : session.begin.machine.Secures on.cache.digest location key.fileName id :=
    (h.begin.inUse hbound).secures trivial fun _ _ _ _ hmem => by cases hmem
  rw [step_onCache hon, onCache_set hshares.faults_eq _ hkey,
    Cache.set_of_secures hstate h.orderly.begin.wellFormed (hshares.begin.leads place hdir) hsecures
      hne hlength]

/-- A check passes over a draft and reports all other entries. -/
theorem verify_eq {place : Path} (hdir : on.cache.state.directory? = some place) :
    ∃ front entry back,
      Entry.inOrder (session.begin.machine.fs.entriesIn location) = front ++ entry :: back ∧
      entry.name = key.text ∧ (∀ other ∈ front ++ back, other.name ≠ key.text) ∧
      (session.step (.onCache cacheName .verify)).1 =
        let found := Cache.VerifyReport.ofVerdicts
          (session.begin.machine.fs.verdict on.cache.digest place) (front ++ back)
        .report { found with skipped := found.skipped + 1 } := by
  have hlead := hshares.begin.leads place hdir
  obtain ⟨error, hrefused⟩ := h.begin.drafts.refused hlead (h.isName hbound) hbound .shared
  let entry := session.begin.machine.fs.entryUnder key.text id
  have hreading : session.begin.machine.fs.verdict on.cache.digest place entry = .error error := by
    have hgranted : session.begin.machine.fs.granted
        (Path.join place (Path.ofText entry.name)) .shared = .error error := hrefused
    unfold FileSystem.verdict FileSystem.reading
    rw [hgranted]
  have hverdict : Cache.isPassedOver
      (session.begin.machine.fs.verdict on.cache.digest place entry) = true := by
    rw [hreading, Cache.isPassedOver, FileSystem.not_isCorrupt_of_granted hrefused]
    rfl
  have hmem : entry ∈ Entry.inOrder (session.begin.machine.fs.entriesIn location) :=
    Entry.mem_inOrder.mpr (FileSystem.mem_entriesIn.mpr ⟨id, hbound, rfl⟩)
  obtain ⟨front, back, hsplit⟩ := List.append_of_mem hmem
  have hdistinct := Entry.pairwise_inOrder (session.begin.machine.fs.pairwise_entriesIn location)
  rw [hsplit, List.pairwise_middle Ne.symm, List.pairwise_cons] at hdistinct
  refine ⟨front, entry, back, hsplit, rfl, fun other hother => (hdistinct.1 other hother).symm, ?_⟩
  rw [step_onCache hon, onCache_verify hshares.faults_eq,
    Cache.verify_report h.orderly.begin.wellFormed hdir hlead, hsplit,
    Cache.VerifyReport.ofVerdicts_of_isPassedOver hverdict]

end caches

/-- What is being written is untouchable. -/
theorem untouchable : session.Untouchable location key name id path content where
  keeps := ⟨hbound, h.drafts.content_eq⟩
  onFile asked := by
    rw [step_onFile h.has.inHand_eq]
    exact (onFile_of_drafts h.begin.drafts name asked).1
  openFile other place mode hlead := h.openFile_eq hbound hlead other mode
  get cacheName on source hold hon hshares hkey := h.get_eq hbound hon hshares hkey hold
  set cacheName on place budget source blob hon hshares hstate hkey hne hlength :=
    h.set_eq hbound hon hshares hstate hkey hne hlength
  verify cacheName on place hon hshares hdir := h.verify_eq hbound hon hshares hdir
  closed := by
    have hfile : session.begin.files.get? name = some handle := h.has.inHand_eq
    have hclosed : (session.step (.closeFile name)).2 = session.begin.closeFile name := rfl
    rw [hclosed]
    unfold closeFile
    rw [hfile]
    exact ⟨hbound, h.drafts.content_eq⟩

end entry

end Drafted

/-- In any session that any commands lead to, an entry is created for writing. As long as it stays
open, whatever else anybody does, its content is what was written through the open file, in this
order, and nothing else.

From when the entry stands under its name on, and as long as caches share the directory, whatever
their digests are, and whoever else removes files or makes links leaves the entry alone, it stays
there, and it is untouchable. A path by which it was created has room for its name. -/
theorem draft_is_untouchable (directory : Bytes) (past : List Command) {opening : Moment}
    (hbefore : opening.before = finish (start directory) past)
    (hcommand : opening.command = .openFile name path .create) {size : Nat} {shown : Path}
    (hanswer : opening.answer = .opened size shown) (mid rest : List Command)
    (hopen : ∀ later ∈ run opening.after (mid ++ rest),
      later.after.files.get? name = opening.after.files.get? name)
    (hfile : (finish opening.after mid).fileOf name = some id)
    (hbound : (finish opening.after mid).machine.fs.tree.get? (location.child key.fileName) =
      some (.file id))
    (hsharing : ∀ later ∈ run (finish opening.after mid) rest,
      later.Sharing (fun _ => True) location key.fileName) :
    (finish opening.after (mid ++ rest)).Untouchable location key name id path
        ((mid ++ rest).flatMap (Command.writtenTo name)) ∧
      ∀ place, path = Path.join place key.fileName → FileSystem.Fits place key.fileName := by
  have horderly : opening.before.Orderly := hbefore ▸ orderly_finish (.start directory) past
  obtain ⟨hpath, handle, file, hdrafted⟩ := opening.drafted horderly hcommand hanswer
  have hsplit := run_append opening.after mid rest
  have hmid := hdrafted.run fun later hmem =>
    hopen later (hsplit ▸ List.mem_append_left _ hmem)
  obtain rfl : file = id := by
    obtain ⟨writes, hget⟩ := hmid.drafts.opened
    have hname : (finish opening.after mid).files.get? name = some handle := hmid.has.inHand_eq
    unfold fileOf at hfile
    rw [hname, Option.bind_eq_bind, Option.bind_some, hget] at hfile
    exact Option.some.inj hfile
  -- the entry is open and under its name after every step of the rest
  obtain ⟨⟨-, hstill⟩, -⟩ := invariant_of_run
    (fun session => (∃ content, session.Drafted name handle file path content) ∧
      session.machine.fs.tree.get? (location.child key.fileName) = some (.file file))
    ⟨⟨_, hmid⟩, hbound⟩ fun later hmem ⟨⟨content, h⟩, hbound⟩ => by
      have hkept : later.after.files.get? name = later.before.files.get? name :=
        (hopen later (hsplit ▸ List.mem_append_right _ hmem)).trans
          (hdrafted.has.inHand_eq.trans h.has.inHand_eq.symm)
      exact ⟨⟨_, h.step hkept⟩,
        (later.keeps_inUse h.orderly (hsharing later hmem) (h.inUse hbound)).1⟩
  refine ⟨(hdrafted.run hopen).untouchable (finish_append _ _ _ ▸ hstill), ?_⟩
  rintro place rfl
  exact ⟨hpath, (hmid.orderly.wellFormed.named _ _ _ hbound).2⟩

/-- While three bytes are written, a cache is cleared and checked. -/
theorem draft_survives_clear :
    let past : List Command :=
      [.openCache "a" (.config ⟨some Path.dot, 100⟩) .weightedSum none .none]
    let opening : Moment := ⟨finish (start [0x77]) past,
      .openFile "f" (Path.join Path.dot (Key.fileName ⟨"k"⟩)) .create⟩
    let mid : List Command := [.onFile "f" (.write [1])]
    let rest : List Command :=
      [.onCache "a" .clear, .onFile "f" (.write [2, 3]), .onCache "a" .verify]
    let session := finish opening.after (mid ++ rest)
    session.machine.Keeps (Location.top.child [0x77]) (Key.fileName ⟨"k"⟩) 0 [1, 2, 3] ∧
      (session.step (.onFile "f" .size)).1 = .number 3 ∧
      (session.step (.onCache "a" (.get (.text "k") none))).1 = .miss ∧
      (session.step (.onCache "a" (.set (.text "k") [9]))).1 =
        .outcome (.skipped .alreadyCached) := by
  intro past opening mid rest session
  let here := workingDirectory (start [0x77]).machine.fs
  have hpast : ∀ command ∈ past, command.Ordinary .weightedSum [Path.dot] here :=
    List.forall_mem_singleton.mpr (Command.ordinary_openCache List.mem_cons_self _ _ _ _)
  have hbefore : opening.before.Sound .weightedSum (Location.top.child [0x77]) [Path.dot] here :=
    ((sound_start .weightedSum [0x77]).run Digest.sized_weightedSum (by decide) hpast).1
  have horderly : opening.before.Orderly := orderly_finish (.start [0x77]) past
  have hinner : ∀ command ∈ mid ++ rest, command.IsInner := by
    simp [mid, rest, Command.IsInner, Command.IsForeign]
  obtain ⟨hshared, hsharing⟩ : session.Shared (Location.top.child [0x77]) ∧
      ∀ later ∈ run opening.after (mid ++ rest), ∀ name,
        later.Sharing (fun _ => True) (Location.top.child [0x77]) name :=
    (hbefore.shared.step horderly ⟨id, nofun⟩).run (opening.orderly horderly) hinner
  have hrest : ∀ later ∈ run (finish opening.after mid) rest,
      later.Sharing (fun _ => True) (Location.top.child [0x77]) (Key.fileName ⟨"k"⟩) := by
    intro later hmem
    have hsplit := run_append opening.after mid rest
    exact hsharing later (hsplit ▸ List.mem_append_right _ hmem) _
  obtain ⟨size, hanswer⟩ : ∃ size,
      opening.answer = .opened size (Path.join Path.dot (Key.fileName ⟨"k"⟩)) := by
    have hopened : opening.after.files.contains "f" = true := by decide +kernel
    rcases step_create opening.before "f" (Path.join Path.dot (Key.fileName ⟨"k"⟩)) with
      ⟨error, hstep⟩ | ⟨directory, entry, size, -, -, -, hstep⟩
    · have hafter : opening.after = opening.before.begin := congrArg Prod.snd hstep
      rw [hafter] at hopened
      exact absurd hopened (by decide +kernel)
    · exact ⟨size, congrArg Prod.fst hstep⟩
  have hbound : (finish opening.after mid).machine.fs.tree.get?
      ((Location.top.child [0x77]).child (Key.fileName ⟨"k"⟩)) = some (.file 0) := by
    decide +kernel
  obtain ⟨huntouchable, hfits⟩ := draft_is_untouchable [0x77] past rfl rfl hanswer mid rest
    (by decide +kernel) (by decide +kernel) hbound hrest
  obtain ⟨on, hon⟩ : ∃ on, session.caches.get? "a" = some on :=
    Option.isSome_iff_exists.mp (by decide +kernel)
  have hshares := hshared "a" on hon
  have hkey : Key.parse? "k" = some ⟨"k"⟩ := by decide +kernel
  have hstate : (session.caches.get? "a").map (·.cache.state) =
      some (.enabled Path.dot 100) := by decide +kernel
  rw [hon] at hstate
  have hset := huntouchable.set "a" on Path.dot 100 (.text "k") [9] hon hshares
    (Option.some.inj hstate) hkey (by decide) (by decide)
  rw [if_pos (hfits Path.dot rfl)] at hset
  exact ⟨huntouchable.keeps, huntouchable.onFile .size,
    huntouchable.get "a" on (.text "k") none hon hshares hkey, hset⟩

/-- That a cache is enabled in the directory is not enough: by a path that is as long as a path may
be it fails to store a blob under the key of an entry that is being written, and does not see that
this is there. -/
theorem draft_missed_by_long_path :
    ¬∀ (directory : Bytes) (past : List Command) (opening : Moment) (name : String) (path : Path)
        (id : FileId) (location : Location) (key : Key) (rest : List Command),
      opening.before = finish (start directory) past →
      opening.command = .openFile name path .create →
      (∃ size shown, opening.answer = .opened size shown) →
      (∀ later ∈ run opening.after rest,
        later.after.files.get? name = opening.after.files.get? name) →
      opening.after.fileOf name = some id →
      opening.after.machine.fs.tree.get? (location.child key.fileName) = some (.file id) →
      (∀ later ∈ run opening.after rest,
        later.Sharing (fun _ => True) location key.fileName) →
      ∀ cacheName on place budget source blob,
        (finish opening.after rest).caches.get? cacheName = some on →
        on.Shares location (finish opening.after rest).machine.fs →
        on.cache.state = .enabled place budget → source.key? on.cache = some key → blob ≠ [] →
        blob.length ≤ budget.toNat →
        ((finish opening.after rest).step (.onCache cacheName (.set source blob))).1 =
          .outcome (.skipped .alreadyCached) := by
  intro h
  let past : List Command :=
    [.openCache "b" (.config ⟨some Cache.longPath, 100⟩) .weightedSum none .none]
  let opening : Moment := ⟨finish (start [0x77]) past,
    .openFile "f" (Path.join Path.dot (Key.fileName ⟨"k"⟩)) .create⟩
  let paths := [Path.dot, Cache.longPath]
  let here := workingDirectory (start [0x77]).machine.fs
  have hstart := sound_start_by_long_path .weightedSum
  have hpast : ∀ command ∈ past, command.Ordinary .weightedSum paths here :=
    List.forall_mem_singleton.mpr (Command.ordinary_openCache (by simp [paths]) _ _ _ _)
  have hbefore : opening.before.Sound .weightedSum (Location.top.child [0x77]) paths here :=
    (hstart.run Digest.sized_weightedSum (by decide) hpast).1
  have hshared : opening.after.Shared (Location.top.child [0x77]) :=
    hbefore.shared.step (orderly_finish (.start [0x77]) past) ⟨id, nofun⟩
  -- one evaluation of the session for all that has to be known of it
  obtain ⟨hopened, hbudget, hfile, hbound⟩ :
      (opening.before.files.contains "f" = false ∧ opening.after.files.contains "f" = true) ∧
        (opening.after.caches.get? "b").map (·.cache.state.budget) = some 100 ∧
        opening.after.fileOf "f" = some 0 ∧
        opening.after.machine.fs.tree.get?
            ((Location.top.child [0x77]).child (Key.fileName ⟨"k"⟩)) = some (.file 0) := by
    decide +kernel
  obtain ⟨size, hanswer⟩ : ∃ size,
      opening.answer = .opened size (Path.join Path.dot (Key.fileName ⟨"k"⟩)) := by
    rcases step_create opening.before "f" (Path.join Path.dot (Key.fileName ⟨"k"⟩)) with
      ⟨error, hstep⟩ | ⟨directory, entry, size, -, -, -, hstep⟩
    · have hafter : opening.after = opening.before.begin := congrArg Prod.snd hstep
      rw [hafter] at hopened
      exact Bool.noConfusion (hopened.1.symm.trans hopened.2)
    · exact ⟨size, congrArg Prod.fst hstep⟩
  obtain ⟨on, hon, hbudget⟩ := Option.map_eq_some_iff.mp hbudget
  rcases hstate : on.cache.state with _ | ⟨place, budget⟩ <;> rw [hstate] at hbudget
  · cases hbudget
  obtain rfl : budget = 100 := hbudget
  have hset := h [0x77] past opening "f" _ 0 (Location.top.child [0x77]) ⟨"k"⟩ [] rfl rfl
    ⟨size, _, hanswer⟩ (fun _ hmem => nomatch hmem) hfile hbound (fun _ hmem => nomatch hmem)
    "b" on place 100 (.text "k") [1] hon (hshared "b" on hon) hstate
    (show Key.parse? "k" = some ⟨"k"⟩ by decide +kernel) (by decide) (by decide)
  have hfailed := congrArg (fun answer => match answer with
    | .outcome outcome => decide (outcome = SetOutcome.failed)
    | _ => false) hset
  revert hfailed
  decide +kernel

end Session

end BlobCache
