import BlobCache.Proofs.Programs
import BlobCache.Proofs.Runs

/-!
# Reachable sessions

What is true of every session that any commands lead to from an empty working directory, and what a
command can do to it.

* `Session.freedom` is the freedom that a command takes: beside the files that it opens itself, it
  uses and closes those only that the session gives up in this step, and the one that the command
  names. `Session.KeepsToFreedom` says that a step keeps to it, and that what the session holds
  afterwards was held before or is new.
* `Session.Settles` says what a command does to hands and locks: nothing, or it empties one hand, or
  it takes a newly opened file into one hand, in place of what was there.

`carryOut_performs` proves both at once, command by command. `Moment.performs` is the step and
`orderly_finish` the run: in every reachable session (`Session.Orderly`) the file system is well
formed, no link has a zero byte in it, whoever may write a file has locked it for himself, and every
open file in the session's hands was given out before.
-/

namespace BlobCache.Session

open Machine (Does Leaves Opened Opens Own Finds Loads Uses)

/-! ## What a command may do -/

/-- Commands that may take names away. -/
def Command.Removes : Command → Prop
  | .meddle _ | .onCache .. | .storeRemove _ | .tool .. => True
  | _ => False

/-- The command uses the file that is open under this name. -/
def Command.Uses (command : Command) (name : String) : Prop := ∃ asked, command = .onFile name asked

/-- Where a session can have an open file. -/
inductive Hand where
  /-- In the blob that it holds under this name. -/
  | blob (name : String)
  /-- Under this name, as a file of the store. -/
  | file (name : String)
  deriving DecidableEq

/-- The open file that a session has there. -/
def inHand (session : Session) : Hand → Option HandleId
  | .blob name => (session.held.get? name).bind Blob.file?
  | .file name => session.files.get? name

/-- The session has given up an open file. -/
def ReleasesHandle (session after : Session) (handle : HandleId) : Prop :=
  ∃ hand, session.inHand hand = some handle ∧ after.inHand hand ≠ some handle

/-- What a command that leads from one session to another may do to the files. -/
def freedom (session after : Session) (command : Command) : Freedom where
  handles handle := session.machine.fs.next ≤ handle ∨ session.ReleasesHandle after handle ∨
    ∃ name, command.Uses name ∧ session.files.get? name = some handle
  names := command.Removes
  links := ∃ change, command = .meddle change
  contents := ∃ words bindings, command = .tool words bindings

/-- A session in order: what it has in its hands was given out before. -/
structure Orderly (session : Session) : Prop where
  /-- The file system is well formed. -/
  wellFormed : session.machine.fs.WellFormed
  /-- No symbolic link has a zero byte in it. -/
  legible : session.machine.fs.Legible
  /-- Who may write a file has locked it for himself. -/
  guarded : session.machine.fs.Guarded
  /-- The files in its hands are open under identities that were given out. -/
  inHand_lt : ∀ hand handle, session.inHand hand = some handle → handle < session.machine.fs.next

/-- What a command does: it changes the files as it may, and what the session has in its hands
afterwards it had before, or it was opened on the way. -/
structure KeepsToFreedom (session after : Session) (command : Command) : Prop where
  /-- The files change as the command may change them. -/
  changes : session.machine.fs.Changes (session.freedom after command) after.machine.fs
  /-- What is in a hand was there before, or it is new. -/
  inHand : ∀ hand handle, after.inHand hand = some handle →
    session.inHand hand = some handle ∨
      session.machine.fs.next ≤ handle ∧ handle < after.machine.fs.next

/-- The command takes a file that it opens into this hand, under this lock. -/
def Command.Takes : Command → Hand → Lock → Prop
  | .onCache _ (.get _ (some name)), hand, lock
  | .onCache _ (.load _ _ _ (some name)), hand, lock => hand = .blob name ∧ lock = .shared
  | .openFile name _ mode, hand, lock => hand = .file name ∧ lock = mode.lock
  | _, _, _ => False

/-- The command empties this hand, if anything is in it. -/
def Command.Empties : Command → Hand → Prop
  | .onCache _ (.load _ _ _ (some name)), hand | .releaseBlob name, hand => hand = .blob name
  | .closeFile name, hand => hand = .file name
  | _, _ => False

/-- What a command that leads from one session to another does to hands and locks. -/
inductive Settles (session after : Session) (command : Command) : Prop where
  /-- Nothing. -/
  | keeps (hhands : ∀ hand, after.inHand hand = session.inHand hand)
    (hlocks : ∀ handle, after.machine.fs.lockOf handle = session.machine.fs.lockOf handle)
  /-- One hand is emptied, and the file that was in it is closed. -/
  | drops (hand : Hand) (hcommand : command.Empties hand)
    (hhands : ∀ other, after.inHand other = if other = hand then none else session.inHand other)
    (hlocks : ∀ handle, after.machine.fs.lockOf handle =
      if session.inHand hand = some handle then none else session.machine.fs.lockOf handle)
  /-- A file is opened and taken into one hand, and the file that was in it is closed. -/
  | takes (hand : Hand) (handle : HandleId) (id : FileId) (lock : Lock)
    (hcommand : command.Takes hand lock) (hnew : session.machine.fs.lockOf handle = none)
    (hhands : ∀ other, after.inHand other =
      if other = hand then some handle else session.inHand other)
    (hlocks : ∀ other, after.machine.fs.lockOf other =
      if other = handle then some (id, lock)
      else if session.inHand hand = some other then none else session.machine.fs.lockOf other)

/-- All that is said of what a command does. -/
structure Performs (session after : Session) (command : Command) : Prop
    extends KeepsToFreedom session after command where
  /-- What becomes of hands and locks. -/
  settles : session.Settles after command

namespace Orderly

variable {session after : Session} {command : Command}

/-- A session in order is ready for what its commands may do. -/
theorem ready (h : session.Orderly) (after : Session) (command : Command) :
    session.machine.fs.Ready (session.freedom after command) :=
  ⟨h.wellFormed, h.legible, fun _ => Or.inl⟩

/-- A command leaves a session in order that was in order. -/
theorem orderly_after (h : session.Orderly) (hstep : session.KeepsToFreedom after command) :
    after.Orderly where
  wellFormed := hstep.changes.wellFormed h.wellFormed
  legible := hstep.changes.legible h.legible
  guarded := hstep.changes.guarded h.guarded
  inHand_lt hand handle hget := by
    rcases hstep.inHand hand handle hget with hold | ⟨-, hlt⟩
    · exact Nat.lt_of_lt_of_le (h.inHand_lt hand handle hold) hstep.changes.next_le
    · exact hlt

/-- A new session is in order. -/
theorem start (directory : Bytes) : (start directory).Orderly where
  wellFormed := FileSystem.wellFormed_initial directory
  legible place id target hget := by
    have hget : (Table.empty.set (Location.top.child directory) Node.directory).get? place =
      some (.link id target) := hget
    rw [Table.get?_set] at hget
    split at hget
    · cases hget
    · cases hget
  guarded _ _ hget := by cases hget
  inHand_lt hand _ hget := by cases hand <;> cases hget

/-- A session stays in order while time goes by. -/
theorem begin (h : session.Orderly) : session.begin.Orderly where
  wellFormed := (FileSystem.Calm.setClock .top session.machine.fs _).wellFormed h.wellFormed
  legible := h.legible
  guarded := h.guarded
  inHand_lt := h.inHand_lt

end Orderly

/-! ## Files that nobody else has -/

variable {session middle after : Session} {command : Command} {hand : Hand} {handle : HandleId}

/-- The session has an open file in this hand and in no other. -/
structure Has (session : Session) (hand : Hand) (handle : HandleId) : Prop where
  /-- It is in this hand. -/
  inHand_eq : session.inHand hand = some handle
  /-- It is in no other. -/
  sole : ∀ other, session.inHand other = some handle → other = hand

/-- A handle that is new has been in no hand before. -/
theorem Orderly.has_of_new (h : session.Orderly) (hle : session.machine.fs.next ≤ handle)
    (hafter : ∀ other, after.inHand other =
      if other = hand then some handle else session.inHand other) : after.Has hand handle where
  inHand_eq := (hafter hand).trans (if_pos rfl)
  sole other hother := by
    by_contra hne
    rw [hafter, if_neg hne] at hother
    exact absurd (h.inHand_lt other handle hother) (Nat.not_lt.mpr hle)

namespace Has

variable (h : session.Has hand handle) (horderly : session.Orderly)
  (hkept : after.inHand hand = some handle)
include h horderly hkept

/-- What a session has in one hand it has in that hand only, after every command that leaves it
there. -/
theorem has_after (hstep : session.KeepsToFreedom after command) : after.Has hand handle := by
  refine ⟨hkept, fun other hother => ?_⟩
  rcases hstep.inHand other handle hother with hold | ⟨hle, -⟩
  · exact h.sole other hold
  · exact absurd (horderly.inHand_lt hand handle h.inHand_eq) (Nat.not_lt.mpr hle)

/-- A command that does not name the file cannot use it, as long as the session keeps it. -/
theorem not_free (hnot : ∀ name, hand = .file name → ¬command.Uses name) :
    ¬(session.freedom after command).handles handle := by
  rintro (hle | ⟨other, hother, hgone⟩ | ⟨name, huses, hfile⟩)
  · exact absurd (horderly.inHand_lt hand handle h.inHand_eq) (Nat.not_lt.mpr hle)
  · rw [h.sole other hother] at hgone
    exact hgone hkept
  · exact hnot name (h.sole (.file name) hfile).symm huses

end Has

/-! ## Programs in a session -/

/-- What is in a hand depends on the blobs and the files of the session. -/
theorem inHand_congr (hheld : after.held = session.held) (hfiles : after.files = session.files)
    (hand : Hand) : after.inHand hand = session.inHand hand := by
  cases hand with
  | blob name => rw [inHand, inHand, hheld]
  | file name => rw [inHand, inHand, hfiles]

/-- Another machine leaves everything in its hand. -/
theorem inHand_withMachine (session : Session) (m : Machine) :
    ∀ hand, (session.withMachine m).inHand hand = session.inHand hand := inHand_congr rfl rfl

/-- The freedom of one who uses no open files but his own, and who may take names away if the
command may. -/
def ownFreedom (session : Session) (command : Command) : Freedom where
  handles handle := session.machine.fs.next ≤ handle
  names := command.Removes
  links := False
  contents := False

/-- A session in order is ready for programs that use their own files. -/
theorem ready_ownFreedom (h : session.Orderly) (command : Command) :
    session.machine.fs.Ready (session.ownFreedom command) := ⟨h.wellFormed, h.legible, fun _ => id⟩

/-- What such a program does a command may do. -/
theorem changes_of_ownFreedom {fs : FileSystem}
    (h : session.machine.fs.Changes (session.ownFreedom command) fs) :
    session.machine.fs.Changes (session.freedom after command) fs :=
  h.mono (fun _ => Or.inl) id False.elim False.elim

/-! ## Holding and closing -/

/-- A mapped blob has its file in the hand of the blob. -/
theorem inHand_of_mapped {name : String} {handle : HandleId} {length : Nat}
    (h : session.held.get? name = some (.mapped handle length)) :
    session.inHand (.blob name) = some handle := by
  rw [inHand, h]
  rfl

/-- To release a blob empties its hand. -/
theorem inHand_release (session : Session) (name : String) (hand : Hand) :
    (session.release name).inHand hand =
      if hand = .blob name then none else session.inHand hand := by
  unfold release
  rcases hget : session.held.get? name with _ | blob
  · by_cases h : hand = .blob name
    · rw [if_pos h, h, inHand, hget]
      rfl
    · rw [if_neg h]
  · cases hand with
    | file other => exact (if_neg (by simp)).symm
    | blob other =>
        show ((session.held.erase name).get? other).bind Blob.file? = _
        rw [Table.get?_erase]
        by_cases h : other = name
        · rw [if_pos h, if_pos (congrArg Hand.blob h)]
          rfl
        · rw [if_neg h, if_neg (fun e => h (Hand.blob.inj e))]
          rfl

/-- To release a blob takes off its lock. -/
theorem lockOf_release (session : Session) (name : String) (handle : HandleId) :
    (session.release name).machine.fs.lockOf handle =
      if session.inHand (.blob name) = some handle then none
      else session.machine.fs.lockOf handle := by
  have hnothing : session.inHand (.blob name) = none → session.machine.fs.lockOf handle =
      if session.inHand (.blob name) = some handle then none
      else session.machine.fs.lockOf handle := fun h => by simp [h]
  unfold release
  rcases hget : session.held.get? name with _ | bytes | ⟨held, length⟩
  · exact hnothing (by rw [inHand, hget]; rfl)
  · exact hnothing (by rw [inHand, hget]; rfl)
  · have hclosed := FileSystem.lockOf_close session.machine.fs held handle
    simp only [inHand_of_mapped hget, Option.some.injEq]
    exact hclosed

/-- To keep a blob puts its file into its hand. -/
theorem inHand_keep (session : Session) (blob : Blob HandleId) (name : String) (hand : Hand) :
    (session.keep blob (some name)).inHand hand =
      if hand = .blob name then blob.file? else session.inHand hand := by
  have hreleased := inHand_release session name hand
  cases hand with
  | file other => exact hreleased.trans ((if_neg (by simp)).trans (if_neg (by simp)).symm)
  | blob other =>
      show (((session.release name).held.set name blob).get? other).bind Blob.file? = _
      rw [Table.get?_set]
      by_cases h : other = name
      · rw [if_pos h, if_pos (congrArg Hand.blob h)]
        rfl
      · have hne : Hand.blob other ≠ .blob name := fun e => h (Hand.blob.inj e)
        rw [if_neg h, if_neg hne]
        exact hreleased.trans (if_neg hne)

/-- To close a file empties its hand. -/
theorem inHand_closeFile (session : Session) (name : String) (hand : Hand) :
    (session.closeFile name).inHand hand =
      if hand = .file name then none else session.inHand hand := by
  unfold closeFile
  rcases hget : session.files.get? name with _ | handle
  · by_cases h : hand = .file name
    · rw [if_pos h, h, inHand, hget]
    · rw [if_neg h]
  · cases hand with
    | blob other => exact (if_neg (by simp)).symm
    | file other =>
        show (session.files.erase name).get? other = _
        rw [Table.get?_erase]
        by_cases h : other = name
        · rw [if_pos h, if_pos (congrArg Hand.file h)]
        · rw [if_neg h, if_neg (fun e => h (Hand.file.inj e))]
          rfl

/-- To close a file takes off its lock. -/
theorem lockOf_closeFile (session : Session) (name : String) (handle : HandleId) :
    (session.closeFile name).machine.fs.lockOf handle =
      if session.inHand (.file name) = some handle then none
      else session.machine.fs.lockOf handle := by
  unfold closeFile
  rcases hget : session.files.get? name with _ | held
  · have hnothing : session.inHand (.file name) = none := hget
    simp [hnothing]
  · have hhand : session.inHand (.file name) = some held := hget
    have hclosed := FileSystem.lockOf_close session.machine.fs held handle
    simp only [hhand, Option.some.injEq]
    exact hclosed

/-- Puts an open file under a name, in place of an older one. -/
def putFile (session : Session) (name : String) (handle : HandleId) : Session :=
  { session.closeFile name with files := (session.closeFile name).files.set name handle }

/-- To put a file somewhere puts it into that hand. -/
theorem inHand_putFile (session : Session) (name : String) (handle : HandleId) (hand : Hand) :
    (session.putFile name handle).inHand hand =
      if hand = .file name then some handle else session.inHand hand := by
  have hclosed := inHand_closeFile session name hand
  cases hand with
  | blob other => exact hclosed.trans ((if_neg (by simp)).trans (if_neg (by simp)).symm)
  | file other =>
      show ((session.closeFile name).files.set name handle).get? other = _
      rw [Table.get?_set]
      by_cases hother : other = name
      · rw [if_pos hother, if_pos (congrArg Hand.file hother)]
      · have hne : Hand.file other ≠ .file name := fun e => hother (Hand.file.inj e)
        rw [if_neg hother, if_neg hne]
        exact hclosed.trans (if_neg hne)

/-- Giving up a blob closes its file at most. -/
theorem release_changes {free : Freedom} (session : Session) (name : String)
    (h : ∀ handle, session.inHand (.blob name) = some handle → free.handles handle) :
    session.machine.fs.Changes free (session.release name).machine.fs := by
  unfold release
  rcases hget : session.held.get? name with _ | bytes | ⟨handle, length⟩
  · exact .refl _ _
  · exact .refl _ _
  · exact .single (.close (h handle (inHand_of_mapped hget)))

/-- To close a file is a change if the file may be closed. -/
theorem closeFile_changes {free : Freedom} (session : Session) (name : String)
    (h : ∀ handle, session.inHand (.file name) = some handle → free.handles handle) :
    session.machine.fs.Changes free (session.closeFile name).machine.fs := by
  unfold closeFile
  rcases hget : session.files.get? name with _ | handle
  · exact .refl _ _
  · exact .single (.close (h handle hget))

/-- What a session has in one hand is closed, and something else, or nothing, takes its place. -/
structure Swaps (session after : Session) (hand : Hand) (new : Option HandleId) : Prop where
  /-- What is in the other hands stays there. -/
  inHand_eq : ∀ other, after.inHand other = if other = hand then new else session.inHand other
  /-- No lock is given up but that of the file that is closed. -/
  lockOf_eq : ∀ handle, after.machine.fs.lockOf handle =
    if session.inHand hand = some handle then none else session.machine.fs.lockOf handle
  /-- Nothing is done to the files but that this one is closed. -/
  changes : ∀ {free : Freedom},
    (∀ handle, session.inHand hand = some handle → free.handles handle) →
    session.machine.fs.Changes free after.machine.fs

/-- To release a blob swaps it for nothing. -/
theorem swaps_release (session : Session) (name : String) :
    session.Swaps (session.release name) (.blob name) none :=
  ⟨inHand_release session name, lockOf_release session name, release_changes session name⟩

/-- To keep a blob swaps what was there for it. -/
theorem swaps_keep (session : Session) (blob : Blob HandleId) (name : String) :
    session.Swaps (session.keep blob (some name)) (.blob name) blob.file? :=
  ⟨inHand_keep session blob name, lockOf_release session name, release_changes session name⟩

/-- To close a file swaps it for nothing. -/
theorem swaps_closeFile (session : Session) (name : String) :
    session.Swaps (session.closeFile name) (.file name) none :=
  ⟨inHand_closeFile session name, lockOf_closeFile session name, closeFile_changes session name⟩

/-- To put a file somewhere swaps what was there for it. -/
theorem swaps_putFile (session : Session) (name : String) (handle : HandleId) :
    session.Swaps (session.putFile name handle) (.file name) (some handle) :=
  ⟨inHand_putFile session name handle, lockOf_closeFile session name,
    closeFile_changes session name⟩

/-- What was there is let go of, as long as what takes its place is new. -/
theorem Swaps.releasesHandle {new : Option HandleId} (hswaps : middle.Swaps after hand new)
    (hinHand : ∀ hand, middle.inHand hand = session.inHand hand)
    (hget : middle.inHand hand = some handle) (hnew : new ≠ some handle) :
    session.ReleasesHandle after handle := by
  refine ⟨hand, (hinHand hand).symm.trans hget, ?_⟩
  rwa [hswaps.inHand_eq, if_pos rfl]

/-! ## What a command performs

A command runs a program on the machine, and what the session has in its hands stays as it is, or
one hand is emptied, or what the program has opened is put into one. -/

/-- Hands and locks stay as they are. -/
theorem performs_of_kept
    (hchanges : session.machine.fs.Changes (session.freedom after command) after.machine.fs)
    (hhands : ∀ hand, after.inHand hand = session.inHand hand)
    (hlocks : ∀ handle, after.machine.fs.lockOf handle = session.machine.fs.lockOf handle) :
    session.Performs after command where
  changes := hchanges
  inHand hand _ hget := Or.inl ((hhands hand).symm.trans hget)
  settles := .keeps hhands hlocks

/-- To do nothing is within every freedom. -/
theorem performs_refl (session : Session) (command : Command) : session.Performs session command :=
  performs_of_kept (.refl _ _) (fun _ => rfl) fun _ => rfl

/-- A program that leaves the open files alone, where the session keeps what it has. -/
theorem performs_of_does {α : Type} {x : StateM Machine α}
    (h : session.Orderly) (hmachine : after.machine = (x session.machine).2)
    (hheld : after.held = session.held) (hfiles : after.files = session.files)
    (hx : session.machine.Does (session.freedom after command) x
      (Leaves session.machine.fs.handles)) :
    session.Performs after command := by
  obtain ⟨hchanges, hleaves⟩ := hx (h.ready after command)
  have hhandles : after.machine.fs.handles = session.machine.fs.handles := hmachine ▸ hleaves
  exact performs_of_kept (hmachine ▸ hchanges) (inHand_congr hheld hfiles)
    (FileSystem.lockOf_congr hhandles)

section hands

variable (hchanges : session.machine.fs.Changes (session.ownFreedom command) middle.machine.fs)
  (hinHand : ∀ hand, middle.inHand hand = session.inHand hand)
include hchanges hinHand

/-- One hand is emptied. -/
theorem performs_of_emptied (hcommand : command.Empties hand)
    (hhandles : middle.machine.fs.handles = session.machine.fs.handles)
    (hswaps : middle.Swaps after hand none) : session.Performs after command where
  changes := by
    refine (changes_of_ownFreedom hchanges).trans (hswaps.changes fun handle hget => ?_)
    exact Or.inr (Or.inl (hswaps.releasesHandle hinHand hget (by simp)))
  inHand other handle hget := by
    rw [hswaps.inHand_eq, hinHand] at hget
    split at hget
    · cases hget
    · exact Or.inl hget
  settles := by
    refine .drops hand hcommand (fun other => ?_) fun handle => ?_
    · rw [hswaps.inHand_eq, hinHand]
    · rw [hswaps.lockOf_eq, hinHand, FileSystem.lockOf_congr hhandles]

/-- A file that was opened on the way is taken into one hand. -/
theorem performs_of_taken (h : session.Orderly) {lock : Lock} (hcommand : command.Takes hand lock)
    (hopened : Opened (session.ownFreedom command) session.machine.fs.handles lock handle
      middle.machine.fs)
    (hswaps : middle.Swaps after hand (some handle)) : session.Performs after command := by
  have hnew : ∀ other, session.inHand other ≠ some handle := fun other hget =>
    absurd (h.inHand_lt other handle hget) (Nat.not_lt.mpr hopened.usable)
  have hclosed : middle.machine.fs.Changes (session.freedom after command) after.machine.fs := by
    refine hswaps.changes fun old hget =>
      Or.inr (Or.inl (hswaps.releasesHandle hinHand hget fun e => ?_))
    rw [hinHand, ← e] at hget
    exact hnew hand hget
  refine ⟨⟨(changes_of_ownFreedom hchanges).trans hclosed, fun other found hget => ?_⟩, ?_⟩
  · rw [hswaps.inHand_eq, hinHand] at hget
    split at hget
    · cases hget
      exact Or.inr ⟨hopened.usable, Nat.lt_of_lt_of_le hopened.lt hclosed.next_le⟩
    · exact Or.inl hget
  · obtain ⟨file, rfl, hhandles⟩ := hopened.handles_eq
    refine .takes hand handle file.file file.lock hcommand
      (FileSystem.lockOf_eq_none_iff.mpr hopened.unbound) (fun other => ?_) fun other => ?_
    · rw [hswaps.inHand_eq, hinHand]
    · rw [hswaps.lockOf_eq, hinHand, FileSystem.lockOf_set hhandles rfl]
      by_cases hother : other = handle
      · rw [hother, if_neg (hnew hand), if_pos rfl, if_pos rfl]
      · rw [if_neg hother, if_neg hother]

/-- A blob that was come by on the way is held under a name, in place of an older one, or given up
at once. -/
theorem performs_of_keep (h : session.Orderly) {blob : Blob HandleId} (hold : Option String)
    (hown : Own (session.ownFreedom command) session.machine.fs.handles blob middle.machine.fs)
    (htakes : ∀ name, hold = some name → blob.isMapped = true →
      command.Takes (.blob name) .shared)
    (hempties : ∀ name, hold = some name → blob.isMapped = false →
      command.Empties (.blob name)) :
    session.Performs (middle.keep blob hold) command := by
  cases hold with
  | none =>
      cases blob with
      | owned bytes =>
          exact performs_of_kept (changes_of_ownFreedom hchanges) hinHand
            (FileSystem.lockOf_congr hown)
      | mapped handle length =>
          have hclosed : middle.machine.fs.Changes
              (session.freedom (middle.keep (.mapped handle length) none) command)
              (middle.machine.fs.close handle) := .single (.close (Or.inl (hown.opened rfl).usable))
          exact performs_of_kept ((changes_of_ownFreedom hchanges).trans hclosed) hinHand
            (FileSystem.lockOf_congr (hown.opened rfl).erase)
  | some name =>
      have hswaps := swaps_keep middle blob name
      cases blob with
      | owned bytes =>
          exact performs_of_emptied hchanges hinHand (hempties name rfl rfl) hown hswaps
      | mapped handle length =>
          exact performs_of_taken hchanges hinHand h (htakes name rfl rfl) hown hswaps

end hands

/-! ## Commands -/

section commands

/-- Whether it is refused or not, a change from outside is that change of the files. -/
theorem carryOut_meddle (session : Session) (change : Meddling) :
    (session.carryOut (.meddle change)).2 =
      (session.onMachine (Machine.onFiles fun fs => change.apply fs)).2 := by
  unfold carryOut
  simp only
  split <;> simp [*]

/-- A blob that is given up is read once more before. -/
theorem carryOut_releaseBlob (session : Session) (name : String) :
    (session.carryOut (.releaseBlob name)).2 = session.release name := by
  unfold carryOut
  rcases hget : session.held.get? name with _ | blob
  · simp only [hget, release]
  · have hread : (session.onMachine (blob.read Machine.host)).2 = session := by
      cases blob <;> rfl
    simp only [hget, hread]

variable (h : session.Orderly)
include h

/-- An entry is looked up, and one that is found is held or given up again. -/
theorem get_performs (on : OpenCache) (name : String) (source : KeySource) (hold : Option String) :
    session.Performs (session.onCache on (.get source hold)).2
      (.onCache name (.get source hold)) := by
  rcases hkey : source.key? on.cache with _ | key
  · unfold onCache
    simp only [hkey]
    exact performs_refl _ _
  have hdoes : session.machine.Does (session.ownFreedom (.onCache name (.get source hold)))
      (lookUp (Machine.faultyHost on.faults) on.cache key) (Finds _ session.machine.fs.handles) :=
    lookUp_does trivial rfl on.faults on.cache key
  obtain ⟨hchanges, hfinds⟩ := hdoes (ready_ownFreedom h _)
  unfold onCache
  simp only [hkey, onMachine]
  generalize lookUp (Machine.faultyHost on.faults) on.cache key session.machine = looked
    at hchanges hfinds
  obtain ⟨_ | blob, m⟩ := looked
  · exact performs_of_kept (changes_of_ownFreedom hchanges) (inHand_withMachine session m)
      (FileSystem.lockOf_congr hfinds)
  · have hkeep : session.Performs ((session.withMachine m).keep blob hold)
        (.onCache name (.get source hold)) := by
      refine performs_of_keep hchanges (inHand_withMachine session m) h hold hfinds.2 ?_
        fun _ _ howned => ?_
      · rintro other rfl -
        exact ⟨rfl, rfl⟩
      · exact absurd hfinds.1 (by simp [howned])
    cases blob <;> exact hkeep

/-- A graph is loaded, and its blob is held or given up again. -/
theorem load_performs (on : OpenCache) (name : String) (compiler : Option Compiler)
    (request : Request) (compiled : Except String Bytes) (hold : Option String) :
    session.Performs (session.onCache on (.load compiler request compiled hold)).2
      (.onCache name (.load compiler request compiled hold)) := by
  have hdoes : session.machine.Does
      (session.ownFreedom (.onCache name (.load compiler request compiled hold)))
      (loadGraph (Machine.faultyHost on.faults) on.cache compiler request compiled)
      (Loads _ session.machine.fs.handles) :=
    loadGraph_does trivial rfl on.faults on.cache compiler request compiled
  obtain ⟨hchanges, hloads⟩ := hdoes (ready_ownFreedom h _)
  unfold onCache
  simp only [onMachine]
  generalize loadGraph (Machine.faultyHost on.faults) on.cache compiler request compiled
    session.machine = loading at hchanges hloads
  obtain ⟨_ | ⟨blob, status⟩, m⟩ := loading
  · exact performs_of_kept (changes_of_ownFreedom hchanges) (inHand_withMachine session m)
      (FileSystem.lockOf_congr hloads)
  · have hkeep : session.Performs ((session.withMachine m).keep blob hold)
        (.onCache name (.load compiler request compiled hold)) := by
      refine performs_of_keep hchanges (inHand_withMachine session m) h hold hloads.2 ?_ ?_
      · rintro other rfl -
        exact ⟨rfl, rfl⟩
      · rintro other rfl -
        rfl
    cases blob <;> exact hkeep

/-- What is asked of a cache. -/
theorem onCache_performs (on : OpenCache) (name : String) (asked : CacheCommand) :
    session.Performs (session.onCache on asked).2 (.onCache name asked) := by
  have hhost : ∀ after, (Machine.faultyHost on.faults).Keeps
      (session.freedom after (.onCache name asked)) := fun _ => Machine.faultyHost_keeps _ _
  cases asked with
  | state => exact performs_refl _ _
  | key compiler request => exact performs_refl _ _
  | get source hold => exact get_performs h on name source hold
  | set source blob =>
      unfold onCache
      rcases hkey : source.key? on.cache with _ | key <;> simp only [hkey]
      · exact performs_refl _ _
      · exact performs_of_does h rfl rfl rfl
          (Cache.set_does (hhost _) trivial rfl on.cache key blob)
  | size => exact performs_of_does h rfl rfl rfl (Cache.size_does (hhost _) rfl on.cache)
  | entries => exact performs_of_does h rfl rfl rfl (Cache.entries_does (hhost _) rfl on.cache)
  | verify =>
      exact performs_of_does h rfl rfl rfl (Cache.verify_does (hhost _) trivial rfl on.cache)
  | trim => exact performs_of_does h rfl rfl rfl (Cache.trim_does (hhost _) trivial rfl on.cache)
  | clear => exact performs_of_does h rfl rfl rfl (Cache.clear_does (hhost _) trivial rfl on.cache)
  | load compiler request compiled hold =>
      exact load_performs h on name compiler request compiled hold

/-- A file of the store is opened, in place of an older one. -/
theorem openFile_performs (name : String) (path : Path) (mode : OpenMode) :
    session.Performs (session.carryOut (.openFile name path mode)).2
      (.openFile name path mode) := by
  have hdoes : session.machine.Does (session.ownFreedom (.openFile name path mode))
      (openFile path mode) (Opens _ session.machine.fs.handles mode.lock) :=
    openFile_does rfl path mode
  obtain ⟨hchanges, hopens⟩ := hdoes (ready_ownFreedom h _)
  unfold carryOut
  simp only [onMachine]
  generalize openFile path mode session.machine = opened at hchanges hopens
  obtain ⟨_ | handle, m⟩ := opened
  · exact performs_of_kept (changes_of_ownFreedom hchanges) (inHand_withMachine session m)
      (FileSystem.lockOf_congr hopens)
  · have hcommand : Command.Takes (.openFile name path mode) (.file name) mode.lock := ⟨rfl, rfl⟩
    have hswaps := swaps_putFile (session.withMachine m) name handle
    exact performs_of_taken hchanges (inHand_withMachine session m) h hcommand hopens hswaps

/-- An open file of the store is used. -/
theorem onFile_performs (name : String) (asked : FileCommand) :
    session.Performs (session.carryOut (.onFile name asked)).2 (.onFile name asked) := by
  unfold carryOut
  rcases hget : session.files.get? name with _ | handle <;> simp only [hget]
  · exact performs_refl _ _
  · have hfree : ∀ after, (session.freedom after (.onFile name asked)).handles handle :=
      fun _ => Or.inr (Or.inr ⟨name, ⟨asked, rfl⟩, hget⟩)
    have huses : ∀ after, session.machine.Does (session.freedom after (.onFile name asked))
        (onFile handle asked) (Uses session.machine.fs.handles handle) :=
      fun after => onFile_does rfl (hfree after) asked
    obtain ⟨hchanges, change, hchange, hused⟩ := huses _ (h.ready _ _)
    exact performs_of_kept hchanges (inHand_congr rfl rfl)
      (FileSystem.lockOf_modify hchange hused rfl)

/-- What a command does at the time that the machine has. -/
theorem carryOut_performs (command : Command) :
    session.Performs (session.carryOut command).2 command := by
  have hhost : ∀ after, Machine.host.Keeps (session.freedom after command) :=
    fun _ => Machine.host_keeps _
  cases command with
  | meddle change =>
      have hdoes : ∀ after, session.machine.Does (session.freedom after (.meddle change))
          (Machine.onFiles fun fs => change.apply fs) (Leaves session.machine.fs.handles) := by
        intro after
        have hlinks : (session.freedom after (.meddle change)).links := ⟨change, rfl⟩
        exact Machine.onFiles_does fun hready =>
          ⟨FileSystem.meddling_changes hready.legible trivial hlinks change,
            FileSystem.handles_meddling hready.legible change⟩
      rw [carryOut_meddle]
      exact performs_of_does h rfl rfl rfl (hdoes _)
  | contentOf path =>
      unfold carryOut
      simp only
      split <;> exact performs_refl _ _
  | attributes path =>
      unfold carryOut
      simp only
      split <;> exact performs_refl _ _
  | openCache name source digest version faults =>
      exact performs_of_does h rfl rfl rfl (openCache_does rfl source digest version faults)
  | dropCache name => exact performs_of_kept (.refl _ _) (inHand_congr rfl rfl) fun _ => rfl
  | onCache name asked =>
      unfold carryOut
      simp only
      split
      · exact performs_refl _ _
      · exact onCache_performs h _ name asked
  | readBlob name =>
      unfold carryOut
      rcases hget : session.held.get? name with _ | blob <;> simp only [hget]
      · exact performs_refl _ _
      · exact performs_of_does h rfl rfl rfl (Blob.read_does (hhost _) rfl blob)
  | releaseBlob name =>
      rw [carryOut_releaseBlob]
      exact performs_of_emptied (.refl _ _) (fun _ => rfl) rfl rfl (swaps_release session name)
  | openFile name path mode => exact openFile_performs h name path mode
  | onFile name asked => exact onFile_performs h name asked
  | closeFile name =>
      exact performs_of_emptied (.refl _ _) (fun _ => rfl) rfl rfl (swaps_closeFile session name)
  | storeDirectories path =>
      exact performs_of_does h rfl rfl rfl ((hhost _).createDirectories rfl path)
  | storeRemove path => exact performs_of_does h rfl rfl rfl ((hhost _).remove trivial rfl path)
  | storeList path =>
      unfold carryOut
      simp only
      split <;> exact performs_refl _ _
  | tool words bindings =>
      have hcontents : ∀ after, (session.freedom after (.tool words bindings)).contents :=
        fun _ => ⟨words, bindings, rfl⟩
      exact performs_of_does h rfl rfl rfl (runTool_does trivial (hcontents _) rfl words bindings)

end commands

/-! ## Steps and runs -/

/-- What a step does. -/
theorem Moment.performs (moment : Moment) (h : moment.before.Orderly) :
    moment.before.Performs moment.after moment.command := by
  obtain ⟨hstep, hsettles⟩ := carryOut_performs h.begin moment.command
  refine ⟨⟨(FileSystem.Changes.single (.clock _)).trans hstep.changes, hstep.inHand⟩, ?_⟩
  cases hsettles with
  | keeps hhands hlocks => exact .keeps hhands hlocks
  | drops hand hcommand hhands hlocks => exact .drops hand hcommand hhands hlocks
  | takes hand handle id lock hcommand hnew hhands hlocks =>
      exact .takes hand handle id lock hcommand hnew hhands hlocks

/-- A step keeps to the freedom of its command. -/
theorem Moment.keepsToFreedom (moment : Moment) (h : moment.before.Orderly) :
    moment.before.KeepsToFreedom moment.after moment.command := (moment.performs h).toKeepsToFreedom

/-- A step does to hands and locks what its command may do to them. -/
theorem Moment.settles (moment : Moment) (h : moment.before.Orderly) :
    moment.before.Settles moment.after moment.command := (moment.performs h).settles

/-- A step leaves a session in order that was in order. -/
theorem Moment.orderly (moment : Moment) (h : moment.before.Orderly) : moment.after.Orderly :=
  h.orderly_after (moment.keepsToFreedom h)

/-- Whatever commands lead from a session in order to another, that is in order too. -/
theorem orderly_finish {session : Session} (h : session.Orderly) (commands : List Command) :
    (finish session commands).Orderly := by
  induction commands generalizing session with
  | nil => exact h
  | cons command rest ih => exact ih (Moment.orderly ⟨session, command⟩ h)

/-- What every step of a run preserves holds at its end and whenever a step of it begins. -/
theorem invariant_of_run (invariant : Session → Prop) {commands : List Command}
    (h : invariant session)
    (hstep : ∀ moment ∈ run session commands, invariant moment.before → invariant moment.after) :
    invariant (finish session commands) ∧
      ∀ moment ∈ run session commands, invariant moment.before := by
  induction commands generalizing session with
  | nil => exact ⟨h, fun _ hmem => by cases hmem⟩
  | cons command rest ih =>
      have hnext : invariant (Moment.after ⟨session, command⟩) := hstep _ List.mem_cons_self h
      obtain ⟨hfinish, hrest⟩ := ih hnext fun moment hmem =>
        hstep moment (List.mem_cons_of_mem _ hmem)
      refine ⟨hfinish, fun moment hmem => ?_⟩
      rcases List.mem_cons.mp hmem with rfl | hmem
      · exact h
      · exact hrest moment hmem

end BlobCache.Session
