import BlobCache.Proofs.Reachable
import Mathlib.Data.List.Nodup

/-!
# Who holds the locks

A lock lasts as long as its file is open, so a file that is opened and never closed again blocks
eviction and reading for good. That does not happen: in every reachable session the locks in force
are those of the files in its hands, each in one hand only (`Session.Accounted`).

* `Accounted.accounted_of_settles` is the step: whatever a command does to hands and locks
  (`Session.Settles`), they are accounted for afterwards.
* `Cache.Balanced` says what the operations of a cache do to them, whatever the host refuses: only
  an entry that is found stays open, with one shared lock, until its blob is released.
* `Session.locks_accounted` is the whole.
-/

namespace BlobCache

open Machine (Opened Own)

/-! ## Operations of a cache -/

namespace Machine

/-- A blob was found, and with it there is one more lock, which is shared and goes with the blob. -/
structure Lends (m : Machine) (blob : Blob HandleId) (after : Machine) : Prop where
  /-- The blob is a file that was opened, and no other was opened or closed. -/
  opened : ∃ handle length, ∃ file : OpenFile, blob = .mapped handle length ∧
    file.lock = .shared ∧ m.fs.handles.get? handle = none ∧
    after.fs.handles = m.fs.handles.set handle file
  /-- One file has one more shared lock, and no other has more or fewer. -/
  locks : ∃ id, ∀ other, after.fs.locksOn other =
    m.fs.locksOn other ++ if id = other then [.shared] else []
  /-- Once the blob is released, the same files are open as before. -/
  released : (blob.release Machine.host after).2.fs.handles = m.fs.handles

/-- A mapped blob owns a newly opened file, and so it is lent. -/
theorem lends_of_own {free : Freedom} {m after : Machine} {blob : Blob HandleId}
    (hmapped : blob.isMapped = true) (hown : Own free m.fs.handles blob after.fs) :
    m.Lends blob after := by
  obtain _ | ⟨handle, length⟩ := blob
  · cases hmapped
  have hopened : Opened free m.fs.handles .shared handle after.fs := hown
  obtain ⟨file, hlock, hhandles⟩ := hopened.handles_eq
  refine ⟨⟨handle, length, file, rfl, hlock, hopened.unbound, hhandles⟩,
    ⟨file.file, fun other => ?_⟩, hopened.erase⟩
  unfold FileSystem.locksOn
  rw [hhandles, Table.rows_set_of_unbound hopened.unbound, List.filterMap_append]
  by_cases h : file.file = other <;> simp [h, hlock]

end Machine

namespace Cache

/-- What the operations of a cache do to the open files of a machine, whatever the host refuses. -/
structure Balanced (cache : Cache) (faults : Faults) (m : Machine) : Prop where
  /-- Storing closes what it opens. -/
  set : ∀ key blob,
    (set (Machine.faultyHost faults) cache key blob m).2.fs.handles = m.fs.handles
  /-- So does checking. -/
  verify : (verify (Machine.faultyHost faults) cache m).2.fs.handles = m.fs.handles
  /-- So does trimming. -/
  trim : (trim (Machine.faultyHost faults) cache m).2.fs.handles = m.fs.handles
  /-- So does clearing. -/
  clear : (clear (Machine.faultyHost faults) cache m).2.fs.handles = m.fs.handles
  /-- Asking for the size opens nothing. -/
  size : (size (Machine.faultyHost faults) cache m).2.fs.handles = m.fs.handles
  /-- Nor does listing the entries. -/
  entries : (entries (Machine.faultyHost faults) cache m).2.fs.handles = m.fs.handles
  /-- A look-up that misses closes what it opens. -/
  get_miss : ∀ key, (get (Machine.faultyHost faults) cache key m).1 = none →
    (get (Machine.faultyHost faults) cache key m).2.fs.handles = m.fs.handles
  /-- One that hits leaves the entry open. -/
  get_hit : ∀ key blob, (get (Machine.faultyHost faults) cache key m).1 = some blob →
    m.Lends blob (get (Machine.faultyHost faults) cache key m).2
  /-- A load that fails closes what it opens. -/
  load_failed : ∀ compiler request compiled error,
    (Session.loadGraph (Machine.faultyHost faults) cache compiler request compiled m).1 =
      .error error →
    (Session.loadGraph (Machine.faultyHost faults) cache compiler request compiled m).2.fs.handles =
      m.fs.handles
  /-- So does one that compiles. -/
  load_compiled : ∀ compiler request compiled loaded,
    (Session.loadGraph (Machine.faultyHost faults) cache compiler request compiled m).1 =
      .ok loaded → loaded.status ≠ .hit →
    (Session.loadGraph (Machine.faultyHost faults) cache compiler request compiled m).2.fs.handles =
      m.fs.handles
  /-- One that hits leaves the entry open. -/
  load_hit : ∀ compiler request compiled loaded,
    (Session.loadGraph (Machine.faultyHost faults) cache compiler request compiled m).1 =
      .ok loaded → loaded.status = .hit →
    m.Lends loaded.blob
      (Session.loadGraph (Machine.faultyHost faults) cache compiler request compiled m).2

/-- Whatever the host refuses, the operations of a cache close what they open. -/
theorem balanced (cache : Cache) (faults : Faults) {m : Machine} (hwf : m.fs.WellFormed)
    (hlegible : m.fs.Legible) : cache.Balanced faults m := by
  have hready : m.fs.Ready .full := ⟨hwf, hlegible, fun _ _ => trivial⟩
  have hhost := Machine.faultyHost_keeps .full faults
  have hfinds := fun key => (get_does hhost trivial rfl cache key hready).2
  have hloads := fun compiler request compiled =>
    (Session.loadGraph_does trivial rfl faults cache compiler request compiled hready).2
  exact {
    set := fun key blob => (set_does hhost trivial rfl cache key blob hready).2
    verify := (verify_does hhost trivial rfl cache hready).2
    trim := (trim_does hhost trivial rfl cache hready).2
    clear := (clear_does hhost trivial rfl cache hready).2
    size := (size_does hhost rfl cache hready).2
    entries := (entries_does hhost rfl cache hready).2
    get_miss := fun key hmiss => by
      have hget := hfinds key
      rw [hmiss] at hget
      exact hget
    get_hit := fun key blob hhit => by
      have hget := hfinds key
      rw [hhit] at hget
      exact Machine.lends_of_own hget.1 hget.2
    load_failed := fun compiler request compiled error hfailed => by
      have hload := hloads compiler request compiled
      rw [hfailed] at hload
      exact hload
    load_compiled := fun compiler request compiled loaded hloaded hstatus => by
      have hload := hloads compiler request compiled
      rw [hloaded] at hload
      obtain ⟨hmapped, hown⟩ := hload
      obtain ⟨bytes | ⟨handle, length⟩, status⟩ := loaded
      · exact hown
      · exact absurd (hmapped.mp rfl) hstatus
    load_hit := fun compiler request compiled loaded hloaded hstatus => by
      have hload := hloads compiler request compiled
      rw [hloaded] at hload
      exact Machine.lends_of_own (hload.1.mpr hstatus) hload.2 }

end Cache

namespace Session

/-! ## Hands and locks -/

/-- The locks that a hand can hold: that of a blob is shared. -/
def Hand.Fits : Hand → Lock → Prop
  | .blob _, lock => lock = .shared
  | .file _, _ => True

/-- What a command takes fits the hand into which it takes it. -/
theorem Command.Takes.fits {command : Command} {hand : Hand} {lock : Lock}
    (h : command.Takes hand lock) : hand.Fits lock := by
  unfold Command.Takes at h
  split at h
  · obtain ⟨rfl, rfl⟩ := h
    rfl
  · obtain ⟨rfl, rfl⟩ := h
    rfl
  · obtain ⟨rfl, -⟩ := h
    trivial
  · cases h

/-- The locks in force are those of what the session has in its hands. -/
structure Accounted (session : Session) : Prop where
  /-- On each file there are shared locks only, or one exclusive lock alone. -/
  lawful : session.machine.fs.Lawful
  /-- Each lock is that of a file in one hand and no other. -/
  owner : ∀ handle id lock, session.machine.fs.lockOf handle = some (id, lock) →
    ∃ hand, session.Has hand handle
  /-- What is in a hand is open, under a lock that fits. -/
  locked : ∀ hand handle, session.inHand hand = some handle →
    ∃ id lock, session.machine.fs.lockOf handle = some (id, lock) ∧ hand.Fits lock

variable {session after : Session} {command : Command}

namespace Accounted

/-- A new session holds nothing, and no lock is in force. -/
theorem start (directory : Bytes) : (start directory).Accounted where
  lawful := FileSystem.lawful_initial directory
  owner _ _ _ h := by cases h
  locked hand _ h := by cases hand <;> cases h

section hands

variable (h : session.Accounted)
include h

/-- No two hands have the same file. -/
theorem hand_eq {hand other : Hand} {handle : HandleId} (hget : session.inHand hand = some handle)
    (hother : session.inHand other = some handle) : other = hand := by
  obtain ⟨id, lock, hlock, -⟩ := h.locked hand handle hget
  obtain ⟨sole, hsole⟩ := h.owner handle id lock hlock
  rw [hsole.sole hand hget, hsole.sole other hother]

/-- Whatever comes into one hand, what is in another stays there alone. -/
theorem has_of_swap {hand : Hand} {new : Option HandleId}
    (hhands : ∀ other, after.inHand other = if other = hand then new else session.inHand other)
    {handle : HandleId} {id : FileId} {lock : Lock}
    (hlock : session.machine.fs.lockOf handle = some (id, lock))
    (hnot : session.inHand hand ≠ some handle) (hnew : new ≠ some handle) :
    ∃ kept, after.Has kept handle := by
  obtain ⟨kept, hkept⟩ := h.owner handle id lock hlock
  have hne : kept ≠ hand := fun e => hnot (e ▸ hkept.inHand_eq)
  refine ⟨kept, ?_, fun other hother => ?_⟩
  · rw [hhands, if_neg hne]
    exact hkept.inHand_eq
  · rw [hhands] at hother
    split at hother
    · exact absurd hother hnew
    · exact hkept.sole other hother

/-- What the session has in its hands is accounted for after every command. -/
theorem accounted_of_settles (hsettles : session.Settles after command)
    (hlawful : after.machine.fs.Lawful) : after.Accounted := by
  cases hsettles with
  | keeps hhands hlocks =>
      refine ⟨hlawful, fun handle id lock hlock => ?_, fun hand handle hget => ?_⟩
      · rw [hlocks] at hlock
        obtain ⟨hand, hhas⟩ := h.owner handle id lock hlock
        exact ⟨hand, (hhands hand).trans hhas.inHand_eq,
          fun other hother => hhas.sole other ((hhands other).symm.trans hother)⟩
      · rw [hlocks]
        exact h.locked hand handle ((hhands hand).symm.trans hget)
  | drops hand hcommand hhands hlocks =>
      refine ⟨hlawful, fun handle id lock hlock => ?_, fun other handle hget => ?_⟩
      · rw [hlocks] at hlock
        split at hlock
        · cases hlock
        · rename_i hnot
          exact h.has_of_swap hhands hlock hnot (by simp)
      · rw [hhands] at hget
        split at hget
        · cases hget
        · rename_i hne
          rw [hlocks, if_neg fun hdropped => hne (h.hand_eq hdropped hget)]
          exact h.locked other handle hget
  | takes hand new id lock hcommand hnew hhands hlocks =>
      have hfresh : ∀ other, session.inHand other ≠ some new := by
        intro other hget
        obtain ⟨id, lock, hlock, -⟩ := h.locked other new hget
        rw [hnew] at hlock
        cases hlock
      refine ⟨hlawful, fun handle id lock hlock => ?_, fun other handle hget => ?_⟩
      · rw [hlocks] at hlock
        split at hlock
        · rename_i hhandle
          subst hhandle
          refine ⟨hand, by rw [hhands, if_pos rfl], fun other hother => ?_⟩
          by_contra hne
          rw [hhands, if_neg hne] at hother
          exact hfresh other hother
        · rename_i hhandle
          split at hlock
          · cases hlock
          · rename_i hnot
            exact h.has_of_swap hhands hlock hnot fun e => hhandle (Option.some.inj e).symm
      · rw [hhands] at hget
        split at hget
        · rename_i hother
          obtain rfl : new = handle := Option.some.inj hget
          exact ⟨id, lock, by rw [hlocks, if_pos rfl], hother ▸ hcommand.fits⟩
        · rename_i hne
          have hold : handle ≠ new := fun e => hfresh other (e ▸ hget)
          rw [hlocks, if_neg hold, if_neg fun hdropped => hne (h.hand_eq hdropped hget)]
          exact h.locked other handle hget

end hands

end Accounted

/-! ## The locks on a file -/

/-- The hands that something was put into. -/
def hands (session : Session) : List Hand :=
  session.held.rows.map (Hand.blob ·.1) ++ session.files.rows.map (Hand.file ·.1)

/-- The lock on a file that is held by an open file. -/
def lockOn (session : Session) (id : FileId) (handle : HandleId) : Option Lock :=
  (session.machine.fs.lockOf handle).bind fun found => if found.1 = id then some found.2 else none

/-- The locks that the session holds on a file. -/
def locksHeld (session : Session) (id : FileId) : List Lock :=
  (session.hands.filterMap session.inHand).filterMap (session.lockOn id)

/-- A hand with something in it is one of the session's. -/
theorem mem_hands {hand : Hand} {handle : HandleId} (h : session.inHand hand = some handle) :
    hand ∈ session.hands := by
  unfold hands
  cases hand with
  | blob name =>
      obtain ⟨blob, hget, -⟩ := Option.bind_eq_some_iff.mp h
      exact List.mem_append_left _ (List.mem_map.mpr ⟨_, Table.mem_rows_iff.mpr hget, rfl⟩)
  | file name =>
      exact List.mem_append_right _ (List.mem_map.mpr ⟨_, Table.mem_rows_iff.mpr h, rfl⟩)

/-- No hand is counted twice. -/
theorem nodup_hands (session : Session) : session.hands.Nodup := by
  unfold hands
  rw [List.nodup_append]
  have hrows : ∀ {α β : Type} (t : Table String α) (f : String → β), f.Injective →
      (t.rows.map fun row => f row.1).Nodup := by
    intro α β t f hf
    have hkeys := List.Nodup.map hf t.nodup
    rwa [List.map_map] at hkeys
  refine ⟨hrows _ Hand.blob fun _ _ => Hand.blob.inj,
    hrows _ Hand.file fun _ _ => Hand.file.inj, ?_⟩
  intro a ha b hb
  obtain ⟨_, -, rfl⟩ := List.mem_map.mp ha
  obtain ⟨_, -, rfl⟩ := List.mem_map.mp hb
  simp

/-- The locks in force on a file, whether it has a name or not, are those that the session holds on
it, and as many. -/
theorem Accounted.locksOn_perm (h : session.Accounted) (id : FileId) :
    (session.machine.fs.locksOn id).Perm (session.locksHeld id) := by
  let open_ := session.machine.fs.handles.rows.map Prod.fst
  have hlocks : session.machine.fs.locksOn id = open_.filterMap (session.lockOn id) := by
    unfold FileSystem.locksOn
    rw [List.filterMap_map]
    refine List.filterMap_congr fun row hrow => ?_
    have hget : session.machine.fs.handles.get? row.1 = some row.2 := Table.mem_rows_iff.mp hrow
    simp only [Function.comp_apply, lockOn, FileSystem.lockOf, hget, Option.map_some,
      Option.bind_some]
  have hheld : (session.hands.filterMap session.inHand).Nodup := by
    refine List.Nodup.filterMap (fun hand other handle hget hother => ?_) (nodup_hands session)
    exact (h.hand_eq hget hother).symm
  have hsame : open_.Perm (session.hands.filterMap session.inHand) := by
    refine (List.perm_ext_iff_of_nodup session.machine.fs.handles.nodup hheld).mpr fun handle => ?_
    simp only [List.mem_map, List.mem_filterMap]
    constructor
    · rintro ⟨⟨handle, file⟩, hrow, rfl⟩
      obtain ⟨hand, hhas⟩ := h.owner handle file.file file.lock
        (FileSystem.lockOf_eq_some_iff.mpr ⟨file, Table.mem_rows_iff.mp hrow, rfl, rfl⟩)
      exact ⟨hand, mem_hands hhas.inHand_eq, hhas.inHand_eq⟩
    · rintro ⟨hand, -, hget⟩
      obtain ⟨id, lock, hlock, -⟩ := h.locked hand handle hget
      obtain ⟨file, hopen, -⟩ := FileSystem.lockOf_eq_some_iff.mp hlock
      exact ⟨(handle, file), Table.mem_rows_iff.mpr hopen, rfl⟩
  rw [hlocks]
  exact hsame.filterMap _

/-! ## Steps and runs -/

/-- What a session holds is accounted for after every moment of it. -/
theorem Moment.accounted (moment : Moment) (horderly : moment.before.Orderly)
    (h : moment.before.Accounted) : moment.after.Accounted :=
  h.accounted_of_settles (moment.settles horderly)
    ((moment.keepsToFreedom horderly).changes.lawful horderly.wellFormed h.lawful)

/-- In every reachable session the locks in force are lawful, and they are those of what it has in
its hands. A command takes at most one more, into a hand, and no operation of a cache leaves one
behind, whatever the host refuses, but for an entry that it finds. -/
theorem locks_accounted (directory : Bytes) (commands : List Command) :
    let session := finish (start directory) commands
    session.Accounted ∧
      (∀ id, (session.machine.fs.locksOn id).Perm (session.locksHeld id)) ∧
      (∀ command, session.Settles (session.step command).2 command) ∧
      ∀ (cache : Cache) (faults : Faults), cache.Balanced faults session.machine := by
  intro session
  have horderly : session.Orderly := orderly_finish (.start directory) commands
  have haccounted : session.Accounted :=
    (invariant_of_run (fun session => session.Orderly ∧ session.Accounted)
      ⟨.start directory, .start directory⟩ fun moment _ h =>
        ⟨moment.orderly h.1, moment.accounted h.1 h.2⟩).1.2
  exact ⟨haccounted, haccounted.locksOn_perm,
    fun command => Moment.settles ⟨session, command⟩ horderly,
    fun cache faults => Cache.balanced cache faults horderly.wellFormed horderly.legible⟩

/-- An entry is held as a blob and open as a file when its name is taken away, and a new file is
being written under that name. -/
theorem locks_outlive_names :
    let path := Cache.entryPath Path.dot ⟨"k"⟩
    let session := finish (start [0x77])
      [.openCache "c" (.config ⟨some Path.dot, 100⟩) .weightedSum none .none,
        .onCache "c" (.set (.text "k") [1, 2, 3]),
        .onCache "c" (.get (.text "k") (some "held")), .openFile "reader" path .shared,
        .meddle (.unlink path), .openFile "writer" path .create]
    session.machine.fs.linkCount (.file 0) = 0 ∧
      (session.machine.fs.locksOn 0).Perm [.shared, .shared] ∧
      (session.machine.fs.locksOn 4).Perm [.exclusive] := by
  intro path session
  obtain ⟨-, hperm, -⟩ := locks_accounted [0x77]
    [.openCache "c" (.config ⟨some Path.dot, 100⟩) .weightedSum none .none,
      .onCache "c" (.set (.text "k") [1, 2, 3]),
      .onCache "c" (.get (.text "k") (some "held")), .openFile "reader" path .shared,
      .meddle (.unlink path), .openFile "writer" path .create]
  have hreaders : session.locksHeld 0 = [.shared, .shared] := by decide +kernel
  have hwriter : session.locksHeld 4 = [.exclusive] := by decide +kernel
  exact ⟨by decide +kernel, hreaders ▸ hperm 0, hwriter ▸ hperm 4⟩

end Session

end BlobCache
