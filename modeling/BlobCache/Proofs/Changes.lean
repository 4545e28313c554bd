import BlobCache.Proofs.Acts
import BlobCache.Proofs.Lookups

/-!
# Whatever happens to the files

Everything that is ever done to a file system, by caches, by users of the store, by the tool or by
others, is made of a few kinds of changes (`FileSystem.Change`). Some of them are open to all: new
things can be put where nothing stands, and files can be opened where the locks allow it. The others
take a `Freedom`, and from what somebody is not free to do it is seen at once what they leave as it
was:

* `Change.handles_kept`: open files, for one who may not use them.
* `Change.names_kept`: names, for one who may not take any away.
* `Change.links_le`: the number of names of a file, for one who may not give it further ones.
* `Change.contents_eq`: the content of a file, for one who may not write it.

`FileSystem.Changes` is any number of changes. Well-formedness survives them all.
-/

namespace BlobCache

/-- What somebody may do to the files beside adding to them. -/
structure Freedom where
  /-- The open files that may be used and closed. -/
  handles : HandleId → Prop
  /-- Whether names may be taken away. -/
  names : Prop
  /-- Whether symbolic links may be made and files be given further names. -/
  links : Prop
  /-- Whether a file may be written by its path, if its permission bits let its owner write. -/
  contents : Prop

/-- The freedom to do anything. -/
def Freedom.full : Freedom := ⟨fun _ => True, True, True, True⟩

namespace FileSystem

open BlobCache.Path (IsName)

/-- One change by somebody with this freedom. -/
inductive Change (free : Freedom) (fs : FileSystem) : FileSystem → Prop where
  /-- The clock is set. -/
  | clock (time : Int) : Change free fs { fs with now := time }
  /-- A file gets another access time. -/
  | date (id : FileId) (time : Int) : Change free fs (fs.setAccessTime id time)
  /-- A directory is made. -/
  | makeDirectory {place : Location} (hfree : fs.tree.get? place = none) :
    Change free fs (fs.bind place .directory)
  /-- A symbolic link is made. -/
  | makeLink {place : Location} {target : Path} (hlinks : free.links)
    (hfree : fs.tree.get? place = none) (hzero : 0 ∉ target) :
    Change free fs { fs.bind place (.link fs.next target) with next := fs.next + 1 }
  /-- What stands somewhere gets a further name. -/
  | addName {directory other : Location} {name : Bytes} {node : Node} (hlinks : free.links)
    (hfree : fs.tree.get? (directory.child name) = none) (hname : IsName name)
    (hlength : name.length ≤ nameLimit) (hget : fs.tree.get? other = some node) :
    Change free fs (fs.bind (directory.child name) node)
  /-- Names are taken away. -/
  | remove (hnames : free.names) (keep : Location × Node → Bool) :
    Change free fs { fs with tree := fs.tree.filter keep }
  /-- A new file is made. -/
  | plant {directory : Location} {name : Bytes} (hfree : fs.tree.get? (directory.child name) = none)
    (hname : IsName name) (hlength : name.length ≤ nameLimit) (file : FileData) :
    Change free fs (fs.planting (directory.child name) file)
  /-- A file is written by its path. -/
  | rewrite {id : FileId} (hcontents : free.contents) (hmay : fs.mayWrite id = true)
    (edit : Bytes → Bytes) :
    Change free fs
      (fs.modifyFile id fun file => { file with bytes := edit file.bytes, accessed := fs.now })
  /-- A file is opened for reading. -/
  | openFile {place : Location} {id : FileId} {lock : Lock} (path : Path)
    (hget : fs.tree.get? place = some (.file id)) (hlock : fs.lockable id lock = true) :
    Change free fs (fs.addHandle (fs.opened path lock id)).2
  /-- A new file is made and opened for writing. -/
  | create {directory : Location} {name : Bytes} (path : Path)
    (hfree : fs.tree.get? (directory.child name) = none) (hname : IsName name)
    (hlength : name.length ≤ nameLimit) :
    Change free fs (fs.drafting path (directory.child name) [] 0)
  /-- An open file is mapped. -/
  | map {handle : HandleId} {file : OpenFile} (hhandle : free.handles handle)
    (hget : fs.handles.get? handle = some file) (length : Nat) :
    Change free fs (fs.modifyHandle handle fun file => { file with mapped := some length })
  /-- An open file is written. -/
  | write {handle : HandleId} {file : OpenFile} (hhandle : free.handles handle)
    (hget : fs.handles.get? handle = some file) (hwritable : file.writable = true) (data : Bytes) :
    Change free fs (fs.writeAt file.file file.size data)
  /-- A write is counted. -/
  | advance {handle : HandleId} (hhandle : free.handles handle) (count : Nat) :
    Change free fs (fs.modifyHandle handle fun file =>
      { file with size := file.size + count, writes := file.writes + 1 })
  /-- An open file is closed. -/
  | close {handle : HandleId} (hhandle : free.handles handle) : Change free fs (fs.close handle)

/-- Any number of changes. -/
def Changes (free : Freedom) : FileSystem → FileSystem → Prop :=
  Relation.ReflTransGen (Change free)

variable {free : Freedom} {fs fs' fs'' : FileSystem}

/-! ## New bindings -/

/-- A new name takes no other name away. -/
theorem get?_bind_of_free {place other : Location} {node new : Node}
    (hfree : fs.tree.get? place = none) (hget : fs.tree.get? other = some node) :
    (fs.bind place new).tree.get? other = some node := by
  have hne : other ≠ place := by
    rintro rfl
    rw [hfree] at hget
    cases hget
  exact (Table.get?_set_ne _ hne _).trans hget

/-- A name can be bound to a file that was given out, if the name is one. -/
theorem WellFormed.bind (h : fs.WellFormed) {place : Location} {node : Node}
    (hlt : ∀ id, node = .file id → id < fs.next)
    (hnamed : ∀ (directory : Location) (name : Bytes) id, place = directory.child name →
      node = .file id → IsName name ∧ name.length ≤ nameLimit) :
    (fs.bind place node).WellFormed where
  file_lt other id hget := by
    rw [FileSystem.bind, Table.get?_set] at hget
    split at hget
    · exact hlt id (Option.some.inj hget)
    · exact h.file_lt other id hget
  handle_lt := h.handle_lt
  open_lt := h.open_lt
  named directory name id hget := by
    rw [FileSystem.bind, Table.get?_set] at hget
    split at hget
    · rename_i hplace
      exact hnamed directory name id hplace.symm (Option.some.inj hget)
    · exact h.named directory name id hget

/-- Names can be taken away. -/
theorem WellFormed.filter (h : fs.WellFormed) (keep : Location × Node → Bool) :
    ({ fs with tree := fs.tree.filter keep } : FileSystem).WellFormed where
  file_lt place id hget := by
    rw [Table.get?_filter, Option.filter_eq_some_iff] at hget
    exact h.file_lt place id hget.1
  handle_lt := h.handle_lt
  open_lt := h.open_lt
  named directory name id hget := by
    rw [Table.get?_filter, Option.filter_eq_some_iff] at hget
    exact h.named directory name id hget.1

/-- Handles may change in all but the file that they keep open. -/
theorem WellFormed.withHandles (h : fs.WellFormed) {handles : Table HandleId OpenFile}
    (hold : ∀ handle file, handles.get? handle = some file →
      ∃ old, fs.handles.get? handle = some old ∧ old.file = file.file) :
    ({ fs with handles := handles } : FileSystem).WellFormed where
  file_lt := h.file_lt
  handle_lt handle file hget := by
    obtain ⟨old, hget', -⟩ := hold handle file hget
    exact h.handle_lt handle old hget'
  open_lt handle file hget := by
    obtain ⟨old, hget', hfile⟩ := hold handle file hget
    exact hfile ▸ h.open_lt handle old hget'
  named := h.named

/-- An open file can be changed as long as it stays the same file. -/
theorem WellFormed.modifyHandle (h : fs.WellFormed) (handle : HandleId)
    {change : OpenFile → OpenFile} (hchange : ∀ file, (change file).file = file.file) :
    (fs.modifyHandle handle change).WellFormed := by
  refine h.withHandles fun other file hget => ?_
  rw [Table.get?_modify] at hget
  split at hget
  · obtain ⟨old, hold, rfl⟩ := Option.map_eq_some_iff.mp hget
    exact ⟨old, hold, (hchange old).symm⟩
  · exact ⟨file, hget, rfl⟩

/-- A file that was given out can be opened. -/
theorem WellFormed.addHandle (h : fs.WellFormed) {file : OpenFile} (hlt : file.file < fs.next) :
    (fs.addHandle file).2.WellFormed where
  file_lt place id hget := Nat.lt_succ_of_lt (h.file_lt place id hget)
  handle_lt handle other hget := by
    rw [FileSystem.addHandle, Table.get?_set] at hget
    split at hget
    · rename_i hhandle
      exact hhandle ▸ Nat.lt_succ_self _
    · exact Nat.lt_succ_of_lt (h.handle_lt handle other hget)
  open_lt handle other hget := by
    rw [FileSystem.addHandle, Table.get?_set] at hget
    split at hget
    · cases hget
      exact Nat.lt_succ_of_lt hlt
    · exact Nat.lt_succ_of_lt (h.open_lt handle other hget)
  named := h.named

/-- The file system in which a new file is open for writing, in two steps. -/
theorem drafting_eq_addHandle (fs : FileSystem) (path : Path) (place : Location) (content : Bytes)
    (writes : Nat) :
    fs.drafting path place content writes =
      ((fs.planting place ⟨content, entryMode, fs.now⟩).addHandle
        (fs.writer path content writes)).2 := rfl

/-- A new file can be created under a name and be written. -/
theorem WellFormed.drafting (h : fs.WellFormed) {directory : Location} {name : Bytes}
    (hname : IsName name) (hlength : name.length ≤ nameLimit) (path : Path) (content : Bytes)
    (writes : Nat) : (fs.drafting path (directory.child name) content writes).WellFormed := by
  rw [drafting_eq_addHandle]
  exact (h.planting hname hlength _).addHandle (Nat.lt_succ_self fs.next)

/-- Who may write a file has locked it for himself. -/
def Guarded (fs : FileSystem) : Prop :=
  ∀ handle file, fs.handles.get? handle = some file → file.writable = true →
    file.lock = .exclusive

/-! ## What every change keeps -/

namespace Change

/-- A change leaves the working directory where it is. -/
theorem current_eq (h : Change free fs fs') : fs'.current = fs.current := by
  cases h <;> rfl

/-- Identities that were given out stay given out. -/
theorem next_le (h : Change free fs fs') : fs.next ≤ fs'.next := by
  cases h with
  | makeLink | plant | openFile => exact Nat.le_succ _
  | create => exact Nat.le_add_right _ 2
  | _ => exact Nat.le_refl _

/-- A change keeps a file system well formed. -/
theorem wellFormed (h : Change free fs fs') (hwf : fs.WellFormed) : fs'.WellFormed := by
  cases h with
  | clock time => exact ⟨hwf.file_lt, hwf.handle_lt, hwf.open_lt, hwf.named⟩
  | date id time => exact ⟨hwf.file_lt, hwf.handle_lt, hwf.open_lt, hwf.named⟩
  | makeDirectory hfree => exact hwf.bind (fun _ e => by cases e) fun _ _ _ _ e => by cases e
  | makeLink hlinks hfree hzero =>
      exact (hwf.bind (fun _ e => by cases e) fun _ _ _ _ e => by cases e).spent
  | addName hlinks hfree hname hlength hget =>
      refine hwf.bind (fun id e => hwf.file_lt _ id (e ▸ hget)) fun _ _ _ e _ => ?_
      rw [← (Location.child_inj.mp e).2]
      exact ⟨hname, hlength⟩
  | remove hnames keep => exact hwf.filter keep
  | plant hfree hname hlength file => exact hwf.planting hname hlength file
  | rewrite hcontents hmay edit => exact ⟨hwf.file_lt, hwf.handle_lt, hwf.open_lt, hwf.named⟩
  | openFile path hget hlock => exact hwf.addHandle (hwf.file_lt _ _ hget)
  | create path hfree hname hlength => exact hwf.drafting hname hlength path [] 0
  | map hhandle hget length => exact hwf.modifyHandle _ fun _ => rfl
  | write hhandle hget hwritable data =>
      exact ⟨hwf.file_lt, hwf.handle_lt, hwf.open_lt, hwf.named⟩
  | advance hhandle count => exact hwf.modifyHandle _ fun _ => rfl
  | close hhandle =>
      refine hwf.withHandles fun other file hget => ⟨file, ?_, rfl⟩
      rw [Table.get?_erase] at hget
      split at hget
      · cases hget
      · exact hget

/-- What stands somewhere after a change stood there before, or it is new. -/
theorem origin (h : Change free fs fs') {place : Location} {node : Node}
    (hget : fs'.tree.get? place = some node) :
    (∃ other, fs.tree.get? other = some node) ∨ node = .directory ∨ node = .file fs.next ∨
      ∃ target, node = .link fs.next target ∧ 0 ∉ target := by
  have hbind : ∀ (other : Location) (new : Node),
      (fs.tree.set other new).get? place = some node →
      fs.tree.get? place = some node ∨ node = new := by
    intro other new h
    rw [Table.get?_set] at h
    split at h
    · exact Or.inr (Option.some.inj h).symm
    · exact Or.inl h
  cases h with
  | makeDirectory hfree =>
      rcases hbind _ _ hget with h | h
      · exact Or.inl ⟨place, h⟩
      · exact Or.inr (Or.inl h)
  | makeLink hlinks hfree hzero =>
      rcases hbind _ _ hget with h | h
      · exact Or.inl ⟨place, h⟩
      · exact Or.inr (Or.inr (Or.inr ⟨_, h, hzero⟩))
  | addName hlinks hfree hname hlength hother =>
      rcases hbind _ _ hget with h | h
      · exact Or.inl ⟨place, h⟩
      · exact Or.inl ⟨_, h ▸ hother⟩
  | remove hnames keep =>
      rw [Table.get?_filter, Option.filter_eq_some_iff] at hget
      exact Or.inl ⟨place, hget.1⟩
  | plant | create =>
      rcases hbind _ _ hget with h | h
      · exact Or.inl ⟨place, h⟩
      · exact Or.inr (Or.inr (Or.inl h))
  | _ => exact Or.inl ⟨place, hget⟩

/-- A change keeps zero bytes out of links. -/
theorem legible (h : Change free fs fs') (hlegible : fs.Legible) : fs'.Legible := by
  intro place id target hget
  rcases h.origin hget with ⟨other, hother⟩ | hnode | hnode | ⟨new, hnode, hzero⟩
  · exact hlegible other id target hother
  · cases hnode
  · cases hnode
  · cases hnode
    exact hzero

/-- Open files that nobody may use stay as they are. -/
theorem handles_kept (h : Change free fs fs') (hwf : fs.WellFormed) {handle : HandleId}
    (hnot : ¬free.handles handle) {file : OpenFile} (hget : fs.handles.get? handle = some file) :
    fs'.handles.get? handle = some file := by
  have hlt : handle < fs.next := hwf.handle_lt handle file hget
  cases h with
  | openFile path hplace hlock =>
      exact (Table.get?_set_ne _ (Nat.ne_of_lt hlt) _).trans hget
  | create path hfree hname hlength =>
      exact (Table.get?_set_ne _ (Nat.ne_of_lt (Nat.lt_succ_of_lt hlt)) _).trans hget
  | @map other file hhandle hother length =>
      have hne : handle ≠ other := fun e => hnot (e ▸ hhandle)
      exact (Table.get?_modify _ _ _ _).trans ((if_neg hne).trans hget)
  | @advance other hhandle count =>
      have hne : handle ≠ other := fun e => hnot (e ▸ hhandle)
      exact (Table.get?_modify _ _ _ _).trans ((if_neg hne).trans hget)
  | @close other hhandle =>
      have hne : handle ≠ other := fun e => hnot (e ▸ hhandle)
      exact (Table.get?_erase_ne _ hne).trans hget
  | _ => exact hget

/-- A handle was there before on the same file with the same lock, or a file that was there is read
through it, under a lock that was granted, or a new file is written through it. -/
theorem handle_origin (h : Change free fs fs') {handle : HandleId} {file : OpenFile}
    (hget : fs'.handles.get? handle = some file) :
    (∃ old, fs.handles.get? handle = some old ∧ old.file = file.file ∧ old.lock = file.lock ∧
      old.writable = file.writable) ∨
    (fs.lockable file.file file.lock = true ∧ file.writable = false) ∨
    (file.file = fs.next ∧ file.lock = .exclusive) := by
  have hmodify : ∀ (other : HandleId) (change : OpenFile → OpenFile),
      (∀ file, (change file).file = file.file ∧ (change file).lock = file.lock ∧
        (change file).writable = file.writable) →
      (fs.handles.modify other change).get? handle = some file →
      ∃ old, fs.handles.get? handle = some old ∧ old.file = file.file ∧ old.lock = file.lock ∧
        old.writable = file.writable := by
    intro other change hchange hget
    rw [Table.get?_modify] at hget
    split at hget
    · obtain ⟨old, hold, rfl⟩ := Option.map_eq_some_iff.mp hget
      obtain ⟨hfile, hlock, hwritable⟩ := hchange old
      exact ⟨old, hold, hfile.symm, hlock.symm, hwritable.symm⟩
    · exact ⟨file, hget, rfl, rfl, rfl⟩
  cases h with
  | @openFile place id lock path hplace hlock =>
      have hget : (fs.handles.set fs.next (fs.opened path lock id)).get? handle = some file := hget
      rw [Table.get?_set] at hget
      split at hget
      · cases hget
        exact Or.inr (Or.inl ⟨hlock, rfl⟩)
      · exact Or.inl ⟨file, hget, rfl, rfl, rfl⟩
  | create path hfree hname hlength =>
      have hget : (fs.handles.set (fs.next + 1) (fs.writer path [] 0)).get? handle = some file :=
        hget
      rw [Table.get?_set] at hget
      split at hget
      · cases hget
        exact Or.inr (Or.inr ⟨rfl, rfl⟩)
      · exact Or.inl ⟨file, hget, rfl, rfl, rfl⟩
  | map hhandle hother length =>
      exact Or.inl (hmodify _ (fun file => { file with mapped := some length })
        (fun _ => ⟨rfl, rfl, rfl⟩) hget)
  | advance hhandle count =>
      exact Or.inl (hmodify _
        (fun file => { file with size := file.size + count, writes := file.writes + 1 })
        (fun _ => ⟨rfl, rfl, rfl⟩) hget)
  | @close other hhandle =>
      have hget : (fs.handles.erase other).get? handle = some file := hget
      rw [Table.get?_erase] at hget
      split at hget
      · cases hget
      · exact Or.inl ⟨file, hget, rfl, rfl, rfl⟩
  | _ => exact Or.inl ⟨file, hget, rfl, rfl, rfl⟩

/-- Who writes a file has it alone. -/
theorem guarded (h : Change free fs fs') (hguarded : fs.Guarded) : fs'.Guarded := by
  intro handle file hget hwritable
  rcases h.handle_origin hget with ⟨old, hold, -, hlock, hwritable'⟩ | ⟨-, hread⟩ | ⟨-, hlock⟩
  · exact hlock ▸ hguarded handle old hold (hwritable'.trans hwritable)
  · rw [hwritable] at hread
    cases hread
  · exact hlock

/-- A file keeps its content if its owner may not write it by its path, where that is done at all,
and nobody may write it through an open file. -/
theorem contents_eq (h : Change free fs fs') {id : FileId} (hlt : id < fs.next)
    (hpath : free.contents → fs.mayWrite id = false)
    (hwrite : ∀ handle file, free.handles handle → fs.handles.get? handle = some file →
      file.file = id → file.writable = false) : fs'.contents id = fs.contents id := by
  have hmodify : ∀ (other : FileId) (change : FileData → FileData), id ≠ other →
      (fs.modifyFile other change).contents id = fs.contents id := by
    intro other change hne
    unfold contents modifyFile
    rw [Table.get?_modify, if_neg hne]
  cases h with
  | date other time => exact contents_setAccessTime fs other id time
  | plant hfree hname hlength file => exact contents_planting_of_lt hlt
  | @create directory name path hfree hname hlength =>
      have hstoring : (fs.storing (directory.child name) []).contents id = fs.contents id :=
        contents_storing_of_lt hlt
      exact hstoring
  | @rewrite other hcontents hmay edit =>
      refine hmodify _ _ fun e => ?_
      rw [← e, hpath hcontents] at hmay
      cases hmay
  | @write handle file hhandle hget hwritable data =>
      refine hmodify _ _ fun e => ?_
      rw [hwrite handle file hhandle hget e.symm] at hwritable
      cases hwritable
  | _ => rfl

/-- A file stays, whatever becomes of its names, and its permission bits stay as they are. -/
theorem file_eq (h : Change free fs fs') {id : FileId} (hlt : id < fs.next) :
    ∃ change : FileData → FileData, (∀ file, (change file).mode = file.mode) ∧
      fs'.files.get? id = (fs.files.get? id).map change := by
  have hsame : ∀ files : Table FileId FileData, files.get? id = fs.files.get? id →
      ∃ change : FileData → FileData, (∀ file, (change file).mode = file.mode) ∧
        files.get? id = (fs.files.get? id).map change :=
    fun files hget => ⟨fun file => file, fun _ => rfl, by rw [hget, Option.map_id']⟩
  have hmodify : ∀ (other : FileId) (edit : FileData → FileData),
      (∀ file, (edit file).mode = file.mode) →
      ∃ change : FileData → FileData, (∀ file, (change file).mode = file.mode) ∧
        (fs.modifyFile other edit).files.get? id = (fs.files.get? id).map change := by
    intro other edit hmode
    unfold modifyFile
    by_cases hother : id = other
    · exact ⟨edit, hmode, by rw [Table.get?_modify, if_pos hother]⟩
    · exact hsame _ (by rw [Table.get?_modify, if_neg hother])
  cases h with
  | date other time => exact hmodify _ _ fun _ => rfl
  | rewrite hcontents hmay edit => exact hmodify _ _ fun _ => rfl
  | write hhandle hget hwritable data => exact hmodify _ _ fun _ => rfl
  | plant | create => exact hsame _ (Table.get?_set_ne _ (Nat.ne_of_lt hlt) _)
  | _ => exact hsame _ rfl

/-- No change alters who may write a file that was given out. -/
theorem mayWrite_eq (h : Change free fs fs') {id : FileId} (hlt : id < fs.next) :
    fs'.mayWrite id = fs.mayWrite id := by
  obtain ⟨change, hmode, hget⟩ := h.file_eq hlt
  unfold mayWrite
  rw [hget, Option.map_map]
  simp only [Function.comp_def, hmode]

/-- Names that nobody may take away stay. -/
theorem names_kept (h : Change free fs fs') (hnot : ¬free.names) {place : Location} {node : Node}
    (hget : fs.tree.get? place = some node) : fs'.tree.get? place = some node := by
  cases h with
  | makeDirectory hfree => exact get?_bind_of_free hfree hget
  | makeLink hlinks hfree hzero => exact get?_bind_of_free hfree hget
  | addName hlinks hfree hname hlength hother => exact get?_bind_of_free hfree hget
  | remove hnames keep => exact absurd hnames hnot
  | plant hfree hname hlength file => exact get?_bind_of_free hfree hget
  | create path hfree hname hlength => exact get?_bind_of_free hfree hget
  | _ => exact hget

/-- A file that nobody may give a further name gets none. -/
theorem links_le (h : Change free fs fs') (hnot : ¬free.links) {id : FileId} (hlt : id < fs.next) :
    fs'.linkCount (.file id) ≤ fs.linkCount (.file id) := by
  have hbind : ∀ (place : Location) (node : Node), node ≠ .file id →
      (fs.bind place node).linkCount (.file id) ≤ fs.linkCount (.file id) := by
    intro place node hne
    have := linkCount_bind_le fs place node (.file id)
    rwa [if_neg hne] at this
  have hfresh : Node.file fs.next ≠ .file id := fun e => Nat.ne_of_gt hlt (Node.file.inj e)
  cases h with
  | makeDirectory hfree => exact hbind _ _ (by simp)
  | makeLink hlinks hfree hzero => exact absurd hlinks hnot
  | addName hlinks hfree hname hlength hget => exact absurd hlinks hnot
  | remove hnames keep => exact List.Sublist.countP_le List.filter_sublist
  | plant hfree hname hlength file => exact hbind _ _ hfresh
  | create path hfree hname hlength => exact hbind _ _ hfresh
  | _ => exact Nat.le_refl _

/-- Who has more freedom can do the same. -/
theorem mono {other : Freedom} (h : Change free fs fs')
    (hhandles : ∀ handle, free.handles handle → other.handles handle)
    (hnames : free.names → other.names) (hlinks : free.links → other.links)
    (hcontents : free.contents → other.contents) : Change other fs fs' := by
  cases h with
  | clock time => exact .clock time
  | date id time => exact .date id time
  | makeDirectory hfree => exact .makeDirectory hfree
  | makeLink hl hfree hzero => exact .makeLink (hlinks hl) hfree hzero
  | addName hl hfree hname hlength hget => exact .addName (hlinks hl) hfree hname hlength hget
  | remove hn keep => exact .remove (hnames hn) keep
  | plant hfree hname hlength file => exact .plant hfree hname hlength file
  | rewrite hc hmay edit => exact .rewrite (hcontents hc) hmay edit
  | openFile path hget hlock => exact .openFile path hget hlock
  | create path hfree hname hlength => exact .create path hfree hname hlength
  | map hh hget length => exact .map (hhandles _ hh) hget length
  | write hh hget hwritable data => exact .write (hhandles _ hh) hget hwritable data
  | advance hh count => exact .advance (hhandles _ hh) count
  | close hh => exact .close (hhandles _ hh)

end Change

/-- A file system that somebody with this freedom can set to work on: handles that are yet to be
given out are free to use. -/
structure Ready (free : Freedom) (fs : FileSystem) : Prop where
  /-- The file system is well formed. -/
  wellFormed : fs.WellFormed
  /-- No symbolic link has a zero byte in it. -/
  legible : fs.Legible
  /-- Whoever opens a file may use it. -/
  fresh : ∀ handle, fs.next ≤ handle → free.handles handle

namespace Changes

/-- No changes at all. -/
theorem refl (free : Freedom) (fs : FileSystem) : fs.Changes free fs := Relation.ReflTransGen.refl

/-- One change. -/
theorem single (h : Change free fs fs') : fs.Changes free fs' := Relation.ReflTransGen.single h

/-- Changes, and more changes after them. -/
theorem trans (h : fs.Changes free fs') (h' : fs'.Changes free fs'') : fs.Changes free fs'' :=
  Relation.ReflTransGen.trans h h'

/-- Changes, and one more after them. -/
theorem change (h : fs.Changes free fs') (h' : Change free fs' fs'') : fs.Changes free fs'' :=
  Relation.ReflTransGen.tail h h'

/-- Changes leave the working directory where it is. -/
theorem current_eq (h : fs.Changes free fs') : fs'.current = fs.current := by
  induction h with
  | refl => rfl
  | tail _ hchange ih => exact hchange.current_eq.trans ih

/-- Identities that were given out stay given out. -/
theorem next_le (h : fs.Changes free fs') : fs.next ≤ fs'.next := by
  induction h with
  | refl => exact Nat.le_refl _
  | tail _ hchange ih => exact Nat.le_trans ih hchange.next_le

/-- Changes keep a file system well formed. -/
theorem wellFormed (h : fs.Changes free fs') (hwf : fs.WellFormed) : fs'.WellFormed := by
  induction h with
  | refl => exact hwf
  | tail _ hchange ih => exact hchange.wellFormed ih

/-- Changes keep zero bytes out of links. -/
theorem legible (h : fs.Changes free fs') (hlegible : fs.Legible) : fs'.Legible := by
  induction h with
  | refl => exact hlegible
  | tail _ hchange ih => exact hchange.legible ih

/-- Changes keep to the rule that who may write a file has locked it for himself. -/
theorem guarded (h : fs.Changes free fs') (hguarded : fs.Guarded) : fs'.Guarded := by
  induction h with
  | refl => exact hguarded
  | tail _ hchange ih => exact hchange.guarded ih

/-- Changes leave it as it is who may write a file. -/
theorem mayWrite_eq (h : fs.Changes free fs') {id : FileId} (hlt : id < fs.next) :
    fs'.mayWrite id = fs.mayWrite id := by
  induction h with
  | refl => rfl
  | tail hchanges hchange ih =>
      exact (hchange.mayWrite_eq (Nat.lt_of_lt_of_le hlt (next_le hchanges))).trans ih

/-- What is ready for some changes is ready for more of them afterwards. -/
theorem ready (h : fs.Changes free fs') (hready : fs.Ready free) : fs'.Ready free where
  wellFormed := h.wellFormed hready.wellFormed
  legible := h.legible hready.legible
  fresh handle hle := hready.fresh handle (Nat.le_trans h.next_le hle)

/-- Where no name may be taken away, what is bound stays bound. -/
theorem names_kept (h : fs.Changes free fs') (hnot : ¬free.names) {place : Location} {node : Node}
    (hget : fs.tree.get? place = some node) : fs'.tree.get? place = some node := by
  induction h with
  | refl => exact hget
  | tail _ hchange ih => exact hchange.names_kept hnot ih

/-- Where no links may be made, a file has no more names than before. -/
theorem links_le (h : fs.Changes free fs') (hnot : ¬free.links) {id : FileId}
    (hlt : id < fs.next) : fs'.linkCount (.file id) ≤ fs.linkCount (.file id) := by
  induction h with
  | refl => exact Nat.le_refl _
  | tail hchanges hchange ih =>
      exact Nat.le_trans (hchange.links_le hnot (Nat.lt_of_lt_of_le hlt (next_le hchanges))) ih

/-- A path leads where it led if no name goes. -/
theorem leads (h : fs.Changes free fs') (hnot : ¬free.names) {path : Path} {location : Location}
    (hlead : fs.Leads path location) : fs'.Leads path location :=
  hlead.mono h.current_eq fun _ _ hget _ => h.names_kept hnot hget

/-- Changes of some freedom are changes of a greater one. -/
theorem mono {other : Freedom} (h : fs.Changes free fs')
    (hhandles : ∀ handle, free.handles handle → other.handles handle)
    (hnames : free.names → other.names) (hlinks : free.links → other.links)
    (hcontents : free.contents → other.contents) : fs.Changes other fs' := by
  induction h with
  | refl => exact .refl _ _
  | tail _ hchange ih => exact ih.change (hchange.mono hhandles hnames hlinks hcontents)

end Changes

/-! ## Operations on entries -/

/-- What is found at a path is a directory, or it is bound where it was found. -/
theorem nodeAt_sound {path : Path} (hlegible : fs.Legible) {place : Location} {node : Node}
    (h : fs.nodeAt path = .ok (place, node)) :
    node = .directory ∨ fs.tree.get? place = some node := by
  unfold nodeAt at h
  rcases hspot : fs.resolve path with cause | ⟨found, other⟩ | ⟨parent, name⟩ <;>
    rw [hspot] at h
  · cases h
  · cases h
    exact resolve_sound hlegible hspot
  · cases h

/-- What is opened by its path stands somewhere. -/
theorem openNode_sound {path : Path} (hlegible : fs.Legible) {id : FileId}
    (h : fs.openNode path = .ok (.file id)) : ∃ place, fs.tree.get? place = some (.file id) := by
  have hown : ∃ place, fs.ownNodeAt path = .ok (place, .file id) := by
    unfold openNode at h
    rcases hown : fs.ownNodeAt path with cause | ⟨place, _ | _ | file⟩ <;> rw [hown] at h
    · cases h
    · cases h
    · cases h
    · cases h
      exact ⟨place, rfl⟩
  obtain ⟨place, hown⟩ := hown
  have hnode : fs.nodeAt path = .ok (place, .file id) → fs.tree.get? place = some (.file id) :=
    fun hnode => (nodeAt_sound hlegible hnode).resolve_left (by simp)
  refine ⟨place, ?_⟩
  unfold ownNodeAt at hown
  rcases hlast : fs.resolveLast path with cause | ⟨parent, name, _ | _⟩ | spot <;>
    simp only [hlast, except_ok_bind, except_error_bind] at hown
  · cases hown
  · rcases hin : fs.nodeIn parent name with cause | _ | node <;> rw [hin] at hown
    · cases hown
    · cases hown
    · cases hown
      exact (nodeIn_eq_ok_iff.mp hin).2
  · exact hnode hown
  · exact hnode hown

/-- What can be locked is one file with one name at most, and no lock stands against it. -/
theorem of_granted {path : Path} {lock : Lock} {id : FileId} (h : fs.granted path lock = .ok id) :
    fs.openNode path = .ok (.file id) ∧ fs.linkCount (.file id) ≤ 1 ∧
      fs.lockable id lock = true := by
  unfold granted at h
  rcases hopen : fs.openNode path with cause | _ | _ | file <;> rw [hopen] at h
  · cases h
  · cases h
  · cases h
  · simp only at h
    split at h
    · cases h
    · rename_i hlinks
      split at h
      · rename_i hlock
        cases h
        exact ⟨rfl, Nat.le_of_not_lt hlinks, hlock⟩
      · cases h

/-- Opening an entry is refused, or there is one more handle. -/
theorem openEntry_cases (hlegible : fs.Legible) (path : Path) (lock : Lock) :
    (∃ error, fs.openEntry path lock = (.error error, fs)) ∨
      ∃ id, Change free fs (fs.addHandle (fs.opened path lock id)).2 ∧
        fs.openEntry path lock = (.ok fs.next, (fs.addHandle (fs.opened path lock id)).2) := by
  rw [openEntry_eq]
  rcases hgranted : fs.granted path lock with error | id
  · exact Or.inl ⟨error, rfl⟩
  · obtain ⟨hopen, -, hlock⟩ := of_granted hgranted
    obtain ⟨place, hget⟩ := openNode_sound hlegible hopen
    exact Or.inr ⟨id, .openFile path hget hlock, rfl⟩

/-- Creating an entry is refused, or there is a new file that is open for writing. -/
theorem createEntry_cases (fs : FileSystem) (path : Path) :
    (∃ error, fs.createEntry path = (.error error, fs)) ∨
      ∃ (directory : Location) (name : Bytes),
        fs.tree.get? (directory.child name) = none ∧ IsName name ∧ name.length ≤ nameLimit ∧
        fs.createEntry path =
          (.ok (fs.next + 1), fs.drafting path (directory.child name) [] 0) := by
  unfold createEntry create
  rcases hlast : fs.resolveLast path with cause | ⟨parent, name, _ | _⟩ | spot
  · exact Or.inl ⟨_, rfl⟩
  · simp only [except_ok_bind]
    rcases hnode : fs.nodeIn parent name with cause | _ | node
    · exact Or.inl ⟨_, rfl⟩
    · obtain ⟨hlength, hfree⟩ := nodeIn_eq_ok_iff.mp hnode
      exact Or.inr ⟨parent, name, hfree, isName_of_resolveLast hlast, hlength, rfl⟩
    · exact Or.inl ⟨_, rfl⟩
  · exact Or.inl ⟨_, rfl⟩
  · exact Or.inl ⟨_, rfl⟩

/-- A file is created by a path only that is not too long. -/
theorem length_lt_of_createEntry {path : Path} {handle : HandleId}
    (h : (fs.createEntry path).1 = .ok handle) : path.length < pathLimit := by
  rcases hcheck : checkPath path with cause | ⟨⟩
  · have hcreate : fs.create path entryMode = .error cause := by
      unfold create resolveLast
      rw [hcheck]
      rfl
    unfold createEntry at h
    rw [hcreate] at h
    cases h
  · exact (checkPath_eq_ok_iff.mp hcheck).2.2

/-- To map an open file changes nothing but this file. -/
theorem mapEntry_changes {handle : HandleId} (hhandle : free.handles handle) :
    fs.Changes free (fs.mapEntry handle).2 := by
  unfold mapEntry
  rcases hget : fs.handles.get? handle with _ | file
  · exact .refl _ _
  · simp only
    split
    · exact .refl _ _
    · exact .single (.map hhandle hget _)

/-- To write to an open file changes this file and its content. -/
theorem writeEntry_changes {handle : HandleId} (hhandle : free.handles handle) (data : Bytes) :
    fs.Changes free (fs.writeEntry handle data).2 := by
  unfold writeEntry
  rcases hget : fs.handles.get? handle with _ | file
  · exact .refl _ _
  · simp only
    split
    · exact .refl _ _
    · split
      · rename_i hwritable
        exact (Changes.single (.write hhandle hget hwritable data)).change
          (.advance hhandle data.length)
      · exact .refl _ _

/-- So does a write that breaks off. -/
theorem partialWrite_changes {handle : HandleId} (hhandle : free.handles handle) (kept : Nat)
    (data : Bytes) : fs.Changes free (Faults.partialWrite kept handle data fs).2 := by
  unfold Faults.partialWrite
  rcases hget : fs.handles.get? handle with _ | file
  · exact .refl _ _
  · simp only
    split
    · exact .refl _ _
    · rename_i hwritable
      refine .single (.write hhandle hget ?_ _)
      simp only [Bool.or_eq_true, not_or, Bool.not_eq_true, Bool.not_eq_false'] at hwritable
      exact hwritable.2

/-- Taking one name away. -/
theorem Change.unbind (hnames : free.names) (place : Location) :
    Change free fs (fs.unbind place) := .remove hnames _

/-- To unlink a path takes one name away. -/
theorem unlink_changes (hnames : free.names) {path : Path} {removed : FileSystem}
    (h : fs.unlink path = .ok removed) : Change free fs removed := by
  obtain ⟨parent, name, node, -, -, -, rfl⟩ := unlink_eq_ok_iff.mp h
  exact .unbind hnames _

/-- To remove an entry takes its name away or nothing. -/
theorem removeEntry_changes (hnames : free.names) (path : Path) :
    fs.Changes free (fs.removeEntry path).2 := by
  unfold removeEntry
  rcases hunlink : fs.unlink path with cause | removed
  · exact .refl _ _
  · exact .single (unlink_changes hnames hunlink)

/-- Making directories binds free names to directories. -/
theorem makeDirectories_changes (free : Freedom) (fs : FileSystem) (path : Path) :
    fs.Changes free (fs.makeDirectories path).2 :=
  makeDirectories_induction (fun _ _ h hfree => h.change (.makeDirectory hfree)) (.refl _ _) path

/-! ## Operations on any files -/

/-- Setting the times of a file, or creating it for that, is a number of changes. -/
theorem touch_changes {path : Path} {time : Int} {touched : FileSystem}
    (h : fs.touch path time = .ok touched) : fs.Changes free touched := by
  unfold touch at h
  rcases hnode : fs.nodeAt path with cause | ⟨place, _ | _ | id⟩ <;> rw [hnode] at h <;> cases h
  · exact .refl _ _
  · exact .refl _ _
  · exact .single (.date id time)

/-- Opening a file by its path, to write it. -/
theorem truncate_changes (hlegible : fs.Legible) (hcontents : free.contents) {path : Path}
    {id : FileId} {opened : FileSystem} (h : fs.truncate path = .ok (id, opened)) :
    Change free fs opened := by
  rcases truncate_cases hlegible h with ⟨place, -, hmay, rfl⟩ |
    ⟨parent, name, -, hfree, hname, hlength, -, rfl⟩
  · exact .rewrite hcontents hmay fun _ => []
  · exact .plant hfree hname hlength _

/-- Writing a file by its path once it was opened. -/
theorem append_truncate_changes (hlegible : fs.Legible) (hcontents : free.contents) {path : Path}
    {id : FileId} {opened written : FileSystem} {data : Bytes}
    (h : fs.truncate path = .ok (id, opened)) (happend : opened.append path data = .ok written) :
    Change free opened written := by
  obtain ⟨hfile, hmay⟩ := fileAt_truncate hlegible h
  unfold append at happend
  rw [hfile] at happend
  cases happend
  exact .rewrite hcontents hmay fun bytes => splice bytes (opened.contents id).length data

/-- Replacing a file takes a name away at most, and makes a new file. -/
theorem replace_changes (hlegible : fs.Legible) (hnames : free.names) (path : Path)
    (bytes : Bytes) (time : Option Int) : fs.Changes free (fs.replace path bytes time).2 := by
  have hcleared : fs.Changes free ((fs.unlink path).toOption.getD fs) := by
    rcases hunlink : fs.unlink path with cause | removed
    · exact .refl _ _
    · exact .single (unlink_changes hnames hunlink)
  have hfresh : ∀ place id, ((fs.unlink path).toOption.getD fs).resolveForCreation path ≠
      .ok (.occupied place (.file id)) := fun _ _ => resolveForCreation_unlinked
  unfold replace
  generalize (fs.unlink path).toOption.getD fs = cleared at hcleared hfresh
  simp only
  rcases htruncate : cleared.truncate path with cause | ⟨id, opened⟩
  · exact hcleared
  · rcases truncate_cases (hcleared.legible hlegible) htruncate with ⟨place, hspot, -, -⟩ |
      ⟨parent, name, -, hfree, hname, hlength, rfl, rfl⟩
    · exact absurd hspot (hfresh place id)
    · have hwritten : ((cleared.addFile (parent.child name) plainMode []).2.writeAt cleared.next 0
          bytes).setAccessTime cleared.next (time.getD fs.now) =
          cleared.planting (parent.child name) ⟨bytes, plainMode, time.getD fs.now⟩ :=
        writeAt_addFile bytes _
      have hplant : Change free cleared _ :=
        .plant hfree hname hlength ⟨bytes, plainMode, time.getD fs.now⟩
      rw [← hwritten] at hplant
      exact hcleared.change hplant

/-- Damaging a file plants another file in its place. -/
theorem damage_changes (hlegible : fs.Legible) (hnames : free.names) (path : Path) (index : Nat)
    (mask : UInt8) : fs.Changes free (fs.damage path index mask).2 := by
  unfold damage
  rcases fs.fileAt path with cause | id
  · exact .refl _ _
  · simp only
    split
    · exact replace_changes hlegible hnames path _ _
    · exact .refl _ _

/-- Making a symbolic link binds a free name. -/
theorem makeLink_changes (hlinks : free.links) {path target : Path} {made : FileSystem}
    (h : fs.makeLink path target = .ok made) : Change free fs made := by
  unfold makeLink at h
  rcases hcheck : checkPath target with cause | ⟨⟩ <;> rw [hcheck] at h
  · cases h
  rcases hplace : fs.vacancy path (some .noEntry) with cause | place <;> rw [hplace] at h
  · cases h
  · cases h
    exact .makeLink hlinks (get?_of_vacancy hplace) (checkPath_eq_ok_iff.mp hcheck).1

/-- What a further name is bound to stood somewhere before. -/
theorem addName_sound {path target : Path} {made : FileSystem}
    (h : fs.addName path target = .ok made) :
    ∃ (directory : Location) (name : Bytes) (other : Location) (node : Node),
      fs.tree.get? (directory.child name) = none ∧ IsName name ∧ name.length ≤ nameLimit ∧
      fs.tree.get? other = some node ∧ made = fs.bind (directory.child name) node := by
  unfold addName at h
  rcases hlast : fs.resolveLast target with cause | ⟨parent, name, slash⟩ | spot <;>
    simp only [hlast, except_ok_bind, except_error_bind] at h
  · cases h
  · rcases hnode : fs.nodeIn parent name with cause | _ | node <;>
      simp only [hnode, except_ok_bind, except_error_bind] at h
    · cases h
    · cases h
    · have hget := (nodeIn_eq_ok_iff.mp hnode).2
      cases slash with
      | true => cases node <;> cases h
      | false =>
        rcases hplace : fs.vacancy path (some .noEntry) with cause | place <;>
          simp only [hplace, except_ok_bind, except_error_bind] at h
        · cases node <;> cases h
        · obtain ⟨directory, new, rfl, hfree, hname, hlength⟩ := vacancy_sound hplace
          cases node with
          | directory => cases h
          | link id target =>
              cases h
              exact ⟨directory, new, _, _, hfree, hname, hlength, hget, rfl⟩
          | file id =>
              cases h
              exact ⟨directory, new, _, _, hfree, hname, hlength, hget, rfl⟩
  · cases h

/-- Giving a file another name binds a free name. -/
theorem addName_changes (hlinks : free.links) {path target : Path} {made : FileSystem}
    (h : fs.addName path target = .ok made) : Change free fs made := by
  obtain ⟨directory, name, other, node, hfree, hname, hlength, hget, rfl⟩ := addName_sound h
  exact .addName hlinks hfree hname hlength hget

/-- Removing a directory takes one name away. -/
theorem removeDirectory_sound {path : Path} {removed : FileSystem}
    (h : fs.removeDirectory path = .ok removed) : ∃ place, removed = fs.unbind place := by
  unfold removeDirectory at h
  rcases hlast : fs.resolveLast path with cause | ⟨parent, name, slash⟩ | spot <;>
    simp only [hlast, except_ok_bind, except_error_bind] at h
  · cases h
  · rcases hnode : fs.nodeIn parent name with cause | _ | _ | _ | _ <;>
      simp only [hnode, except_ok_bind, except_error_bind] at h
    · cases h
    · cases h
    · split at h
      · cases h
        exact ⟨_, rfl⟩
      · cases h
    · cases h
    · cases h
  · cases h

/-- Removing a tree takes names away. -/
theorem removeTree_changes (hnames : free.names) (path : Path) :
    fs.Changes free (fs.removeTree path).2 := by
  unfold removeTree
  rcases fs.ownNodeAt path with cause | ⟨place, _ | _ | id⟩
  · exact .refl _ _
  · have hemptied : fs.Changes free (fs.clearBelow place) := .single (.remove hnames _)
    simp only
    rcases hremoved : (fs.clearBelow place).removeDirectory path with cause | removed
    · split
      · rename_i h
        cases h
      · exact hemptied
      · exact hemptied
    · obtain ⟨other, rfl⟩ := removeDirectory_sound hremoved
      exact hemptied.change (.unbind hnames other)
  · exact .single (.unbind hnames _)
  · exact .refl _ _

/-- Whatever others do is made of changes, for one who may take names away and make links. -/
theorem meddling_changes (hlegible : fs.Legible) (hnames : free.names) (hlinks : free.links)
    (change : Session.Meddling) : fs.Changes free (change.apply fs).2 := by
  have hsettle : ∀ result : Except Cause FileSystem,
      (∀ changed, result = .ok changed → fs.Changes free changed) →
      fs.Changes free (Session.settle fs result).2 := by
    intro result h
    rcases result with cause | changed
    · exact .refl _ _
    · exact h changed rfl
  cases change with
  | makeDirectories path => exact makeDirectories_changes _ _ path
  | unlink path => exact hsettle _ fun _ h => .single (unlink_changes hnames h)
  | removeTree path => exact removeTree_changes hnames path
  | write path bytes time => exact replace_changes hlegible hnames path bytes time
  | damage path index mask => exact damage_changes hlegible hnames path index mask
  | makeLink path target => exact hsettle _ fun _ h => .single (makeLink_changes hlinks h)
  | addName path target => exact hsettle _ fun _ h => .single (addName_changes hlinks h)
  | touch path time => exact hsettle _ fun _ h => touch_changes h

end FileSystem

end BlobCache
