import BlobCache.Proofs.Desk
import BlobCache.Proofs.Recency

/-!
# Files that are written by their path

Where a look-up ends at no directory, it ends there whatever it is for, and it goes on doing so
while only files come and go elsewhere (`resolve_same`).

* `read_append_truncate`: a file that is made empty and then appended to holds what was appended.
* `Deliverable`: nothing is under a path, or one file with one name that its owner may write, and in
  neither case in the directory of a cache. Writing there touches no entry
  (`Deliverable.truncate`), and what a cache does leaves such a path alone (`Deliverable.after`).
-/

namespace BlobCache

namespace FileSystem

/-! ## Paths on which nothing changes -/

/-- The place at which a look-up ends. -/
def Spot.place : Spot → Location
  | .occupied location _ => location
  | .vacant parent name => parent.child name

section walks

variable {fs fs' : FileSystem} {purpose : Purpose} {spot : Spot}
  {follow follow' : Location → List Bytes → Except Cause Spot}

/-- A look-up that ends at no directory ends there whatever it is for, as long as the directories
and symbolic links on the way stay, and what is at the end. -/
theorem walkNames_same
    (htree : ∀ location node, fs.tree.get? location = some node → (∀ id, node ≠ .file id) →
      fs'.tree.get? location = some node)
    (hplace : fs'.tree.get? spot.place = fs.tree.get? spot.place)
    (hspot : ∀ location, spot ≠ .occupied location .directory)
    (hslash : ∀ here names spot, follow here (names ++ [endSlash]) = .ok spot →
      ∃ location, spot = .occupied location .directory)
    (hfollow : ∀ here names, follow here names = .ok spot → follow' here names = .ok spot)
    (here : Location) (names : List Bytes)
    (h : walkNames fs .finding follow here names = .ok spot) :
    walkNames fs' purpose follow' here names = .ok spot := by
  have hnode : ∀ here name node, (∀ id, node ≠ .file id) →
      fs.nodeIn here name = .ok (some node) → fs'.nodeIn here name = .ok (some node) := by
    intro here name node hfile hn
    obtain ⟨hlen, hget⟩ := nodeIn_eq_ok_iff.mp hn
    exact nodeIn_eq_ok_iff.mpr ⟨hlen, htree _ _ hget hfile⟩
  induction names generalizing here with
  | nil =>
      rw [walkNames] at h
      exact absurd (Except.ok.inj h).symm (hspot here)
  | cons name rest ih =>
      by_cases hs : IsStay name
      · rw [walkNames_stay hs] at h ⊢
        exact ih _ h
      by_cases hup : name = Path.dotDot
      · subst hup
        rw [walkNames_up] at h ⊢
        exact ih _ h
      -- a slash at the end would have asked for a directory
      have hend : purpose = .creating → rest ≠ [endSlash] := by
        rintro - rfl
        obtain ⟨location, e⟩ := walkNames_append_stay_ok (Or.inr rfl) hslash here [name] h
        exact hspot location e
      rw [walkNames_proper hs hup here hend]
      obtain ⟨-, ⟨hfree, rfl, rfl⟩ | ⟨hn, hwalk⟩ | ⟨link, target, hn, hwalk⟩ |
        ⟨file, hn, rfl, rfl⟩⟩ := walkNames_proper_ok hs hup h
      · obtain ⟨hlen, hget⟩ := nodeIn_eq_ok_iff.mp hfree
        rw [nodeIn_eq_ok_iff.mpr ⟨hlen, hplace.trans hget⟩]
        rfl
      · rw [hnode _ _ _ (by simp) hn]
        exact ih _ hwalk
      · rw [hnode _ _ _ (by simp) hn]
        exact hfollow _ _ hwalk
      · obtain ⟨hlen, hget⟩ := nodeIn_eq_ok_iff.mp hn
        rw [nodeIn_eq_ok_iff.mpr ⟨hlen, hplace.trans hget⟩]
        rfl

/-- A walk that ends at no directory ends there for whatever purpose, as long as what it passes and
where it ends are as they were. -/
theorem walk_same
    (htree : ∀ location node, fs.tree.get? location = some node → (∀ id, node ≠ .file id) →
      fs'.tree.get? location = some node)
    (hplace : fs'.tree.get? spot.place = fs.tree.get? spot.place)
    (hspot : ∀ location, spot ≠ .occupied location .directory)
    (links : Nat) (here : Location) (names : List Bytes)
    (h : fs.walk .finding links here names = .ok spot) :
    fs'.walk purpose links here names = .ok spot := by
  induction links generalizing here names with
  | zero =>
      exact walkNames_same htree hplace hspot (fun _ _ _ h => by cases h)
        (fun _ _ h => by cases h) here names h
  | succ links ih =>
      exact walkNames_same htree hplace hspot
        (fun here names _ h => walk_append_stay_ok fs (Or.inr rfl) links here names h) ih here
        names h

/-- What is found at no directory is found by those who would create it too. -/
theorem resolve_same {path : Path} (h : fs.resolve path = .ok spot)
    (hspot : ∀ location, spot ≠ .occupied location .directory)
    (hcurrent : fs'.current = fs.current)
    (htree : ∀ location node, fs.tree.get? location = some node → (∀ id, node ≠ .file id) →
      fs'.tree.get? location = some node)
    (hplace : fs'.tree.get? spot.place = fs.tree.get? spot.place) :
    fs'.resolve path = .ok spot ∧ fs'.resolveForCreation path = .ok spot := by
  unfold resolve walkFrom at h
  unfold resolve resolveForCreation walkFrom
  rcases hcheck : checkPath path with cause | ⟨⟩ <;> rw [hcheck] at h
  · cases h
  · rw [hcurrent]
    exact ⟨walk_same htree hplace hspot _ _ _ h, walk_same htree hplace hspot _ _ _ h⟩

end walks

/-! ## Emptying a file and writing it -/

section writing

variable {fs fs' opened : FileSystem} {path : Path} {location : Location} {name : Bytes}
  {id target : FileId}

/-- A file that was made empty has no content, and no other file has changed. -/
theorem contents_truncate (hlegible : fs.Legible) (h : fs.truncate path = .ok (target, opened)) :
    opened.contents target = [] ∧ (∃ file, opened.files.get? target = some file) ∧
      ∀ other, other ≠ target → opened.contents other = fs.contents other := by
  rcases truncate_cases hlegible h with ⟨place, -, hmay, rfl⟩ | ⟨parent, free, -, -, -, -, rfl, rfl⟩
  · obtain ⟨file, hfile⟩ : ∃ file, fs.files.get? target = some file := by
      unfold mayWrite at hmay
      rcases hget : fs.files.get? target with _ | file
      · rw [hget] at hmay
        cases hmay
      · exact ⟨file, rfl⟩
    unfold contents modifyFile
    refine ⟨?_, ⟨{ file with bytes := [], accessed := fs.now }, ?_⟩, fun other hne => ?_⟩
    · rw [Table.get?_modify, if_pos rfl, hfile]
      rfl
    · rw [Table.get?_modify, if_pos rfl, hfile]
      rfl
    · rw [Table.get?_modify, if_neg hne]
  · unfold contents planting
    refine ⟨?_, ⟨_, Table.get?_set_self _ _ _⟩, fun other hne => ?_⟩
    · rw [Table.get?_set_self]
      rfl
    · rw [Table.get?_set_ne _ hne]

/-- What is then appended is all that the path has as content. -/
theorem read_append_truncate (hlegible : fs.Legible)
    (h : fs.truncate path = .ok (target, opened)) (bytes : Bytes) :
    ∃ written, opened.append path bytes = .ok written ∧
      ∀ handles, ({ written with handles := handles } : FileSystem).read path = .ok bytes := by
  have hfound := (fileAt_truncate hlegible h).1
  obtain ⟨hempty, ⟨file, hfile⟩, -⟩ := contents_truncate hlegible h
  have hcontent : (opened.writeAt target 0 bytes).contents target = bytes := by
    unfold contents at hempty
    rw [hfile] at hempty
    have hbytes : file.bytes = [] := hempty
    unfold contents writeAt modifyFile
    rw [Table.get?_modify, if_pos rfl, hfile]
    simp [hbytes, splice]
  have hwritten : ∀ handles, ({ opened.writeAt target 0 bytes with
      handles := handles } : FileSystem).fileAt path = .ok target := by
    intro handles
    rcases truncate_cases hlegible h with ⟨place, hspot, -, rfl⟩ |
      ⟨parent, free, hspot, hfree, -, -, rfl, rfl⟩
    · exact fileAt_taken hspot ⟨place, rfl⟩ rfl (fun _ _ hget => hget) (fun _ _ e => by cases e)
    · refine fileAt_taken hspot ⟨parent.child free, rfl⟩ rfl (fun place node hget => ?_)
        (fun _ _ e => ?_)
      · exact get?_bind_of_free hfree hget
      · cases e
        exact Table.get?_set_self _ _ _
  refine ⟨opened.writeAt target 0 bytes, ?_, fun handles => ?_⟩
  · unfold append
    simp [hfound, hempty]
  · unfold read
    rw [hwritten handles]
    exact congrArg Except.ok hcontent

instance (fs : FileSystem) (path : Path) (spot : Spot) : Decidable (fs.resolve path = .ok spot) :=
  match h : fs.resolve path with
  | .ok found => decidable_of_iff (found = spot) (by rw [Except.ok.injEq])
  | .error _ => isFalse (by simp)

/-- A blob can be written under the path: nothing is there yet, or one file with one name, and what
is written stands in another directory. -/
inductive Deliverable (fs : FileSystem) (location : Location) (path : Path) : Prop where
  /-- The path names nothing, but there is a directory for it. -/
  | free {parent : Location} {name : Bytes} (hspot : fs.resolve path = .ok (.vacant parent name))
      (houtside : parent ≠ location)
  /-- It names a file with one name that its owner may write. -/
  | file {place : Location} {id : FileId}
      (hspot : fs.resolve path = .ok (.occupied place (.file id)))
      (houtside : place.parent ≠ location) (hsingle : fs.linkCount (.file id) = 1)
      (hmay : fs.mayWrite id = true)

/-- A file that a path is found to be stands there. -/
theorem get?_of_resolve (hlegible : fs.Legible) {place : Location}
    (h : fs.resolve path = .ok (.occupied place (.file id))) :
    fs.tree.get? place = some (.file id) :=
  (resolve_sound hlegible h).resolve_left (by simp)

/-- Where a blob can be written, it can be written without touching an entry. -/
theorem Deliverable.truncate (h : fs.Deliverable location path) (hwf : fs.WellFormed)
    (hlegible : fs.Legible) (hget : fs.tree.get? (location.child name) = some (.file id)) :
    ∃ target opened, fs.truncate path = .ok (target, opened) ∧ id ≠ target := by
  cases h with
  | @free parent free hspot houtside =>
      have hcreate := (resolve_same hspot (by simp) rfl (fun _ _ hget _ => hget) rfl).2
      refine ⟨fs.next, (fs.addFile (parent.child free) plainMode []).2, ?_,
        Nat.ne_of_lt (hwf.file_lt _ _ hget)⟩
      unfold FileSystem.truncate
      rw [hcreate]
      rfl
  | @file place other hspot houtside hsingle hmay =>
      have hcreate := (resolve_same hspot (by simp) rfl (fun _ _ hget _ => hget) rfl).2
      refine ⟨other, fs.modifyFile other fun f => { f with bytes := [], accessed := fs.now },
        ?_, ?_⟩
      · unfold FileSystem.truncate
        simp [hcreate, hmay]
      · rintro rfl
        have hne : location.child name ≠ place := by
          rintro rfl
          exact houtside (Location.parent_child _ _)
        have htwo := two_le_linkCount hne hget (get?_of_resolve hlegible hspot)
        omega

/-- The path leads where it led as long as directories, symbolic links and what is outside the
directory stay. -/
theorem Deliverable.resolve_eq (h : fs.Deliverable location path)
    (hcurrent : fs'.current = fs.current)
    (htree : ∀ place node, fs.tree.get? place = some node → (∀ id, node ≠ .file id) →
      fs'.tree.get? place = some node)
    (houtside : ∀ place, place.parent ≠ location → fs'.tree.get? place = fs.tree.get? place) :
    fs'.resolve path = fs.resolve path := by
  cases h with
  | free hspot hparent =>
      rw [hspot]
      exact (resolve_same hspot (by simp) hcurrent htree
        (houtside _ (by rwa [Spot.place, Location.parent_child]))).1
  | file hspot hparent =>
      rw [hspot]
      exact (resolve_same hspot (by simp) hcurrent htree (houtside _ hparent)).1

/-- What others do in the directory leaves such a path alone. -/
theorem Deliverable.after {free : Freedom} (h : fs.Deliverable location path)
    (hwf : fs.WellFormed) (hlegible : fs.Legible) (hchanges : fs.Changes free fs')
    (hlinks : ¬free.links)
    (htree : ∀ place node, fs.tree.get? place = some node → (∀ id, node ≠ .file id) →
      fs'.tree.get? place = some node)
    (houtside : ∀ place, place.parent ≠ location → fs'.tree.get? place = fs.tree.get? place) :
    fs'.Deliverable location path := by
  have hsame := h.resolve_eq hchanges.current_eq htree houtside
  cases h with
  | free hspot hparent => exact .free (hsame.trans hspot) hparent
  | file hspot hparent hsingle hmay =>
      have hget := get?_of_resolve hlegible hspot
      have hlt := hwf.file_lt _ _ hget
      refine .file (hsame.trans hspot) hparent ?_ ((hchanges.mayWrite_eq hlt).trans hmay)
      exact Nat.le_antisymm (hsingle ▸ hchanges.links_le hlinks hlt)
        (one_le_linkCount ((houtside _ hparent).trans hget))

end writing

end FileSystem

end BlobCache
