import BlobCache.Proofs.Opening
import BlobCache.Proofs.Storing

/-!
# What look-ups come upon

Whatever names and symbolic links a path goes through, what a look-up answers is there: a file that
is found stands where it is said to stand, and a place that is found free is free and has a name
that an entry can have (`resolve_sound`, `resolveForCreation_sound`, `vacancy_sound`). For the names
this takes that no symbolic link has a zero byte in it, which no link that was ever made has
(`FileSystem.Legible`).

A file can be opened for writing by its path only if its path can also be unlinked
(`resolveLast_of_file`), so replacing never writes into a file that is there already
(`resolveForCreation_unlinked`). And what was just emptied for writing is what the path goes on to
name (`fileAt_truncate`).
-/

namespace BlobCache

/-! ## Parts of paths -/

namespace Path

/-- A byte string between two separators of a path that some file system reads. -/
structure IsPart (name : Bytes) : Prop where
  /-- It has no separator in it. -/
  no_slash : slash ∉ name
  /-- It has no zero byte in it. -/
  no_zero : 0 ∉ name

/-- What a path without zero bytes is split into can be looked up. -/
theorem isPart_of_mem_splitFrom {current path : Bytes} (hcurrent : IsPart current)
    (hpath : 0 ∉ path) {name : Bytes} (h : name ∈ splitFrom current path) : IsPart name := by
  induction path generalizing current with
  | nil =>
      rw [splitFrom, List.mem_singleton] at h
      exact h ▸ ⟨by simpa using hcurrent.no_slash, by simpa using hcurrent.no_zero⟩
  | cons b rest ih =>
      have hb : 0 ≠ b := fun e => hpath (e ▸ List.mem_cons_self)
      have hrest : 0 ∉ rest := fun hmem => hpath (List.mem_cons_of_mem _ hmem)
      rw [splitFrom] at h
      split at h
      · rcases List.mem_cons.mp h with rfl | h
        · exact ⟨by simpa using hcurrent.no_slash, by simpa using hcurrent.no_zero⟩
        · exact ih ⟨List.not_mem_nil, List.not_mem_nil⟩ hrest h
      · rename_i hslash
        refine ih ⟨?_, ?_⟩ hrest h
        · exact List.not_mem_cons_of_ne_of_not_mem (Ne.symm hslash) hcurrent.no_slash
        · exact List.not_mem_cons_of_ne_of_not_mem hb hcurrent.no_zero

/-- So can its components. -/
theorem isPart_of_mem_components {path name : Bytes} (hpath : 0 ∉ path)
    (h : name ∈ components path) : IsPart name :=
  isPart_of_mem_splitFrom ⟨List.not_mem_nil, List.not_mem_nil⟩ hpath (List.mem_filter.mp h).1

/-- No component is empty. -/
theorem ne_nil_of_mem_components {path name : Bytes} (h : name ∈ components path) : name ≠ [] := by
  simpa using (List.mem_filter.mp h).2

end Path

namespace FileSystem

open BlobCache.Path (IsName IsPart)

/-- So can the names that are looked up for a path, the empty one after a slash included. -/
theorem isPart_of_mem_lookupNames {path name : Bytes} (hpath : 0 ∉ path)
    (h : name ∈ lookupNames path) : IsPart name := by
  rcases List.mem_append.mp h with h | h
  · exact Path.isPart_of_mem_components hpath h
  · split at h
    · exact List.mem_singleton.mp h ▸ ⟨List.not_mem_nil, List.not_mem_nil⟩
    · cases h

/-- A part of a path that asks for an entry can be the name of one. -/
theorem isName_of_isPart {name : Bytes} (h : IsPart name) (hs : ¬IsStay name)
    (hup : name ≠ Path.dotDot) : IsName name where
  ne_nil e := hs (Or.inr e)
  no_slash := h.no_slash
  no_zero := h.no_zero
  ne_dot e := hs (Or.inl e)
  ne_dotDot := hup

/-- No symbolic link has a zero byte in it. -/
def Legible (fs : FileSystem) : Prop :=
  ∀ location id target, fs.tree.get? location = some (.link id target) → 0 ∉ target

/-! ## Answers of look-ups -/

/-- The answer of a look-up is true: what is found is there, and what is free can be taken. -/
def Holds (fs : FileSystem) : Spot → Prop
  | .occupied location node => node = .directory ∨ fs.tree.get? location = some node
  | .vacant parent name =>
    fs.tree.get? (parent.child name) = none ∧ IsName name ∧ name.length ≤ nameLimit

/-- A name is found for what it is bound to, unless it is too long. -/
theorem nodeIn_eq_ok_iff {fs : FileSystem} {directory : Location} {name : Bytes}
    {node : Option Node} :
    fs.nodeIn directory name = .ok node ↔
      name.length ≤ nameLimit ∧ fs.tree.get? (directory.child name) = node := by
  unfold nodeIn
  by_cases h : nameLimit < name.length
  · simp [h, Nat.not_le.mpr h]
  · simp [h, Nat.le_of_not_lt h]

section walks

variable {fs fs' : FileSystem} {purpose : Purpose}
  {follow follow' : Location → List Bytes → Except Cause Spot}

/-- Read for creation too, a name that asks for an entry is looked up in the directory, unless it is
refused for the slash after it. -/
theorem walkNames_proper_ok {name : Bytes} (hs : ¬IsStay name) (hup : name ≠ Path.dotDot)
    {here : Location} {rest : List Bytes} {spot : Spot}
    (h : walkNames fs purpose follow here (name :: rest) = .ok spot) :
    (purpose = .creating → rest ≠ [endSlash]) ∧
      ((fs.nodeIn here name = .ok none ∧ rest = [] ∧ spot = .vacant here name) ∨
        (fs.nodeIn here name = .ok (some .directory) ∧
          walkNames fs purpose follow (here.child name) rest = .ok spot) ∨
        (∃ id target, fs.nodeIn here name = .ok (some (.link id target)) ∧
          follow (startOf here target) (lookupNames target ++ rest) = .ok spot) ∨
        ∃ id, fs.nodeIn here name = .ok (some (.file id)) ∧ rest = [] ∧
          spot = .occupied (here.child name) (.file id)) := by
  have hslash : purpose = .creating → rest ≠ [endSlash] := by
    rintro rfl rfl
    have hs' : ¬(name = Path.dot ∨ name = endSlash) := hs
    rw [walkNames] at h
    simp [hs', hup] at h
  refine ⟨hslash, ?_⟩
  rw [walkNames_proper hs hup here hslash] at h
  rcases hnode : fs.nodeIn here name with cause | _ | _ | ⟨id, target⟩ | id <;> rw [hnode] at h
  · cases h
  · simp only [List.isEmpty_iff] at h
    split at h
    · rename_i hrest
      exact Or.inl ⟨rfl, hrest, (Except.ok.inj h).symm⟩
    · cases h
  · exact Or.inr (Or.inl ⟨rfl, h⟩)
  · exact Or.inr (Or.inr (Or.inl ⟨id, target, rfl, h⟩))
  · simp only [List.isEmpty_iff] at h
    split at h
    · rename_i hrest
      exact Or.inr (Or.inr (Or.inr ⟨id, rfl, hrest, (Except.ok.inj h).symm⟩))
    · cases h

/-- What a walk over such names answers is true, if what follows a link is. -/
theorem walkNames_sound (hlegible : fs.Legible)
    (hfollow : ∀ here names spot, (∀ name ∈ names, IsPart name) → follow here names = .ok spot →
      fs.Holds spot)
    (here : Location) {names : List Bytes} (hparts : ∀ name ∈ names, IsPart name) {spot : Spot}
    (h : walkNames fs purpose follow here names = .ok spot) : fs.Holds spot := by
  induction names generalizing here with
  | nil =>
      rw [walkNames] at h
      cases h
      exact Or.inl rfl
  | cons name rest ih =>
      have hrest : ∀ other ∈ rest, IsPart other :=
        fun other hmem => hparts other (List.mem_cons_of_mem _ hmem)
      by_cases hs : IsStay name
      · exact ih _ hrest (walkNames_stay hs here rest ▸ h)
      by_cases hup : name = Path.dotDot
      · subst hup
        exact ih _ hrest (walkNames_up here rest ▸ h)
      obtain ⟨-, ⟨hnode, rfl, rfl⟩ | ⟨-, hwalk⟩ | ⟨id, target, hnode, hwalk⟩ |
        ⟨id, hnode, rfl, rfl⟩⟩ := walkNames_proper_ok hs hup h
      · obtain ⟨hlen, hfree⟩ := nodeIn_eq_ok_iff.mp hnode
        exact ⟨hfree, isName_of_isPart (hparts name List.mem_cons_self) hs hup, hlen⟩
      · exact ih _ hrest hwalk
      · refine hfollow _ _ _ (fun other hmem => ?_) hwalk
        rcases List.mem_append.mp hmem with hmem | hmem
        · exact isPart_of_mem_lookupNames
            (hlegible _ _ _ (nodeIn_eq_ok_iff.mp hnode).2) hmem
        · exact hrest other hmem
      · exact Or.inr (nodeIn_eq_ok_iff.mp hnode).2

/-- A path with a file at its end leads, without its last name, to a directory in which this name is
a file or a symbolic link. -/
theorem walkNames_file {last : Bytes} {place : Location} {id : FileId}
    {Ends : Location → Prop}
    (hends : ∀ here node, ¬IsStay last → last ≠ Path.dotDot →
      fs.nodeIn here last = .ok (some node) → node ≠ .directory → Ends here)
    (hfollow : ∀ here names, follow here (names ++ [last]) = .ok (.occupied place (.file id)) →
      ∃ parent, follow' here names = .ok (.occupied parent .directory) ∧ Ends parent)
    (here : Location) (names : List Bytes)
    (h : walkNames fs purpose follow here (names ++ [last]) = .ok (.occupied place (.file id))) :
    ∃ parent, walkNames fs .finding follow' here names = .ok (.occupied parent .directory) ∧
      Ends parent := by
  have hnil : ∀ here, walkNames fs purpose follow here [] ≠ .ok (.occupied place (.file id)) := by
    intro here h
    rw [walkNames] at h
    cases h
  induction names generalizing here with
  | nil =>
      rw [List.nil_append] at h
      have hs : ¬IsStay last := fun hs => hnil _ (walkNames_stay hs here [] ▸ h)
      have hup : last ≠ Path.dotDot := by
        rintro rfl
        exact hnil _ (walkNames_up here [] ▸ h)
      refine ⟨here, rfl, ?_⟩
      obtain ⟨-, ⟨-, -, hspot⟩ | ⟨-, hwalk⟩ | ⟨link, target, hnode, -⟩ | ⟨file, hnode, -, -⟩⟩ :=
        walkNames_proper_ok hs hup h
      · cases hspot
      · exact absurd hwalk (hnil _)
      · exact hends here _ hs hup hnode (by simp)
      · exact hends here _ hs hup hnode (by simp)
  | cons name rest ih =>
      rw [List.cons_append] at h
      by_cases hs : IsStay name
      · rw [walkNames_stay hs] at h ⊢
        exact ih _ h
      by_cases hup : name = Path.dotDot
      · subst hup
        rw [walkNames_up] at h ⊢
        exact ih _ h
      have hmore : rest ++ [last] ≠ [] := by simp
      rw [walkNames_proper hs hup here (by simp)]
      obtain ⟨-, ⟨-, hend, -⟩ | ⟨hnode, hwalk⟩ | ⟨link, target, hnode, hwalk⟩ |
        ⟨file, -, hend, -⟩⟩ := walkNames_proper_ok hs hup h
      · exact absurd hend hmore
      · rw [hnode]
        exact ih _ hwalk
      · rw [hnode]
        rw [← List.append_assoc] at hwalk
        exact hfollow _ _ hwalk
      · exact absurd hend hmore

/-- A look-up that ends in a component that stays comes upon no file. -/
theorem walkNames_append_stay_ne_file {stay : Bytes} (hs : IsStay stay) {place : Location}
    {id : FileId}
    (hfollow : ∀ here names, follow here (names ++ [stay]) ≠ .ok (.occupied place (.file id)))
    (here : Location) (names : List Bytes) :
    walkNames fs purpose follow here (names ++ [stay]) ≠ .ok (.occupied place (.file id)) := by
  intro h
  induction names generalizing here with
  | nil =>
      rw [List.nil_append, walkNames_stay hs, walkNames] at h
      cases h
  | cons name rest ih =>
      rw [List.cons_append] at h
      by_cases hstay : IsStay name
      · exact ih _ (walkNames_stay hstay here _ ▸ h)
      by_cases hup : name = Path.dotDot
      · subst hup
        exact ih _ (walkNames_up here _ ▸ h)
      have hmore : rest ++ [stay] ≠ [] := by simp
      obtain ⟨-, ⟨-, hend, -⟩ | ⟨-, hwalk⟩ | ⟨link, target, -, hwalk⟩ | ⟨file, -, hend, -⟩⟩ :=
        walkNames_proper_ok hstay hup h
      · exact hmore hend
      · exact ih _ hwalk
      · rw [← List.append_assoc] at hwalk
        exact hfollow _ _ hwalk
      · exact hmore hend

/-- What a free place becomes when a file is put there. -/
def Spot.taken (id : FileId) : Spot → Spot
  | .occupied location node => .occupied location node
  | .vacant parent name => .occupied (parent.child name) (.file id)

/-- A place that was found free is found taken once a file stands there, and everything else is
found as before. -/
theorem walkNames_taken {id : FileId} {spot : Spot}
    (htree : ∀ location node, fs.tree.get? location = some node →
      fs'.tree.get? location = some node)
    (hplaced : ∀ parent name, spot = .vacant parent name →
      fs'.tree.get? (parent.child name) = some (.file id))
    (hfollow : ∀ here names, follow here names = .ok spot →
      follow' here names = .ok (spot.taken id))
    (here : Location) (names : List Bytes)
    (h : walkNames fs purpose follow here names = .ok spot) :
    walkNames fs' .finding follow' here names = .ok (spot.taken id) := by
  have hnode : ∀ here name node, fs.nodeIn here name = .ok (some node) →
      fs'.nodeIn here name = .ok (some node) := by
    intro here name node h
    obtain ⟨hlen, hget⟩ := nodeIn_eq_ok_iff.mp h
    exact nodeIn_eq_ok_iff.mpr ⟨hlen, htree _ _ hget⟩
  induction names generalizing here with
  | nil =>
      rw [walkNames] at h ⊢
      cases h
      rfl
  | cons name rest ih =>
      by_cases hs : IsStay name
      · rw [walkNames_stay hs] at h ⊢
        exact ih _ h
      by_cases hup : name = Path.dotDot
      · subst hup
        rw [walkNames_up] at h ⊢
        exact ih _ h
      rw [walkNames_proper hs hup here (by simp)]
      obtain ⟨-, ⟨hfree, rfl, rfl⟩ | ⟨hn, hwalk⟩ | ⟨link, target, hn, hwalk⟩ |
        ⟨file, hn, rfl, rfl⟩⟩ := walkNames_proper_ok hs hup h
      · rw [nodeIn_eq_ok_iff.mpr ⟨(nodeIn_eq_ok_iff.mp hfree).1, hplaced here name rfl⟩]
        rfl
      · rw [hnode _ _ _ hn]
        exact ih _ hwalk
      · rw [hnode _ _ _ hn]
        exact hfollow _ _ hwalk
      · rw [hnode _ _ _ hn]
        rfl

end walks

/-- What a walk over such names answers is true. -/
theorem walk_sound {fs : FileSystem} (hlegible : fs.Legible) {purpose : Purpose} (links : Nat)
    (here : Location) {names : List Bytes} (hparts : ∀ name ∈ names, IsPart name) {spot : Spot}
    (h : fs.walk purpose links here names = .ok spot) : fs.Holds spot := by
  induction links generalizing here names spot with
  | zero => exact walkNames_sound hlegible (fun _ _ _ _ h => by cases h) here hparts h
  | succ links ih =>
      exact walkNames_sound hlegible (fun here _ _ hparts h => ih here hparts h) here hparts h

/-- A walk that ends at a file has been at a directory before its last name. -/
theorem walk_file {fs : FileSystem} {purpose : Purpose} {last : Bytes}
    {place : Location} {id : FileId} {Ends : Location → Prop}
    (hends : ∀ here node, ¬IsStay last → last ≠ Path.dotDot →
      fs.nodeIn here last = .ok (some node) → node ≠ .directory → Ends here)
    (links : Nat) (here : Location) (names : List Bytes)
    (h : fs.walk purpose links here (names ++ [last]) = .ok (.occupied place (.file id))) :
    ∃ parent, fs.walk .finding links here names = .ok (.occupied parent .directory) ∧
      Ends parent := by
  induction links generalizing here names with
  | zero => exact walkNames_file hends (fun _ _ h => by cases h) here names h
  | succ links ih => exact walkNames_file hends ih here names h

/-- A name that stays never ends a walk at a file. -/
theorem walk_append_stay_ne_file (fs : FileSystem) {purpose : Purpose} {stay : Bytes}
    (hs : IsStay stay) {place : Location} {id : FileId} (links : Nat) (here : Location)
    (names : List Bytes) :
    fs.walk purpose links here (names ++ [stay]) ≠ .ok (.occupied place (.file id)) := by
  induction links generalizing here names with
  | zero => exact walkNames_append_stay_ne_file hs (fun _ _ => by simp) here names
  | succ links ih => exact walkNames_append_stay_ne_file hs ih here names

/-- A walk that ended at a free place ends at the file that has been put there. -/
theorem walk_taken {fs fs' : FileSystem} {purpose : Purpose} {id : FileId} {spot : Spot}
    (htree : ∀ location node, fs.tree.get? location = some node →
      fs'.tree.get? location = some node)
    (hplaced : ∀ parent name, spot = .vacant parent name →
      fs'.tree.get? (parent.child name) = some (.file id))
    (links : Nat) (here : Location) (names : List Bytes)
    (h : fs.walk purpose links here names = .ok spot) :
    fs'.walk .finding links here names = .ok (spot.taken id) := by
  induction links generalizing here names with
  | zero => exact walkNames_taken htree hplaced (fun _ _ h => by cases h) here names h
  | succ links ih => exact walkNames_taken htree hplaced ih here names h

/-! ## Answers for whole paths -/

section paths

variable {fs : FileSystem} {path : Path}

/-- What is looked up from a path is true. -/
theorem walkFrom_sound (hlegible : fs.Legible) {purpose : Purpose} {spot : Spot}
    (h : (do checkPath path; fs.walkFrom purpose path (lookupNames path)) = .ok spot) :
    fs.Holds spot := by
  rcases hcheck : checkPath path with cause | ⟨⟩ <;> rw [hcheck] at h
  · cases h
  · have hzero := (checkPath_eq_ok_iff.mp hcheck).1
    exact walk_sound hlegible linkLimit _ (fun name => isPart_of_mem_lookupNames hzero) h

/-- What a path is found to be is true. -/
theorem resolve_sound (hlegible : fs.Legible) {spot : Spot} (h : fs.resolve path = .ok spot) :
    fs.Holds spot := walkFrom_sound hlegible h

/-- So is what it is found to be when it is to be created. -/
theorem resolveForCreation_sound (hlegible : fs.Legible) {spot : Spot}
    (h : fs.resolveForCreation path = .ok spot) : fs.Holds spot := walkFrom_sound hlegible h

/-- What a look-up leaves to its caller to look up can be the name of an entry. -/
theorem isName_of_resolveLast {parent : Location} {name : Bytes} {slash : Bool}
    (h : fs.resolveLast path = .ok (.named parent name slash)) : IsName name := by
  unfold resolveLast at h
  rcases hcheck : checkPath path with cause | ⟨⟩ <;> rw [hcheck] at h
  · cases h
  rcases hnames : (Path.components path).reverse with _ | ⟨last, before⟩ <;>
    simp only [hnames, except_ok_bind] at h
  · cases h
  have hmem : last ∈ Path.components path := by
    rw [← List.mem_reverse, hnames]
    exact List.mem_cons_self
  have hpart := Path.isPart_of_mem_components (checkPath_eq_ok_iff.mp hcheck).1 hmem
  rcases hwalk : fs.walkFrom .finding path (before.reverse ++ [Path.dot]) with
    cause | ⟨found, node⟩ | ⟨found, free⟩ <;> simp only [hwalk, except_ok_bind] at h
  · cases h
  · by_cases hdot : last = Path.dot
    · simp [hdot] at h
    · by_cases hup : last = Path.dotDot
      · simp [hup, Path.dot, Path.dotDot] at h
      · simp only [hdot, hup, if_false, except_pure, Except.ok.injEq, Last.named.injEq] at h
        obtain ⟨-, rfl, -⟩ := h
        refine isName_of_isPart hpart ?_ hup
        rintro (e | e)
        · exact hdot e
        · exact Path.ne_nil_of_mem_components hmem e
  · cases h

/-- Where a new entry may be made, there is room for it and its name is one. -/
theorem vacancy_sound {slashed : Option SystemError} {place : Location}
    (h : fs.vacancy path slashed = .ok place) :
    ∃ (parent : Location) (name : Bytes), place = parent.child name ∧
      fs.tree.get? place = none ∧ IsName name ∧ name.length ≤ nameLimit := by
  have hfree := get?_of_vacancy h
  unfold vacancy at h
  rcases hlast : fs.resolveLast path with cause | ⟨parent, name, slash⟩ | spot <;>
    rw [hlast] at h
  · cases h
  · simp only [except_ok_bind] at h
    rcases hnode : fs.nodeIn parent name with cause | node <;> rw [hnode] at h
    · cases h
    · refine ⟨parent, name, ?_, hfree, isName_of_resolveLast hlast,
        (nodeIn_eq_ok_iff.mp hnode).1⟩
      rcases node with _ | node
      · simp only [except_ok_bind, Option.isSome_none, Bool.false_eq_true, if_false] at h
        split at h
        · cases h
        · exact (Except.ok.inj h).symm
      · cases h
  · cases h

/-- A file that its path leads to stands under a name that can be unlinked by the path, or a
symbolic link does. -/
theorem resolveLast_of_file {purpose : Purpose} {place : Location} {id : FileId}
    (h : (do checkPath path; fs.walkFrom purpose path (lookupNames path)) =
      .ok (.occupied place (.file id))) :
    ∃ parent name node, fs.resolveLast path = .ok (.named parent name false) ∧
      fs.nodeIn parent name = .ok (some node) ∧ node ≠ .directory := by
  rcases hcheck : checkPath path with cause | ⟨⟩ <;> rw [hcheck] at h
  · cases h
  rw [except_ok_bind] at h
  unfold walkFrom lookupNames at h
  by_cases hslash : Path.endsInSlash path = true
  · rw [if_pos hslash] at h
    exact absurd h (walk_append_stay_ne_file fs (Or.inr rfl) _ _ _)
  rw [if_neg hslash, List.append_nil] at h
  rcases hnames : (Path.components path).reverse with _ | ⟨last, before⟩
  · have hnil : Path.components path = [] := List.reverse_eq_nil_iff.mp hnames
    rw [hnil] at h
    unfold walk at h
    cases h
  have hnames' : Path.components path = before.reverse ++ [last] := by
    rw [← List.reverse_reverse (Path.components path), hnames, List.reverse_cons]
  rw [hnames'] at h
  obtain ⟨parent, hwalk, hs, hup, node, hnode, hfile⟩ :
      ∃ parent, fs.walk .finding linkLimit (startOf fs.current path) before.reverse =
          .ok (.occupied parent .directory) ∧
        ¬IsStay last ∧ last ≠ Path.dotDot ∧
          ∃ node, fs.nodeIn parent last = .ok (some node) ∧ node ≠ .directory :=
    walk_file (fun _ node hs hup hnode hfile => ⟨hs, hup, node, hnode, hfile⟩) _ _ _ h
  refine ⟨parent, last, node, ?_, hnode, hfile⟩
  have hdot := (walk_append_stay fs (Or.inl rfl : IsStay Path.dot) linkLimit
    (startOf fs.current path) before.reverse parent).mpr hwalk
  have hslash' : Path.endsInSlash path = false := by simpa using hslash
  have hne : last ≠ Path.dot := fun e => hs (Or.inl e)
  unfold resolveLast walkFrom
  simp [hcheck, hnames, hdot, hne, hup, hslash']

/-- What a path names without following a link is a file if its last name is that of a file and no
slash comes after it. -/
theorem ownNodeAt_eq_file_iff {place : Location} {id : FileId} :
    fs.ownNodeAt path = .ok (place, .file id) ↔
      ∃ parent name, fs.resolveLast path = .ok (.named parent name false) ∧
        fs.nodeIn parent name = .ok (some (.file id)) ∧ place = parent.child name := by
  -- whatever is left to `nodeAt` does not end in a bare name, so it can only be a directory
  have hbehind : fs.nodeAt path = .ok (place, .file id) →
      ∃ parent name, fs.resolveLast path = .ok (.named parent name false) := by
    intro h
    unfold nodeAt at h
    rcases hspot : fs.resolve path with cause | ⟨found, node⟩ | ⟨parent, name⟩ <;>
      simp only [hspot, except_ok_bind, except_error_bind] at h
    · cases h
    · obtain ⟨rfl, rfl⟩ := Prod.mk.inj (Except.ok.inj h)
      obtain ⟨parent, name, -, hlast, -⟩ := resolveLast_of_file hspot
      exact ⟨parent, name, hlast⟩
    · cases h
  constructor
  · intro h
    unfold ownNodeAt at h
    rcases hlast : fs.resolveLast path with cause | ⟨parent, name, _ | _⟩ | spot <;>
      simp only [hlast, except_ok_bind, except_error_bind] at h
    · cases h
    · rcases hnode : fs.nodeIn parent name with cause | _ | node <;>
        simp only [hnode, except_ok_bind, except_error_bind] at h
      · cases h
      · cases h
      · obtain ⟨rfl, rfl⟩ := Prod.mk.inj (Except.ok.inj h)
        exact ⟨parent, name, rfl, hnode, rfl⟩
    · obtain ⟨other, last, e⟩ := hbehind h
      rw [hlast] at e
      cases e
    · obtain ⟨other, last, e⟩ := hbehind h
      rw [hlast] at e
      cases e
  · rintro ⟨parent, name, hlast, hnode, rfl⟩
    unfold ownNodeAt
    simp [hlast, hnode]

/-- The last name of a path stays where it is as long as no directory and no symbolic link is taken
away. -/
theorem resolveLast_mono {fs' : FileSystem} (hcurrent : fs'.current = fs.current)
    (htree : ∀ location node, fs.tree.get? location = some node → (∀ id, node ≠ .file id) →
      fs'.tree.get? location = some node) {last : Last} (h : fs.resolveLast path = .ok last) :
    fs'.resolveLast path = .ok last := by
  unfold resolveLast at h ⊢
  rcases hcheck : checkPath path with cause | ⟨⟩ <;> rw [hcheck] at h
  · cases h
  rcases hnames : (Path.components path).reverse with _ | ⟨name, before⟩ <;>
    simp only [hnames, except_ok_bind] at h ⊢
  · exact h
  rcases hwalk : fs.walkFrom .finding path (before.reverse ++ [Path.dot]) with cause | spot
  · rw [hwalk] at h
    cases h
  · unfold walkFrom at hwalk ⊢
    obtain ⟨parent, rfl⟩ := walk_append_stay_ok fs (Or.inl rfl) _ _ _ hwalk
    rw [hcurrent, walk_mono htree _ _ _ _ hwalk]
    unfold walkFrom at h
    rw [hwalk] at h
    exact h

/-! ## Unlinking and opening for writing -/

/-- What can be unlinked is a file or a symbolic link, and its name is all that goes. -/
theorem unlink_eq_ok_iff {removed : FileSystem} :
    fs.unlink path = .ok removed ↔
      ∃ parent name node, fs.resolveLast path = .ok (.named parent name false) ∧
        fs.nodeIn parent name = .ok (some node) ∧ node ≠ .directory ∧
        removed = fs.unbind (parent.child name) := by
  unfold unlink
  constructor
  · intro h
    rcases hlast : fs.resolveLast path with cause | ⟨parent, name, slash⟩ | spot <;>
      simp only [hlast, except_ok_bind, except_error_bind] at h
    · cases h
    · rcases hnode : fs.nodeIn parent name with cause | _ | _ | _ | _ <;>
        simp only [hnode, except_ok_bind, except_error_bind] at h
      · cases h
      · cases h
      · cases h
      all_goals
        cases slash with
        | true => cases h
        | false => exact ⟨parent, name, _, rfl, hnode, by simp, (Except.ok.inj h).symm⟩
    · cases h
  · rintro ⟨parent, name, node, hlast, hnode, hfile, rfl⟩
    simp only [hlast, hnode, except_ok_bind]
    cases node with
    | directory => exact absurd rfl hfile
    | link id target => rfl
    | file id => rfl

/-- After a path was unlinked, if it could be, it leads to no file to write into. -/
theorem resolveForCreation_unlinked {place : Location} {id : FileId} :
    ((fs.unlink path).toOption.getD fs).resolveForCreation path ≠
      .ok (.occupied place (.file id)) := by
  intro h
  obtain ⟨parent, name, node, hlast, hnode, hfile⟩ := resolveLast_of_file h
  rcases hunlink : fs.unlink path with cause | removed <;> rw [hunlink] at hlast hnode
  · have := unlink_eq_ok_iff.mpr ⟨parent, name, node, hlast, hnode, hfile, rfl⟩
    exact absurd (hunlink.symm.trans this) (by simp)
  · obtain ⟨gone, old, -, hgone, -, -, rfl⟩ := unlink_eq_ok_iff.mp hunlink
    have hcurrent : fs.current = (fs.unbind (gone.child old)).current := rfl
    have hsame : fs.resolveLast path = .ok (.named parent name false) := by
      refine resolveLast_mono hcurrent (fun location other hget _ => ?_) hlast
      rw [unbind, Table.get?_erase] at hget
      split at hget
      · cases hget
      · exact hget
    rw [hgone] at hsame
    cases hsame
    obtain ⟨-, hget⟩ := nodeIn_eq_ok_iff.mp hnode
    exact absurd ((Table.get?_erase_self _ _).symm.trans hget) (by simp)

/-- A file that is opened for writing is there and may be written, or it is new. -/
theorem truncate_cases (hlegible : fs.Legible) {id : FileId} {opened : FileSystem}
    (h : fs.truncate path = .ok (id, opened)) :
    (∃ place, fs.resolveForCreation path = .ok (.occupied place (.file id)) ∧
      fs.mayWrite id = true ∧
      opened = fs.modifyFile id fun f => { f with bytes := [], accessed := fs.now }) ∨
    ∃ (parent : Location) (name : Bytes),
      fs.resolveForCreation path = .ok (.vacant parent name) ∧
      fs.tree.get? (parent.child name) = none ∧ IsName name ∧ name.length ≤ nameLimit ∧
      id = fs.next ∧ opened = fs.planting (parent.child name) ⟨[], plainMode, fs.now⟩ := by
  unfold truncate at h
  rcases hspot : fs.resolveForCreation path with cause | ⟨place, _ | _ | file⟩ | ⟨parent, name⟩ <;>
    simp only [hspot, except_ok_bind, except_error_bind] at h
  · cases h
  · cases h
  · cases h
  · by_cases hmay : fs.mayWrite file = true
    · simp only [hmay, if_true] at h
      cases h
      exact Or.inl ⟨place, rfl, hmay, rfl⟩
    · simp [hmay] at h
  · obtain ⟨hfree, hname, hlen⟩ := resolveForCreation_sound hlegible hspot
    cases h
    exact Or.inr ⟨parent, name, rfl, hfree, hname, hlen, rfl, rfl⟩

/-- A place that was looked up for creation is what the path names once its file stands there. -/
theorem fileAt_taken {opened : FileSystem} {id : FileId} {spot : Spot}
    (h : fs.resolveForCreation path = .ok spot)
    (hfile : ∃ place, spot.taken id = .occupied place (.file id))
    (hcurrent : opened.current = fs.current)
    (htree : ∀ location node, fs.tree.get? location = some node →
      opened.tree.get? location = some node)
    (hplaced : ∀ parent name, spot = .vacant parent name →
      opened.tree.get? (parent.child name) = some (.file id)) :
    opened.fileAt path = .ok id := by
  obtain ⟨place, hplace⟩ := hfile
  unfold resolveForCreation walkFrom at h
  unfold fileAt nodeAt resolve walkFrom
  rcases hcheck : checkPath path with cause | ⟨⟩ <;> rw [hcheck] at h
  · cases h
  · have hwalk := walk_taken htree hplaced _ _ _ h
    rw [hcurrent]
    simp only [except_ok_bind, hwalk, hplace]
    rfl

/-- What was made empty to be written may be written, and it is what the path names then. -/
theorem fileAt_truncate (hlegible : fs.Legible) {id : FileId} {opened : FileSystem}
    (h : fs.truncate path = .ok (id, opened)) :
    opened.fileAt path = .ok id ∧ opened.mayWrite id = true := by
  rcases truncate_cases hlegible h with ⟨place, hspot, hmay, rfl⟩ |
    ⟨parent, name, hspot, hfree, -, -, rfl, rfl⟩
  · refine ⟨fileAt_taken hspot ⟨place, rfl⟩ rfl (fun _ _ hget => hget)
      (fun _ _ e => by cases e), ?_⟩
    unfold mayWrite at hmay ⊢
    rw [modifyFile, Table.get?_modify, if_pos rfl, Option.map_map]
    exact hmay
  · refine ⟨fileAt_taken hspot ⟨parent.child name, rfl⟩ rfl (fun place node hget => ?_)
      (fun _ _ e => ?_), ?_⟩
    · have hne : place ≠ parent.child name := by
        rintro rfl
        rw [hfree] at hget
        cases hget
      exact (get?_planting _ _ _ _).trans ((if_neg hne).trans hget)
    · cases e
      exact (get?_planting _ _ _ _).trans (if_pos rfl)
    · have hmode : plainMode.testBit 7 = true := by decide
      unfold mayWrite planting
      rw [Table.get?_set_self, Option.map_some, Option.getD_some]
      exact hmode

end paths

end FileSystem

end BlobCache
