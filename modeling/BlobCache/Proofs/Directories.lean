import BlobCache.FileSystem.Handles
import BlobCache.Proofs.Names

/-!
# Directories and the names in them

A cache reaches its entries by putting a name behind the path of its directory. `Leads fs path
location` says that the path names a directory and where that directory stands.

* `resolveLast_join`: a name behind such a path is looked up in that directory and nowhere else,
  whatever symbolic links the path goes through.
* `Leads.mono`: a path goes on leading to its directory as long as no directory and no symbolic link
  is taken away. Files may come and go.
* `openNode_join`, `create_join`, `unlink_join`: what opening, creating and removing a name of the
  directory come to.
-/

namespace BlobCache

/-! ## Chains of steps that may fail -/

/-- A result is what the rest goes on with. -/
@[simp] theorem except_ok_bind {ε α β : Type} (a : α) (f : α → Except ε β) :
    (Except.ok a >>= f) = f a := rfl

/-- After an error there is no rest. -/
@[simp] theorem except_error_bind {ε α β : Type} (e : ε) (f : α → Except ε β) :
    (Except.error e >>= f) = .error e := rfl

/-- An error that is thrown is the result. -/
@[simp] theorem except_throw {ε α : Type} (e : ε) : (throw e : Except ε α) = .error e := rfl

/-- What is returned is the result. -/
@[simp] theorem except_pure {ε α : Type} (a : α) : (pure a : Except ε α) = .ok a := rfl

namespace FileSystem

open BlobCache.Path (IsName)

/-! ## Reading components -/

/-- A component that stays where it is. -/
def IsStay (name : Bytes) : Prop := name = Path.dot ∨ name = endSlash

section walking

variable {fs fs' : FileSystem} {purpose : Purpose}
  {follow follow' : Location → List Bytes → Except Cause Spot}

/-- A name that stays is passed over. -/
theorem walkNames_stay {name : Bytes} (hs : IsStay name) (here : Location) (rest : List Bytes) :
    walkNames fs purpose follow here (name :: rest) = walkNames fs purpose follow here rest := by
  rcases hs with rfl | rfl <;> rw [walkNames] <;> simp

/-- Two dots go up. -/
theorem walkNames_up (here : Location) (rest : List Bytes) :
    walkNames fs purpose follow here (Path.dotDot :: rest) =
      walkNames fs purpose follow here.parent rest := by
  rw [walkNames]
  simp [Path.dotDot, Path.dot, endSlash]

/-- A component that is neither read as staying nor as going up is looked up in the directory. -/
theorem walkNames_proper {name : Bytes} (hs : ¬IsStay name) (hup : name ≠ Path.dotDot)
    (here : Location) {rest : List Bytes} (hslash : purpose = .creating → rest ≠ [endSlash]) :
    walkNames fs purpose follow here (name :: rest) =
      match fs.nodeIn here name with
      | .error cause => .error cause
      | .ok none => if rest.isEmpty then .ok (.vacant here name) else .error (.system .noEntry)
      | .ok (some .directory) => walkNames fs purpose follow (here.child name) rest
      | .ok (some (.link _ target)) => follow (startOf here target) (lookupNames target ++ rest)
      | .ok (some (.file id)) =>
        if rest.isEmpty then .ok (.occupied (here.child name) (.file id))
        else .error (.system .notDirectory) := by
  have hcreate : (decide (purpose = .creating) && decide (rest = [endSlash])) = false := by
    by_cases hp : purpose = .creating
    · simp [hslash hp]
    · simp [hp]
  unfold IsStay at hs
  rw [walkNames, if_neg (by simpa using hs), if_neg hup]
  exact if_neg (by simp [hcreate])

/-- A look-up that ends at a directory goes through directories and symbolic links only. -/
theorem walkNames_cons_eq_directory {here location : Location} {name : Bytes}
    {rest : List Bytes} :
    walkNames fs .finding follow here (name :: rest) = .ok (.occupied location .directory) ↔
      (IsStay name ∧
        walkNames fs .finding follow here rest = .ok (.occupied location .directory)) ∨
      (name = Path.dotDot ∧
        walkNames fs .finding follow here.parent rest = .ok (.occupied location .directory)) ∨
      ((¬IsStay name ∧ name ≠ Path.dotDot) ∧
        ((fs.nodeIn here name = .ok (some .directory) ∧
          walkNames fs .finding follow (here.child name) rest =
            .ok (.occupied location .directory)) ∨
        ∃ id target, fs.nodeIn here name = .ok (some (.link id target)) ∧
          follow (startOf here target) (lookupNames target ++ rest) =
            .ok (.occupied location .directory))) := by
  by_cases hs : IsStay name
  · have hup : name ≠ Path.dotDot := by rcases hs with rfl | rfl <;> decide
    simp [walkNames_stay hs, hs, hup]
  · by_cases hup : name = Path.dotDot
    · subst hup
      simp [walkNames_up, hs]
    · rw [walkNames_proper hs hup here (by simp)]
      rcases fs.nodeIn here name with cause | _ | _ | _ | _ <;> cases rest <;> simp [hs, hup]

/-- A component that stays, at the end, asks for a directory and for nothing else. -/
theorem walkNames_append_stay {stay : Bytes} (hs : IsStay stay)
    (hfollow : ∀ here names location,
      follow' here (names ++ [stay]) = .ok (.occupied location .directory) ↔
        follow here names = .ok (.occupied location .directory))
    (here : Location) (names : List Bytes) (location : Location) :
    walkNames fs .finding follow' here (names ++ [stay]) = .ok (.occupied location .directory) ↔
      walkNames fs .finding follow here names = .ok (.occupied location .directory) := by
  induction names generalizing here with
  | nil =>
      rw [List.nil_append, walkNames_stay hs]
      simp [walkNames]
  | cons name rest ih =>
      rw [List.cons_append, walkNames_cons_eq_directory, walkNames_cons_eq_directory]
      simp only [ih, ← List.append_assoc, hfollow]

/-- Where the last component stays, the look-up ends at a directory or fails. -/
theorem walkNames_append_stay_ok {stay : Bytes} (hs : IsStay stay)
    (hfollow : ∀ here names spot, follow here (names ++ [stay]) = .ok spot →
      ∃ location, spot = .occupied location .directory)
    (here : Location) (names : List Bytes) {spot : Spot}
    (h : walkNames fs .finding follow here (names ++ [stay]) = .ok spot) :
    ∃ location, spot = .occupied location .directory := by
  induction names generalizing here with
  | nil =>
      rw [List.nil_append, walkNames_stay hs, walkNames] at h
      exact ⟨here, (Except.ok.inj h).symm⟩
  | cons name rest ih =>
      rw [List.cons_append] at h
      by_cases hstay : IsStay name
      · exact ih _ (walkNames_stay hstay here _ ▸ h)
      · by_cases hup : name = Path.dotDot
        · subst hup
          exact ih _ (walkNames_up here _ ▸ h)
        · rw [walkNames_proper hstay hup here (by simp)] at h
          rcases hn : fs.nodeIn here name with cause | _ | _ | ⟨_, target⟩ | _ <;>
            simp only [hn, List.isEmpty_iff, List.append_eq_nil_iff, List.cons_ne_nil, and_false,
              if_false, reduceCtorEq] at h
          · exact ih _ h
          · rw [← List.append_assoc] at h
            exact hfollow _ _ _ h

/-- Directories and symbolic links that are still there lead where they led. -/
theorem walkNames_mono
    (htree : ∀ location node, fs.tree.get? location = some node → (∀ id, node ≠ .file id) →
      fs'.tree.get? location = some node)
    (hfollow : ∀ here names location, follow here names = .ok (.occupied location .directory) →
      follow' here names = .ok (.occupied location .directory))
    (here : Location) (names : List Bytes) (location : Location)
    (h : walkNames fs .finding follow here names = .ok (.occupied location .directory)) :
    walkNames fs' .finding follow' here names = .ok (.occupied location .directory) := by
  have hnode : ∀ here name node, (∀ id, node ≠ .file id) →
      fs.nodeIn here name = .ok (some node) → fs'.nodeIn here name = .ok (some node) := by
    intro here name node hfile hn
    unfold nodeIn at hn ⊢
    split at hn
    · cases hn
    · rename_i hlong
      rw [if_neg hlong, htree _ _ (Except.ok.inj hn) hfile]
  induction names generalizing here with
  | nil => exact h
  | cons name rest ih =>
      rw [walkNames_cons_eq_directory] at h ⊢
      rcases h with ⟨hs, h⟩ | ⟨hup, h⟩ | ⟨hs, ⟨hn, h⟩ | ⟨id, target, hn, h⟩⟩
      · exact Or.inl ⟨hs, ih _ h⟩
      · exact Or.inr (Or.inl ⟨hup, ih _ h⟩)
      · exact Or.inr (Or.inr ⟨hs, Or.inl ⟨hnode _ _ _ (by simp) hn, ih _ h⟩⟩)
      · exact Or.inr (Or.inr ⟨hs, Or.inr ⟨id, target, hnode _ _ _ (by simp) hn, hfollow _ _ _ h⟩⟩)

/-- A name at the end of a path is looked up in the directory that the rest leads to. -/
theorem walkNames_append_name {name : Bytes} (hname : name ≠ []) {location : Location}
    {result : Except Cause Spot}
    (hresult : ∀ follow, walkNames fs purpose follow location [name] = result)
    (hfollow : ∀ here names, follow here names = .ok (.occupied location .directory) →
      follow' here (names ++ [name]) = result)
    (here : Location) (names : List Bytes)
    (h : walkNames fs .finding follow here names = .ok (.occupied location .directory)) :
    walkNames fs purpose follow' here (names ++ [name]) = result := by
  induction names generalizing here with
  | nil =>
      simp only [walkNames, Except.ok.injEq, Spot.occupied.injEq, and_true] at h
      rw [List.nil_append, h]
      exact hresult _
  | cons first rest ih =>
      -- what follows the first component ends in a name, so it is no lone slash
      have hend : purpose = .creating → rest ++ [name] ≠ [endSlash] := by
        intro _ e
        have hlast := congrArg List.getLast? e
        simp only [List.getLast?_append, List.getLast?_singleton, Option.some_or,
          Option.some.injEq] at hlast
        exact hname hlast
      rw [walkNames_cons_eq_directory] at h
      rw [List.cons_append]
      rcases h with ⟨hs, h⟩ | ⟨hup, h⟩ | ⟨⟨hs, hup⟩, ⟨hn, h⟩ | ⟨id, target, hn, h⟩⟩
      · rw [walkNames_stay hs]
        exact ih _ h
      · rw [hup, walkNames_up]
        exact ih _ h
      · rw [walkNames_proper hs hup here hend, hn]
        exact ih _ h
      · rw [walkNames_proper hs hup here hend, hn]
        simp only [← List.append_assoc]
        exact hfollow _ _ h

end walking

/-- A name that stays decides nothing about the directory at the end of a walk. -/
theorem walk_append_stay (fs : FileSystem) {stay : Bytes} (hs : IsStay stay) (links : Nat)
    (here : Location) (names : List Bytes) (location : Location) :
    fs.walk .finding links here (names ++ [stay]) = .ok (.occupied location .directory) ↔
      fs.walk .finding links here names = .ok (.occupied location .directory) := by
  induction links generalizing here names location with
  | zero => exact walkNames_append_stay hs (fun _ _ _ => by simp) here names location
  | succ links ih => exact walkNames_append_stay hs ih here names location

/-- With such a name at its end a walk finds directories only. -/
theorem walk_append_stay_ok (fs : FileSystem) {stay : Bytes} (hs : IsStay stay) (links : Nat)
    (here : Location) (names : List Bytes) {spot : Spot}
    (h : fs.walk .finding links here (names ++ [stay]) = .ok spot) :
    ∃ location, spot = .occupied location .directory := by
  induction links generalizing here names spot with
  | zero => exact walkNames_append_stay_ok hs (fun _ _ _ h => by cases h) here names h
  | succ links ih => exact walkNames_append_stay_ok hs (fun _ _ _ h => ih _ _ h) here names h

/-- A walk that ends at a directory ends there as long as no directory and no symbolic link is taken
away. -/
theorem walk_mono {fs fs' : FileSystem}
    (htree : ∀ location node, fs.tree.get? location = some node → (∀ id, node ≠ .file id) →
      fs'.tree.get? location = some node)
    (links : Nat) (here : Location) (names : List Bytes) (location : Location)
    (h : fs.walk .finding links here names = .ok (.occupied location .directory)) :
    fs'.walk .finding links here names = .ok (.occupied location .directory) := by
  induction links generalizing here names location with
  | zero => exact walkNames_mono htree (fun _ _ _ h => h) here names location h
  | succ links ih => exact walkNames_mono htree ih here names location h

/-- What the last name comes to is the same from wherever the names before it lead. -/
theorem walk_append_name {fs : FileSystem} {purpose : Purpose} {name : Bytes}
    (hname : name ≠ []) {location : Location} {result : Except Cause Spot}
    (hresult : ∀ follow, walkNames fs purpose follow location [name] = result)
    (links : Nat) (here : Location) (names : List Bytes)
    (h : fs.walk .finding links here names = .ok (.occupied location .directory)) :
    fs.walk purpose links here (names ++ [name]) = result := by
  induction links generalizing here names with
  | zero => exact walkNames_append_name hname hresult (fun _ _ h => by cases h) here names h
  | succ links ih => exact walkNames_append_name hname hresult ih here names h

/-! ## Paths of directories -/

/-- The path names the directory at this location. -/
def Leads (fs : FileSystem) (path : Path) (location : Location) : Prop :=
  fs.nodeAt path = .ok (location, .directory)

instance (fs : FileSystem) (path : Path) (location : Location) :
    Decidable (fs.Leads path location) :=
  match h : fs.nodeAt path with
  | .ok found =>
    decidable_of_iff (found = (location, .directory)) (by rw [Leads, h, Except.ok.injEq])
  | .error _ => isFalse (by rw [Leads, h]; simp)

/-- A path can be looked up if it has no zero byte, is not empty, and is not too long. -/
theorem checkPath_eq_ok_iff {path : Path} :
    checkPath path = .ok () ↔ 0 ∉ path ∧ path ≠ [] ∧ path.length < pathLimit := by
  unfold checkPath
  by_cases h0 : 0 ∈ path
  · simp [h0]
  · by_cases hne : path = []
    · simp [hne]
    · by_cases hlen : pathLimit ≤ path.length
      · simp [h0, hne, hlen]
      · simp [h0, hne, hlen, Nat.lt_of_not_le hlen]

/-- A path leads to the directory at which the walk over its components ends. -/
theorem leads_iff {fs : FileSystem} {path : Path} {location : Location} :
    fs.Leads path location ↔ checkPath path = .ok () ∧
      fs.walk .finding linkLimit (startOf fs.current path) (Path.components path) =
        .ok (.occupied location .directory) := by
  have hend : fs.walk .finding linkLimit (startOf fs.current path) (lookupNames path) =
        .ok (.occupied location .directory) ↔
      fs.walk .finding linkLimit (startOf fs.current path) (Path.components path) =
        .ok (.occupied location .directory) := by
    unfold lookupNames
    split
    · exact walk_append_stay fs (Or.inr rfl) _ _ _ _
    · rw [List.append_nil]
  rw [← hend]
  unfold Leads nodeAt resolve walkFrom
  rcases checkPath path with cause | ⟨⟩
  · simp
  · rcases fs.walk .finding linkLimit (startOf fs.current path) (lookupNames path) with
      cause | ⟨found, node⟩ | ⟨parent, name⟩ <;> simp

/-- The empty path leads nowhere. -/
theorem Leads.path_ne_nil {fs : FileSystem} {path : Path} {location : Location}
    (h : fs.Leads path location) : path ≠ [] :=
  (checkPath_eq_ok_iff.mp (leads_iff.mp h).1).2.1

/-- A path leads where it led as long as no directory and no symbolic link is taken away. -/
theorem Leads.mono {fs fs' : FileSystem} {path : Path} {location : Location}
    (h : fs.Leads path location) (hcurrent : fs'.current = fs.current)
    (htree : ∀ location node, fs.tree.get? location = some node → (∀ id, node ≠ .file id) →
      fs'.tree.get? location = some node) : fs'.Leads path location := by
  rw [leads_iff] at h ⊢
  rw [hcurrent]
  exact ⟨h.1, walk_mono htree _ _ _ _ h.2⟩

/-! ## A name in a directory -/

/-- The name can be looked up behind the path: neither is too long. -/
def Fits (path : Path) (name : Bytes) : Prop :=
  (Path.join path name).length < pathLimit ∧ name.length ≤ nameLimit

instance (path : Path) (name : Bytes) : Decidable (Fits path name) :=
  inferInstanceAs (Decidable (_ ∧ _))

/-- What stands under a name of a directory, for one who has to reach it by the path. -/
def under (fs : FileSystem) (path : Path) (location : Location) (name : Bytes) :
    Except Cause (Option Node) :=
  if Fits path name then .ok (fs.tree.get? (location.child name))
  else .error (.system .nameTooLong)

section entries

variable {fs : FileSystem} {path : Path} {location : Location} {name : Bytes}

/-- The last name of a joined path stands in the directory, unless the path is too long. -/
theorem resolveLast_join (h : fs.Leads path location) (hn : IsName name) :
    fs.resolveLast (Path.join path name) =
      if pathLimit ≤ (Path.join path name).length then .error (.system .nameTooLong)
      else .ok (.named location name false) := by
  obtain ⟨hcheck, hwalk⟩ := leads_iff.mp h
  obtain ⟨hzero, hne, -⟩ := checkPath_eq_ok_iff.mp hcheck
  have hzero' : 0 ∉ Path.join path name := (Path.zero_mem_join hne hn).not.mpr hzero
  have hstart : startOf fs.current (Path.join path name) = startOf fs.current path := by
    unfold startOf
    rw [Path.isAbsolute_join hne hn]
  have hdot := (walk_append_stay fs (Or.inl rfl : IsStay Path.dot) linkLimit
    (startOf fs.current path) (Path.components path) location).mpr hwalk
  unfold resolveLast walkFrom
  by_cases hlen : pathLimit ≤ (Path.join path name).length
  · have : checkPath (Path.join path name) = .error (.system .nameTooLong) := by
      simp [checkPath, hzero', Path.join_ne_nil hne hn, hlen]
    rw [this, if_pos hlen]
    rfl
  · have : checkPath (Path.join path name) = .ok () :=
      checkPath_eq_ok_iff.mpr ⟨hzero', Path.join_ne_nil hne hn, Nat.lt_of_not_le hlen⟩
    rw [this, if_neg hlen, Path.components_join hne hn, List.reverse_append]
    simp [hstart, hdot, hn.ne_dot, hn.ne_dotDot, Path.endsInSlash_join hne hn]

/-- The two ways to read a name behind the path of a directory. -/
theorem resolveLast_join_cases (h : fs.Leads path location) (hn : IsName name) :
    (Fits path name ∧ fs.resolveLast (Path.join path name) = .ok (.named location name false) ∧
      fs.nodeIn location name = .ok (fs.tree.get? (location.child name))) ∨
    (¬Fits path name ∧
      (fs.resolveLast (Path.join path name) = .error (.system .nameTooLong) ∨
        (fs.resolveLast (Path.join path name) = .ok (.named location name false) ∧
          fs.nodeIn location name = .error (.system .nameTooLong)))) := by
  rw [resolveLast_join h hn]
  unfold Fits nodeIn
  by_cases hlen : pathLimit ≤ (Path.join path name).length
  · exact Or.inr ⟨fun hfit => by omega, Or.inl (if_pos hlen)⟩
  · rw [if_neg hlen]
    by_cases hname : nameLimit < name.length
    · exact Or.inr ⟨fun hfit => by omega, Or.inr ⟨rfl, if_pos hname⟩⟩
    · exact Or.inl ⟨⟨by omega, by omega⟩, rfl, if_neg hname⟩

/-- To open a joined path is to open what stands under the name. -/
theorem openNode_join (h : fs.Leads path location) (hn : IsName name) :
    fs.openNode (Path.join path name) =
      match fs.under path location name with
      | .error cause => .error cause
      | .ok none => .error (.system .noEntry)
      | .ok (some (.link ..)) => .error (.system .linkLoop)
      | .ok (some node) => .ok node := by
  unfold openNode ownNodeAt under
  rcases resolveLast_join_cases h hn with ⟨hfit, hlast, hnode⟩ | ⟨hfit, hlast | ⟨hlast, hnode⟩⟩
  · rw [hlast, if_pos hfit]
    rcases hget : fs.tree.get? (location.child name) with _ | _ | _ | _ <;> simp [hnode, hget]
  · rw [hlast, if_neg hfit]
    rfl
  · rw [hlast, if_neg hfit]
    simp [hnode]

/-- To create a joined path is to bind the name, if it is free. -/
theorem create_join (h : fs.Leads path location) (hn : IsName name) (mode : Nat) :
    fs.create (Path.join path name) mode =
      match fs.under path location name with
      | .error cause => .error cause
      | .ok (some _) => .error (.system .alreadyExists)
      | .ok none => .ok (fs.addFile (location.child name) mode []) := by
  unfold create under
  rcases resolveLast_join_cases h hn with ⟨hfit, hlast, hnode⟩ | ⟨hfit, hlast | ⟨hlast, hnode⟩⟩
  · rw [hlast, if_pos hfit]
    rcases hget : fs.tree.get? (location.child name) with _ | _ <;> simp [hnode, hget]
  · rw [hlast, if_neg hfit]
    rfl
  · rw [hlast, if_neg hfit]
    simp [hnode]

/-- To unlink a joined path is to take the name away, if a file or a link stands under it. -/
theorem unlink_join (h : fs.Leads path location) (hn : IsName name) :
    fs.unlink (Path.join path name) =
      match fs.under path location name with
      | .error cause => .error cause
      | .ok none => .error (.system .noEntry)
      | .ok (some .directory) => .error (.system .isDirectory)
      | .ok (some _) => .ok (fs.unbind (location.child name)) := by
  unfold unlink under
  rcases resolveLast_join_cases h hn with ⟨hfit, hlast, hnode⟩ | ⟨hfit, hlast | ⟨hlast, hnode⟩⟩
  · rw [hlast, if_pos hfit]
    rcases hget : fs.tree.get? (location.child name) with _ | _ | _ | _ <;> simp [hnode, hget]
  · rw [hlast, if_neg hfit]
    rfl
  · rw [hlast, if_neg hfit]
    simp [hnode]

/-- Whatever it is looked up for, a name that is no symbolic link is found or found missing. -/
theorem walkFrom_join (h : fs.Leads path location) (hn : IsName name)
    (hlink : ∀ id target, fs.tree.get? (location.child name) ≠ some (.link id target))
    (purpose : Purpose) :
    (do checkPath (Path.join path name)
        fs.walkFrom purpose (Path.join path name) (lookupNames (Path.join path name))) =
      match fs.under path location name with
      | .error cause => .error cause
      | .ok none => .ok (.vacant location name)
      | .ok (some node) => .ok (.occupied (location.child name) node) := by
  obtain ⟨hcheck, hwalk⟩ := leads_iff.mp h
  obtain ⟨hzero, hne, -⟩ := checkPath_eq_ok_iff.mp hcheck
  have hzero' : 0 ∉ Path.join path name := (Path.zero_mem_join hne hn).not.mpr hzero
  have hstart : startOf fs.current (Path.join path name) = startOf fs.current path := by
    unfold startOf
    rw [Path.isAbsolute_join hne hn]
  have hnames : lookupNames (Path.join path name) = Path.components path ++ [name] := by
    unfold lookupNames
    rw [Path.endsInSlash_join hne hn, Path.components_join hne hn]
    simp
  have hs : ¬IsStay name := by
    rintro (e | e)
    · exact hn.ne_dot e
    · exact hn.ne_nil e
  unfold walkFrom under
  by_cases hlen : pathLimit ≤ (Path.join path name).length
  · have : checkPath (Path.join path name) = .error (.system .nameTooLong) := by
      simp [checkPath, hzero', Path.join_ne_nil hne hn, hlen]
    rw [this, if_neg (fun hfit : Fits path name => Nat.not_lt.mpr hlen hfit.1)]
    rfl
  · have : checkPath (Path.join path name) = .ok () :=
      checkPath_eq_ok_iff.mpr ⟨hzero', Path.join_ne_nil hne hn, Nat.lt_of_not_le hlen⟩
    rw [this, hnames, hstart, except_ok_bind]
    refine walk_append_name hn.ne_nil (fun follow => ?_) linkLimit _ _ hwalk
    rw [walkNames_proper hs hn.ne_dotDot location (fun _ => by simp [endSlash]), nodeIn]
    by_cases hname : nameLimit < name.length
    · rw [if_pos hname, if_neg (fun hfit : Fits path name => Nat.not_le.mpr hname hfit.2)]
    · rw [if_neg hname,
        if_pos (show Fits path name from ⟨Nat.lt_of_not_le hlen, Nat.le_of_not_lt hname⟩)]
      rcases hnode : fs.tree.get? (location.child name) with _ | _ | ⟨id, target⟩ | _
      · rfl
      · rfl
      · exact absurd hnode (hlink id target)
      · rfl

/-- Looked up for creation, a name that is no symbolic link is found or found missing. -/
theorem resolveForCreation_join (h : fs.Leads path location) (hn : IsName name)
    (hlink : ∀ id target, fs.tree.get? (location.child name) ≠ some (.link id target)) :
    fs.resolveForCreation (Path.join path name) =
      match fs.under path location name with
      | .error cause => .error cause
      | .ok none => .ok (.vacant location name)
      | .ok (some node) => .ok (.occupied (location.child name) node) :=
  walkFrom_join h hn hlink .creating

/-- A file of the directory is found by its path. -/
theorem nodeAt_join_of_file (h : fs.Leads path location) (hn : IsName name) (hfit : Fits path name)
    {id : FileId} (hget : fs.tree.get? (location.child name) = some (.file id)) :
    fs.nodeAt (Path.join path name) = .ok (location.child name, .file id) := by
  have hresolve : fs.resolve (Path.join path name) =
      .ok (.occupied (location.child name) (.file id)) := by
    have hwalk := walkFrom_join h hn (fun _ _ e => by rw [hget] at e; cases e) .finding
    rwa [under, if_pos hfit, hget] at hwalk
  unfold nodeAt
  rw [hresolve]
  rfl

end entries

/-- The directory in which a name is looked up is the one that the path in front of it leads to. -/
theorem leads_of_resolveLast_join {fs : FileSystem} {path : Path} {name last : Bytes}
    {parent : Location} {slash : Bool} (hne : path ≠ []) (hn : IsName name)
    (h : fs.resolveLast (Path.join path name) = .ok (.named parent last slash)) :
    fs.Leads path parent := by
  have hstart : startOf fs.current (Path.join path name) = startOf fs.current path := by
    unfold startOf
    rw [Path.isAbsolute_join hne hn]
  unfold resolveLast walkFrom at h
  rw [Path.components_join hne hn, List.reverse_append, hstart] at h
  simp only [List.reverse_singleton, List.singleton_append, List.reverse_reverse, hn.ne_dot,
    hn.ne_dotDot, if_false] at h
  rcases hcheck : checkPath (Path.join path name) with cause | ⟨⟩ <;> rw [hcheck] at h
  · cases h
  · rcases hwalk : fs.walk .finding linkLimit (startOf fs.current path)
        (Path.components path ++ [Path.dot]) with cause | spot <;>
      simp only [hwalk, except_ok_bind, except_error_bind] at h
    · cases h
    · obtain ⟨location, rfl⟩ := walk_append_stay_ok fs (Or.inl rfl) _ _ _ hwalk
      simp only [except_pure, Except.ok.injEq, Last.named.injEq] at h
      obtain ⟨rfl, -, -⟩ := h
      obtain ⟨hzero, -, hlen⟩ := checkPath_eq_ok_iff.mp hcheck
      refine leads_iff.mpr ⟨checkPath_eq_ok_iff.mpr ⟨?_, hne, ?_⟩, ?_⟩
      · exact fun hmem => hzero ((Path.zero_mem_join hne hn).mpr hmem)
      · rcases Path.join_cases hne hn with ⟨front, rfl, e⟩ | ⟨-, e⟩ <;> rw [e] at hlen <;>
          simp only [List.length_append, List.length_cons, List.length_nil] at hlen ⊢ <;> omega
      · exact (walk_append_stay fs (Or.inl rfl) _ _ _ _).mp hwalk

end FileSystem

end BlobCache
