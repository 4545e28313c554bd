import BlobCache.Proofs.Changes

/-!
# Directories that are made on the way

Making a directory makes its missing parents first, and keeps them if a later step fails. What is
left behind then is told apart from everything else here: `FileSystem.GrownAlong` says that one file
system is another with directories added in free places, each of them where some front part of a
path leads now.

* `Path.components_toPath`: a plain path is read back as the names it was put together from.
* `FileSystem.Reaches`: reading names one after another ends at a directory. A name can be put
  behind such names (`Reaches.snoc`), and what a look-up leaves to its caller stands behind them
  (`reaches_of_resolveLast`).
* `FileSystem.makeDirectories_error`: where making a directory fails, the file system has grown
  along the path of the parent, and not at all if the parent was there.
-/

namespace BlobCache

/-! ## Reading plain paths -/

namespace Path

/-- The names can stand between separators. -/
def Separable (names : List Bytes) : Prop := ∀ name ∈ names, name ≠ [] ∧ slash ∉ name

/-- A name without a slash is its own only component. -/
theorem components_of_no_slash {name : Bytes} (hne : name ≠ []) (h : slash ∉ name) :
    components name = [name] := by
  unfold components
  rw [splitFrom_of_no_slash h]
  simp [hne]

/-- Names with separators between them are read one by one. -/
theorem components_flatten_intersperse {names : List Bytes} (h : Separable names) :
    components (names.intersperse [slash]).flatten = names := by
  induction names with
  | nil => rfl
  | cons name rest ih =>
      obtain ⟨hne, hslash⟩ := h name List.mem_cons_self
      have hrest : Separable rest := fun other hmem => h other (List.mem_cons_of_mem _ hmem)
      cases rest with
      | nil => simpa using components_of_no_slash hne hslash
      | cons next rest =>
          have hpath : ((name :: next :: rest).intersperse [slash]).flatten =
              name ++ slash :: ((next :: rest).intersperse [slash]).flatten := by
            simp [List.intersperse]
          rw [hpath, components_append_slash, ih hrest, components_of_no_slash hne hslash]
          rfl

/-- Names with separators between them are no absolute path. -/
theorem not_isAbsolute_flatten_intersperse {names : List Bytes} (h : Separable names) :
    isAbsolute (names.intersperse [slash]).flatten = false := by
  rcases names with _ | ⟨_ | ⟨b, name⟩, rest⟩
  · rfl
  · exact absurd rfl (h [] List.mem_cons_self).1
  · have hb : b ≠ slash := fun e => (h _ List.mem_cons_self).2 (e ▸ List.mem_cons_self)
    cases rest <;> simp [isAbsolute, List.intersperse, hb]

section plain

variable {absolute : Bool} {names : List Bytes} (h : Separable names)
include h

/-- Names can stand between separators in any order. -/
theorem Separable.reverse : Separable names.reverse := by
  intro name hmem
  exact h name (List.mem_reverse.mp hmem)

/-- A plain path is read back as its names. -/
theorem components_toPath : components (Plain.toPath ⟨absolute, names⟩) = names.reverse := by
  have hbody := components_flatten_intersperse h.reverse
  cases absolute with
  | false => exact hbody
  | true => exact (components_append_slash [] _).trans hbody

/-- A path made of names is absolute if it is to be. -/
theorem isAbsolute_toPath : isAbsolute (Plain.toPath ⟨absolute, names⟩) = absolute := by
  cases absolute with
  | false => exact not_isAbsolute_flatten_intersperse h.reverse
  | true => rfl

end plain

/-- A path made of names is not empty. -/
theorem toPath_ne_nil {absolute : Bool} {name : Bytes} {names : List Bytes}
    (h : Separable (name :: names)) : Plain.toPath ⟨absolute, name :: names⟩ ≠ [] := by
  intro hnil
  have hnames : components (Plain.toPath ⟨absolute, name :: names⟩) = (name :: names).reverse :=
    components_toPath h
  rw [hnil] at hnames
  simp at hnames

/-- The names of a plain path are among its components. -/
theorem mem_components_of_mem_plain {path name : Bytes} (h : name ∈ (plain path).names) :
    name ∈ components path := by
  unfold plain at h
  rcases hnames : components path with _ | ⟨first, rest⟩ <;> rw [hnames] at h
  · cases h
  · simp only [List.mem_reverse, List.mem_append, List.mem_filter] at h
    rcases h with h | h
    · split at h
      · cases h
      · exact List.mem_singleton.mp h ▸ List.mem_cons_self
    · exact List.mem_cons_of_mem _ h.1

/-- The names of a path can stand between separators. -/
theorem separable_plain {path : Path} (hzero : 0 ∉ path) : Separable (plain path).names := by
  intro name hmem
  have hcomponent := mem_components_of_mem_plain hmem
  exact ⟨ne_nil_of_mem_components hcomponent,
    (isPart_of_mem_components hzero hcomponent).no_slash⟩

end Path

namespace FileSystem

/-! ## Where names lead -/

/-- Reading names, innermost first, from where a path starts ends at this directory. -/
def Reaches (fs : FileSystem) (absolute : Bool) (names : List Bytes) (place : Location) : Prop :=
  fs.walk .finding linkLimit (if absolute then .top else fs.current) names.reverse =
    .ok (.occupied place .directory)

section reaching

variable {fs : FileSystem} {absolute : Bool} {name : Bytes} {names : List Bytes}
  {here place : Location}

/-- A path made of names leads where reading them does, if it can be looked up. -/
theorem leads_toPath_iff (h : Path.Separable names) :
    fs.Leads (Path.Plain.toPath ⟨absolute, names⟩) place ↔
      checkPath (Path.Plain.toPath ⟨absolute, names⟩) = .ok () ∧
        fs.Reaches absolute names place := by
  rw [leads_iff, Path.components_toPath h, startOf, Path.isAbsolute_toPath h]
  rfl

/-- Names go on leading to their directory as long as only free places are taken. -/
theorem Reaches.bind (h : fs.Reaches absolute names here) (hfree : fs.tree.get? place = none)
    (node : Node) : (fs.bind place node).Reaches absolute names here :=
  walk_mono (fun _ _ hget _ => get?_bind_of_free hfree hget) _ _ _ _ h

/-- A path goes on leading to its directory when a free name is bound. -/
theorem Leads.bind {path : Path} (h : fs.Leads path here) (hfree : fs.tree.get? place = none)
    (node : Node) : (fs.bind place node).Leads path here :=
  h.mono rfl fun _ _ hget _ => get?_bind_of_free hfree hget

/-- A name behind names is read in their directory. -/
theorem Reaches.snoc (h : fs.Reaches absolute names here) (hne : name ≠ [])
    (hname : ∀ follow, walkNames fs .finding follow here [name] =
      .ok (.occupied place .directory)) :
    fs.Reaches absolute (name :: names) place := by
  unfold Reaches
  rw [List.reverse_cons]
  exact walk_append_name hne hname _ _ _ h

/-- One dot stays. -/
theorem Reaches.dot (h : fs.Reaches absolute names here) :
    fs.Reaches absolute (Path.dot :: names) here :=
  h.snoc (by decide) fun _ => walkNames_stay (Or.inl rfl) here []

/-- Two dots go up. -/
theorem Reaches.dotDot (h : fs.Reaches absolute names here) :
    fs.Reaches absolute (Path.dotDot :: names) here.parent :=
  h.snoc (by decide) fun _ => walkNames_up here []

/-- The name of a directory goes into it. -/
theorem Reaches.child (h : fs.Reaches absolute names here) (hs : ¬IsStay name)
    (hup : name ≠ Path.dotDot) (hnode : fs.nodeIn here name = .ok (some .directory)) :
    fs.Reaches absolute (name :: names) (here.child name) := by
  refine h.snoc (fun e => hs (Or.inr e)) fun follow => ?_
  rw [walkNames_proper hs hup here (by simp), hnode]
  rfl

/-- What a look-up leaves to its caller stands behind the other names. -/
theorem reaches_of_resolveLast {path : Path} {parent : Location} {last : Bytes} {slash : Bool}
    (hnames : Path.components path = (name :: names).reverse)
    (h : fs.resolveLast path = .ok (.named parent last slash)) :
    last = name ∧ fs.Reaches (Path.isAbsolute path) names parent := by
  unfold resolveLast at h
  rw [hnames, List.reverse_reverse] at h
  rcases hcheck : checkPath path with cause | ⟨⟩ <;>
    simp only [hcheck, except_ok_bind, except_error_bind] at h
  · cases h
  unfold walkFrom at h
  rcases hwalk : fs.walk .finding linkLimit (startOf fs.current path)
      (names.reverse ++ [Path.dot]) with cause | spot <;>
    simp only [hwalk, except_ok_bind, except_error_bind] at h
  · cases h
  obtain ⟨here, rfl⟩ := walk_append_stay_ok fs (Or.inl rfl) _ _ _ hwalk
  have hreaches := (walk_append_stay fs (Or.inl rfl) _ _ _ _).mp hwalk
  split_ifs at h
  · cases h
  · cases h
  · cases h
    exact ⟨rfl, hreaches⟩

/-- Names are looked up in the tree and in nothing else. -/
theorem resolveLast_congr {fs' : FileSystem} (htree : fs'.tree = fs.tree)
    (hcurrent : fs'.current = fs.current) (path : Path) :
    fs'.resolveLast path = fs.resolveLast path := by
  have hnode : ∀ here name, fs'.nodeIn here name = fs.nodeIn here name := by
    intro here name
    unfold nodeIn
    rw [htree]
  have hnames : ∀ follow here names,
      walkNames fs' .finding follow here names = walkNames fs .finding follow here names := by
    intro follow here names
    induction names generalizing here with
    | nil => rfl
    | cons name rest ih => simp only [walkNames, hnode, ih]
  have hwalk : ∀ links, fs'.walk .finding links = fs.walk .finding links := by
    intro links
    induction links with
    | zero =>
        funext here names
        exact hnames _ here names
    | succ links ih =>
        funext here names
        rw [walk, walk, ih]
        exact hnames _ here names
  unfold resolveLast walkFrom
  rw [hwalk, hcurrent]

end reaching

/-! ## Growing along a path -/

/-- Nothing happened but that directories were made in free places, each where some front part of
these names leads now. -/
structure GrownAlong (absolute : Bool) (names : List Bytes) (fs fs' : FileSystem) : Prop where
  /-- Nothing but the tree is different. -/
  rest_eq : fs' = { fs with tree := fs'.tree }
  /-- What stood somewhere still does. -/
  kept : ∀ place node, fs.tree.get? place = some node → fs'.tree.get? place = some node
  /-- What was added is a directory on the way. -/
  added : ∀ place node, fs.tree.get? place = none → fs'.tree.get? place = some node →
    node = .directory ∧ ∃ front, front ≠ [] ∧ front <:+ names ∧
      fs'.Leads (Path.Plain.toPath ⟨absolute, front⟩) place

namespace GrownAlong

variable {fs fs' : FileSystem} {absolute : Bool} {names : List Bytes} {place : Location}

/-- If nothing happens, nothing is made. -/
theorem refl (absolute : Bool) (names : List Bytes) (fs : FileSystem) :
    GrownAlong absolute names fs fs where
  rest_eq := rfl
  kept _ _ hget := hget
  added place node hfree hget := by
    rw [hfree] at hget
    cases hget

/-- What was made on the way to a front part was made on the way to the whole. -/
theorem mono {more : List Bytes} (h : GrownAlong absolute names fs fs') (hmore : names <:+ more) :
    GrownAlong absolute more fs fs' where
  rest_eq := h.rest_eq
  kept := h.kept
  added place node hfree hget := by
    obtain ⟨hnode, front, hne, hfront, hlead⟩ := h.added place node hfree hget
    exact ⟨hnode, front, hne, hfront.trans hmore, hlead⟩

/-- One more directory is made, to which all of the names lead. -/
theorem bind {name : Bytes} (h : GrownAlong absolute (name :: names) fs fs')
    (hfree : fs'.tree.get? place = none)
    (hlead : (fs'.bind place .directory).Leads (Path.Plain.toPath ⟨absolute, name :: names⟩)
      place) : GrownAlong absolute (name :: names) fs (fs'.bind place .directory) where
  rest_eq := by
    rw [h.rest_eq]
    rfl
  kept other node hget := get?_bind_of_free hfree (h.kept other node hget)
  added other node hnone hget := by
    by_cases hplace : other = place
    · subst hplace
      have hnode : some Node.directory = some node := (Table.get?_set_self _ _ _).symm.trans hget
      exact ⟨(Option.some.inj hnode).symm, _, by simp, List.suffix_refl _, hlead⟩
    · rw [FileSystem.bind, Table.get?_set_ne _ hplace] at hget
      obtain ⟨hnode, front, hne, hfront, hlead'⟩ := h.added other node hnone hget
      exact ⟨hnode, front, hne, hfront, hlead'.bind hfree _⟩

end GrownAlong

section making

variable {fs fs' : FileSystem} {absolute : Bool} {name : Bytes} {names : List Bytes}
  {here place : Location} {path : Path}

/-- Where a directory can be made, its parent is there and its name is free. -/
theorem named_of_vacancy {slashed : Option SystemError} (h : fs.vacancy path slashed = .ok place) :
    ∃ parent last slash, fs.resolveLast path = .ok (.named parent last slash) ∧
      fs.nodeIn parent last = .ok none ∧ place = parent.child last := by
  unfold vacancy at h
  rcases hlast : fs.resolveLast path with cause | ⟨parent, last, slash⟩ | spot <;>
    simp only [hlast, except_ok_bind, except_error_bind] at h
  · cases h
  · rcases hnode : fs.nodeIn parent last with cause | _ | node <;>
      simp only [hnode, except_ok_bind, except_error_bind] at h
    · cases h
    · simp only [Option.isSome_none, Bool.false_eq_true, if_false, except_pure] at h
      split at h
      · cases h
      · exact ⟨parent, last, slash, rfl, hnode, (Except.ok.inj h).symm⟩
    · cases h
  · cases h

/-- Only a parent that is missing makes a directory miss its place. -/
theorem resolveLast_of_vacancy_eq_noEntry (h : fs.vacancy path none = .error (.system .noEntry)) :
    fs.resolveLast path = .error (.system .noEntry) := by
  unfold vacancy at h
  rcases hlast : fs.resolveLast path with cause | ⟨parent, last, slash⟩ | spot <;>
    simp only [hlast, except_ok_bind, except_error_bind] at h
  · rw [Except.error.inj h]
  · rcases hnode : fs.nodeIn parent last with cause | _ | node <;>
      simp only [hnode, except_ok_bind, except_error_bind] at h
    · unfold nodeIn at hnode
      split at hnode
      · cases hnode
        cases h
      · cases hnode
    · simp at h
    · cases h
  · cases h

/-- A path that is looked up at all is one that file systems read. -/
theorem checkPath_of_vacancy {slashed : Option SystemError}
    (h : (∃ place, fs.vacancy path slashed = .ok place) ∨
      fs.vacancy path slashed = .error (.system .noEntry)) (hne : path ≠ []) :
    checkPath path = .ok () := by
  rcases hcheck : checkPath path with cause | ⟨⟩
  · have hrefused : fs.vacancy path slashed = .error cause := by
      unfold vacancy resolveLast
      rw [hcheck]
      rfl
    rw [hrefused] at h
    rcases h with ⟨place, e⟩ | e
    · cases e
    · -- only the empty path is refused as missing
      cases e
      have hempty : path.isEmpty = false := by simpa using hne
      unfold checkPath at hcheck
      simp only [hempty, Bool.false_eq_true, if_false] at hcheck
      split_ifs at hcheck
      all_goals cases hcheck
  · rfl

/-- Where a directory with these names can be made, it is what they lead to afterwards. -/
theorem reaches_of_vacancy (hparts : Path.Separable (name :: names))
    (h : fs.vacancy (Path.Plain.toPath ⟨absolute, name :: names⟩) none = .ok place) :
    (fs.bind place .directory).Reaches absolute (name :: names) place := by
  have hfree := get?_of_vacancy h
  obtain ⟨parent, last, slash, hlast, hnode, rfl⟩ := named_of_vacancy h
  obtain ⟨rfl, hreaches⟩ := reaches_of_resolveLast (Path.components_toPath hparts) hlast
  have hname := isName_of_resolveLast hlast
  rw [Path.isAbsolute_toPath hparts] at hreaches
  refine (hreaches.bind hfree _).child ?_ hname.ne_dotDot ?_
  · rintro (e | e)
    · exact hname.ne_dot e
    · exact hname.ne_nil e
  · exact nodeIn_eq_ok_iff.mpr ⟨(nodeIn_eq_ok_iff.mp hnode).1, Table.get?_set_self _ _ _⟩

/-- Where a directory is found instead of made, the path leads there. -/
theorem leads_of_directoryAt {refusal : Cause} (h : fs.directoryAt path refusal = .ok place) :
    fs.Leads path place := by
  unfold directoryAt at h
  split at h
  · rename_i hnode
    cases h
    exact hnode
  · cases h

/-- Entering a directory makes it at most, and then it is what all the names lead to. -/
theorem enterDirectory_grown (hparts : Path.Separable (name :: names))
    (hcheck : checkPath (Path.Plain.toPath ⟨absolute, name :: names⟩) = .ok ())
    (h : GrownAlong absolute names fs fs') (hreaches : fs'.Reaches absolute names here) :
    let entered := fs'.enterDirectory here name (Path.Plain.toPath ⟨absolute, name :: names⟩)
    GrownAlong absolute (name :: names) fs entered.2 ∧
      ∀ there, entered.1 = .ok there → entered.2.Reaches absolute (name :: names) there := by
  have hgrown := h.mono (List.suffix_cons name names)
  intro entered
  have hentered : entered =
    fs'.enterDirectory here name (Path.Plain.toPath ⟨absolute, name :: names⟩) := rfl
  unfold enterDirectory at hentered
  by_cases hdot : name = Path.dot
  · rw [if_pos hdot] at hentered
    rw [hentered, hdot]
    refine ⟨hdot ▸ hgrown, fun there e => ?_⟩
    cases e
    exact hreaches.dot
  rw [if_neg hdot] at hentered
  by_cases hup : name = Path.dotDot
  · rw [if_pos hup] at hentered
    rw [hentered, hup]
    refine ⟨hup ▸ hgrown, fun there e => ?_⟩
    cases e
    exact hreaches.dotDot
  rw [if_neg hup] at hentered
  have hs : ¬IsStay name := by
    rintro (e | e)
    · exact hdot e
    · exact (hparts name List.mem_cons_self).1 e
  have hfound : ∀ refusal there,
      fs'.directoryAt (Path.Plain.toPath ⟨absolute, name :: names⟩) refusal = .ok there →
      fs'.Reaches absolute (name :: names) there :=
    fun refusal there e => ((leads_toPath_iff hparts).mp (leads_of_directoryAt e)).2
  rcases hnode : fs'.nodeIn here name with cause | _ | _ | ⟨id, target⟩ | id <;>
    simp only [hnode] at hentered <;> rw [hentered]
  · exact ⟨hgrown, fun there e => by cases e⟩
  · obtain ⟨hlength, hfree⟩ := nodeIn_eq_ok_iff.mp hnode
    have hmade : (fs'.bind (here.child name) .directory).Reaches absolute (name :: names)
        (here.child name) :=
      (hreaches.bind hfree _).child hs hup
        (nodeIn_eq_ok_iff.mpr ⟨hlength, Table.get?_set_self _ _ _⟩)
    refine ⟨hgrown.bind hfree ((leads_toPath_iff hparts).mpr ⟨hcheck, hmade⟩), fun there e => ?_⟩
    cases e
    exact hmade
  · refine ⟨hgrown, fun there e => ?_⟩
    cases e
    exact hreaches.child hs hup hnode
  · exact ⟨hgrown, hfound _⟩
  · exact ⟨hgrown, hfound _⟩

/-- Making a directory and its parents takes free places on the way, and ends where the names
lead. -/
theorem makePlainDirectory_grown (absolute : Bool) {names : List Bytes}
    (hparts : Path.Separable names) (fs : FileSystem) :
    GrownAlong absolute names fs (makePlainDirectory absolute names fs).2 ∧
      ∀ place, (makePlainDirectory absolute names fs).1 = .ok place →
        (makePlainDirectory absolute names fs).2.Reaches absolute names place := by
  induction names generalizing fs with
  | nil =>
      refine ⟨.refl _ _ _, fun place e => ?_⟩
      cases e
      rfl
  | cons name outer ih =>
      have houter : Path.Separable outer := fun other hmem =>
        hparts other (List.mem_cons_of_mem _ hmem)
      obtain ⟨hgrown, hreaches⟩ := ih houter fs
      unfold makePlainDirectory
      simp only
      split
      · rename_i place hplace
        have hmade := reaches_of_vacancy hparts hplace
        have hcheck := checkPath_of_vacancy (Or.inl ⟨place, hplace⟩) (Path.toPath_ne_nil hparts)
        refine ⟨(GrownAlong.refl _ _ _).bind (get?_of_vacancy hplace)
          ((leads_toPath_iff hparts).mpr ⟨hcheck, hmade⟩), fun there e => ?_⟩
        cases e
        exact hmade
      · rename_i hplace
        have hcheck := checkPath_of_vacancy (Or.inr hplace) (Path.toPath_ne_nil hparts)
        rcases hmade : makePlainDirectory absolute outer fs with ⟨_ | here, fs'⟩ <;>
          rw [hmade] at hgrown hreaches
        · exact ⟨hgrown.mono (List.suffix_cons _ _), fun there e => by cases e⟩
        · exact enterDirectory_grown hparts hcheck hgrown (hreaches here rfl)
      · exact ⟨.refl _ _ _,
          fun there e => ((leads_toPath_iff hparts).mp (leads_of_directoryAt e)).2⟩

/-- The last step of making a directory: its place is taken, or it is found there. -/
def settleDirectory (fs : FileSystem) (path : Path) : Except Cause Unit × FileSystem :=
  match fs.vacancy path none with
  | .ok place => (.ok (), fs.bind place .directory)
  | .error cause => ((fs.directoryAt path cause).map fun _ => (), fs)

/-- Where the last step fails, it makes nothing. -/
theorem settleDirectory_error {cause : Cause} (h : (fs.settleDirectory path).1 = .error cause) :
    (fs.settleDirectory path).2 = fs := by
  unfold settleDirectory at h ⊢
  split at h
  · cases h
  · rfl

/-- Where the parent of a directory is missing, it is made before the directory. -/
theorem makeDirectories_of_missing {last : Bytes} {outer : List Bytes}
    (hnames : (Path.plain path).names = last :: outer)
    (hmissing : fs.vacancy path none = .error (.system .noEntry)) :
    fs.makeDirectories path =
      match makePlainDirectory (Path.plain path).absolute outer fs with
      | (.error cause, fs) => (.error cause, fs)
      | (.ok _, fs) => fs.settleDirectory path := by
  unfold makeDirectories
  simp only [hnames, hmissing]
  rfl

/-- Where it is not missing, only the directory is made. -/
theorem makeDirectories_of_found {last : Bytes} {outer : List Bytes}
    (hnames : (Path.plain path).names = last :: outer)
    (hfound : fs.vacancy path none ≠ .error (.system .noEntry)) :
    fs.makeDirectories path = fs.settleDirectory path := by
  unfold makeDirectories
  simp only [hnames]
  split
  · rename_i hmissing
    exact absurd hmissing hfound
  · rfl

/-- Where a directory cannot be made, what is left behind are parents that were missing. -/
theorem makeDirectories_error {cause : Cause} (h : (fs.makeDirectories path).1 = .error cause) :
    GrownAlong (Path.plain path).absolute (Path.plain path).names.tail fs
        (fs.makeDirectories path).2 ∧
      (fs.resolveLast path ≠ .error (.system .noEntry) → (fs.makeDirectories path).2 = fs) := by
  rcases hnames : (Path.plain path).names with _ | ⟨last, outer⟩
  · have hmade : fs.makeDirectories path = (.ok (), fs) := by
      unfold makeDirectories
      simp only [hnames]
    rw [hmade] at h
    cases h
  have hne : path ≠ [] := by
    rintro rfl
    cases hnames
  rw [List.tail_cons]
  by_cases hmissing : fs.vacancy path none = .error (.system .noEntry)
  · have hzero := (checkPath_eq_ok_iff.mp (checkPath_of_vacancy (Or.inr hmissing) hne)).1
    have houter : Path.Separable outer := fun name hmem =>
      Path.separable_plain hzero name (hnames ▸ List.mem_cons_of_mem _ hmem)
    refine ⟨?_, fun hfound => absurd (resolveLast_of_vacancy_eq_noEntry hmissing) hfound⟩
    have hgrown := (makePlainDirectory_grown (Path.plain path).absolute houter fs).1
    rw [makeDirectories_of_missing hnames hmissing] at h ⊢
    rcases hmade : makePlainDirectory (Path.plain path).absolute outer fs with ⟨_ | here, made⟩ <;>
      rw [hmade] at h hgrown <;> simp only
    · exact hgrown
    · rw [settleDirectory_error h]
      exact hgrown
  · rw [makeDirectories_of_found hnames hmissing] at h ⊢
    rw [settleDirectory_error h]
    exact ⟨.refl _ _ _, fun _ => rfl⟩

end making

end FileSystem

end BlobCache
