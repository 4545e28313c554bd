import BlobCache.Proofs.Checking
import BlobCache.Proofs.Recency

/-!
# A check of all entries and a look-up of each

A check walks over a listing and removes files from the directory it is judging, and a look-up knows
nothing of the other entries. They come to the same verdicts all the same.

* `Cache.hits` and `Cache.removes`: what looking up an entry comes to, seen from outside. They are
  the verdict on the entry (`hits_eq`, `removes_eq`).
* `FileSystem.verdict_without`: the verdict on an entry that stays is the same when damaged ones
  have gone.
* `Cache.verify_agrees_with_get`: a check counts what look-ups would find, removes what they would
  remove, and a second one has nothing left to do.
-/

namespace BlobCache

namespace FileSystem

variable {fs : FileSystem} {digest : Digest} {path : Path} {location : Location} {entry : Entry}

/-- A damaged entry of a directory is a file with one name. -/
theorem single_of_isDamaged (hwf : fs.WellFormed) (hlead : fs.Leads path location)
    (hentry : entry ∈ fs.entriesIn location)
    (hdamaged : Cache.isDamaged (fs.verdict digest path entry) = true) :
    ∃ id, fs.tree.get? (placeOf location entry) = some (.file id) ∧
      fs.linkCount (.file id) ≤ 1 := by
  obtain ⟨id, hget, -⟩ := mem_entriesIn.mp hentry
  have hname : Path.IsName (Path.ofText entry.name) := (hwf.named _ _ _ hget).1
  unfold verdict reading at hdamaged
  rcases hgranted : fs.granted (Path.join path (Path.ofText entry.name)) .shared with error | found
  · rw [hgranted] at hdamaged
    exact absurd hdamaged (by simp [Cache.isDamaged, not_isCorrupt_of_granted hgranted])
  · obtain ⟨-, hfound, hsingle, -⟩ := (granted_eq_ok_iff hlead hname).mp hgranted
    exact ⟨found, hfound, hsingle⟩

/-- When damaged entries have gone, the verdict on what stays is the same. -/
theorem verdict_without (hwf : fs.WellFormed) (hlead : fs.Leads path location) {gone : List Entry}
    (hgone : ∀ other ∈ gone, other ∈ fs.entriesIn location ∧
      Cache.isDamaged (fs.verdict digest path other) = true)
    (hentry : entry ∈ fs.entriesIn location) (hstays : entry ∉ gone) (next : Nat) :
    ((fs.without location gone).usedUpTo next).verdict digest path entry =
      fs.verdict digest path entry := by
  have hlisted : ∀ other ∈ gone, other ∈ fs.entriesIn location := fun other h => (hgone other h).1
  obtain ⟨id, hget, -⟩ := mem_entriesIn.mp hentry
  have hlead' : ((fs.without location gone).usedUpTo next).Leads path location :=
    (hlead.without hlisted).mono rfl fun _ _ h _ => h
  have hgranted : ((fs.without location gone).usedUpTo next).granted
      (Path.join path (Path.ofText entry.name)) .shared =
        fs.granted (Path.join path (Path.ofText entry.name)) .shared := by
    refine granted_congr hlead hlead' (hwf.named _ _ _ hget).1 ?_ ?_ rfl .shared
    · show (fs.without location gone).tree.get? (placeOf location entry) = _
      rw [get?_without, if_neg fun h => hstays ((placeOf_mem_iff hlisted hentry).mp h)]
      rfl
    · -- a file under the name of a damaged entry has that name only
      intro found hfound
      refine linkCount_without fun other hother hsame => ?_
      obtain ⟨otherId, hother', hsingle⟩ :=
        single_of_isDamaged hwf hlead (hgone other hother).1 (hgone other hother).2
      rw [hother'] at hsame
      cases hsame
      have hne : placeOf location other ≠ placeOf location entry := by
        intro e
        exact hstays (eq_of_name_eq (hlisted other hother) hentry (placeOf_inj.mp e) ▸ hother)
      have htwo := two_le_linkCount hne hother' hfound
      omega
  unfold verdict reading
  rw [hgranted]
  rfl

end FileSystem

namespace Cache

variable {m : Machine} {cache : Cache} {path : Path} {location : Location} {entry : Entry}

/-! ## Looking up an entry -/

/-- Looking up an entry finds it. -/
def hits (cache : Cache) (m : Machine) (entry : Entry) : Bool :=
  (get Machine.host cache ⟨entry.name⟩ m).1.isSome

/-- Looking up an entry removes it: it is not listed any more. -/
def removes (cache : Cache) (m : Machine) (entry : Entry) : Bool :=
  entry ∉ (entries Machine.host cache (get Machine.host cache ⟨entry.name⟩ m).2).1

section lookup

variable (hwf : m.fs.WellFormed) (hdir : cache.state.directory? = some path)
  (hlead : m.fs.Leads path location) (hentry : entry ∈ m.fs.entriesIn location)

include hwf hdir hlead hentry

/-- Looking up an entry comes to the verdict on it: a sound entry is found and a damaged one is
removed, and but for that no name and no file changes. -/
theorem get_by_verdict :
    (get Machine.host cache ⟨entry.name⟩ m).1.isSome =
        isSound (m.fs.verdict cache.digest path entry) ∧
      (isDamaged (m.fs.verdict cache.digest path entry) = false ∧
          (get Machine.host cache ⟨entry.name⟩ m).2.fs.Leads path location ∧
          (get Machine.host cache ⟨entry.name⟩ m).2.fs.entriesIn location =
            m.fs.entriesIn location ∨
        isDamaged (m.fs.verdict cache.digest path entry) = true ∧
          (get Machine.host cache ⟨entry.name⟩ m).2.fs.Leads path location ∧
          (get Machine.host cache ⟨entry.name⟩ m).2.fs.tree.get?
            (FileSystem.placeOf location entry) = none) := by
  obtain ⟨id, hget, -⟩ := FileSystem.mem_entriesIn.mp hentry
  have hname : Key.IsName ⟨entry.name⟩ := (hwf.named _ _ _ hget).1
  have hpath : entryPath path ⟨entry.name⟩ = Path.join path (Path.ofText entry.name) := rfl
  rw [get_eq hwf hlead hdir hname, hpath]
  unfold FileSystem.verdict FileSystem.reading
  rcases hgranted : m.fs.granted (Path.join path (Path.ofText entry.name)) .shared with
    error | found
  · exact ⟨rfl, Or.inl ⟨FileSystem.not_isCorrupt_of_granted hgranted, hlead, rfl⟩⟩
  obtain ⟨-, hfound, -, -⟩ := (FileSystem.granted_eq_ok_iff hlead hname).mp hgranted
  rcases hcheck : Entry.check cache.digest (Path.join path (Path.ofText entry.name))
      (m.fs.contents found) with error | length
  · by_cases hcorrupt : error.isCorrupt = true
    · have hcalm : m.fs.Calm location (m.fs.spent.unbind (FileSystem.placeOf location entry)) :=
        (FileSystem.Calm.spent location m.fs).trans (.unbind hfound)
      simp only [hcheck, if_pos hcorrupt]
      exact ⟨rfl, Or.inr ⟨hcorrupt, hcalm.leads hlead, Table.get?_erase_self _ _⟩⟩
    · simp only [hcheck, if_neg hcorrupt]
      exact ⟨rfl, Or.inl ⟨by simpa [isDamaged] using hcorrupt, hlead.spent, rfl⟩⟩
  · simp only [hcheck]
    have hcalm : m.fs.Calm location
        (m.fs.holding (Path.join path (Path.ofText entry.name)) found) :=
      .holding hfound _
    exact ⟨rfl, Or.inl ⟨rfl, hcalm.leads hlead, rfl⟩⟩

/-- An entry is a hit if the verdict on it is good. -/
theorem hits_eq : cache.hits m entry = isSound (m.fs.verdict cache.digest path entry) :=
  (get_by_verdict hwf hdir hlead hentry).1

/-- A `get` removes an entry if the verdict on it is that it is damaged. -/
theorem removes_eq :
    cache.removes m entry = isDamaged (m.fs.verdict cache.digest path entry) := by
  unfold removes
  rcases (get_by_verdict hwf hdir hlead hentry).2 with
    ⟨hsound, hlead', hsame⟩ | ⟨hdamaged, hlead', hgone⟩
  · rw [hsound, entries_of_leads hdir hlead', hsame]
    simpa using Entry.mem_inOrder.mpr hentry
  · rw [hdamaged, entries_of_leads hdir hlead', decide_eq_true_eq, Entry.mem_inOrder]
    intro hmem
    obtain ⟨other, hother, -⟩ := FileSystem.mem_entriesIn.mp hmem
    rw [FileSystem.placeOf, hother] at hgone
    cases hgone

end lookup

/-! ## Every entry counts once -/

/-- Passed over is what is neither sound nor damaged. -/
theorem isPassedOver_eq (verdict : Except StoreError Nat) :
    isPassedOver verdict = (!isSound verdict && !isDamaged verdict) := by
  cases verdict <;> rfl

/-- What is sound is not damaged. -/
theorem not_isDamaged_of_isSound {verdict : Except StoreError Nat}
    (h : isSound verdict = true) : isDamaged verdict = false := by
  cases verdict with
  | ok => rfl
  | error => cases h

/-- A verdict is of one kind. -/
theorem kinds_of_verdict (verdict : Except StoreError Nat) :
    (if isSound verdict then 1 else 0) + (if isDamaged verdict then 1 else 0) +
      (if isPassedOver verdict then 1 else 0) = 1 := by
  rcases verdict with error | length
  · by_cases hcorrupt : error.isCorrupt = true
    · simp [isSound, isDamaged, isPassedOver, hcorrupt]
    · simp [isSound, isDamaged, isPassedOver, hcorrupt]
  · rfl

/-- Every entry is counted once. -/
theorem VerifyReport.ofVerdicts_counts (verdict : Entry → Except StoreError Nat)
    (entries : List Entry) :
    (ofVerdicts verdict entries).valid + (ofVerdicts verdict entries).corrupt.length +
      (ofVerdicts verdict entries).skipped = entries.length := by
  unfold ofVerdicts
  simp only [List.length_map, ← List.countP_eq_length_filter]
  induction entries with
  | nil => rfl
  | cons entry rest ih =>
      have hkinds := kinds_of_verdict (verdict entry)
      simp only [List.countP_cons, List.length_cons]
      omega

/-- Without the damaged entries the report is the same but for their names, in whatever order the
others are. -/
theorem VerifyReport.ofVerdicts_of_undamaged {verdict : Entry → Except StoreError Nat}
    {entries rest : List Entry}
    (h : rest.Perm (entries.filter fun entry => !isDamaged (verdict entry))) :
    ofVerdicts verdict rest =
      ⟨(ofVerdicts verdict entries).valid, [], (ofVerdicts verdict entries).skipped⟩ := by
  have hvalid : ∀ entry, (isSound (verdict entry) && !isDamaged (verdict entry)) =
      isSound (verdict entry) := by
    intro entry
    cases verdict entry <;> rfl
  have hskipped : ∀ entry, (isPassedOver (verdict entry) && !isDamaged (verdict entry)) =
      isPassedOver (verdict entry) := by
    intro entry
    rw [isPassedOver_eq, Bool.and_assoc, Bool.and_self]
  have hnone : rest.filter (fun entry => isDamaged (verdict entry)) = [] := by
    rw [List.filter_eq_nil_iff]
    intro entry hmem
    simpa using (List.mem_filter.mp (h.subset hmem)).2
  unfold ofVerdicts
  simp only [h.countP_eq, List.countP_filter, hvalid, hskipped, hnone, List.map_nil]

/-! ## The check -/

/-- What a check of all entries comes to, in terms of looking up each of them by its name. -/
structure AgreesWithGet (cache : Cache) (path : Path) (m : Machine) : Prop where
  /-- The entries are in the order of their access times, and among equals of their names. -/
  sorted : (entries Machine.host cache m).1.Pairwise fun a b =>
    a.before b = true ∧ a.name ≠ b.name
  /-- Those that a look-up finds are counted as valid. -/
  valid_eq : (verify Machine.host cache m).1.valid =
    (entries Machine.host cache m).1.countP (cache.hits m)
  /-- Those that a look-up removes are listed, in the order of the entries. -/
  corrupt_eq : (verify Machine.host cache m).1.corrupt =
    ((entries Machine.host cache m).1.filter (cache.removes m)).map (·.name)
  /-- Those of which it does neither are skipped. -/
  skipped_eq : (verify Machine.host cache m).1.skipped =
    (entries Machine.host cache m).1.countP fun entry =>
      !cache.hits m entry && !cache.removes m entry
  /-- A look-up does not do both. -/
  exclusive : ∀ entry ∈ (entries Machine.host cache m).1,
    cache.hits m entry = true → cache.removes m entry = false
  /-- So every entry is counted once. -/
  counted : (verify Machine.host cache m).1.valid +
      (verify Machine.host cache m).1.corrupt.length +
      (verify Machine.host cache m).1.skipped = (entries Machine.host cache m).1.length
  /-- The names that are listed are removed, and no other. -/
  removed : ∀ location, m.fs.Leads path location → ∀ place,
    (verify Machine.host cache m).2.fs.tree.get? place =
      if place ∈ (verify Machine.host cache m).1.corrupt.map fun name =>
          location.child (Path.ofText name) then none
      else m.fs.tree.get? place
  /-- Behind a path that leads to no directory nothing is removed. -/
  untouched : (¬∃ location, m.fs.Leads path location) →
    (verify Machine.host cache m).2.fs.tree = m.fs.tree
  /-- Every file keeps its bytes and its access time. -/
  files_eq : (verify Machine.host cache m).2.fs.files = m.fs.files
  /-- No handle comes or goes. -/
  handles_eq : (verify Machine.host cache m).2.fs.handles = m.fs.handles
  /-- A second check finds what is left as the first one did. -/
  again : (verify Machine.host cache (verify Machine.host cache m).2).1 =
    ⟨(verify Machine.host cache m).1.valid, [], (verify Machine.host cache m).1.skipped⟩
  /-- It changes nothing; it only uses up identities. -/
  again_fs : ∃ next, (verify Machine.host cache (verify Machine.host cache m).2).2.fs =
    (verify Machine.host cache m).2.fs.usedUpTo next

/-- The damaged entries of a directory. -/
def damagedIn (fs : FileSystem) (digest : Digest) (path : Path) (location : Location) :
    List Entry :=
  damagedOf fs digest path (Entry.inOrder (fs.entriesIn location))

/-- Damaged entries are those with this verdict. -/
theorem mem_damagedIn {fs : FileSystem} {digest : Digest} :
    entry ∈ damagedIn fs digest path location ↔
      entry ∈ fs.entriesIn location ∧ isDamaged (fs.verdict digest path entry) = true := by
  unfold damagedIn damagedOf
  rw [List.mem_filter, Entry.mem_inOrder]

/-- A check of what the first one has left comes to what the first one did, but for the entries that
are gone. -/
theorem verify_again (hwf : m.fs.WellFormed) (hdir : cache.state.directory? = some path)
    (hlead : m.fs.Leads path location) {m' : Machine} {next : Nat} (hwf' : m'.fs.WellFormed)
    (hfs : m'.fs =
      (m.fs.without location (damagedIn m.fs cache.digest path location)).usedUpTo next) :
    (verify Machine.host cache m').1 =
        ⟨(VerifyReport.ofVerdicts (m.fs.verdict cache.digest path)
            (Entry.inOrder (m.fs.entriesIn location))).valid, [],
          (VerifyReport.ofVerdicts (m.fs.verdict cache.digest path)
            (Entry.inOrder (m.fs.entriesIn location))).skipped⟩ ∧
      ∃ next, (verify Machine.host cache m').2.fs = m'.fs.usedUpTo next := by
  have hgone : ∀ other ∈ damagedIn m.fs cache.digest path location,
      other ∈ m.fs.entriesIn location ∧
        isDamaged (m.fs.verdict cache.digest path other) = true :=
    fun other h => mem_damagedIn.mp h
  have hlisted : ∀ other ∈ damagedIn m.fs cache.digest path location,
      other ∈ m.fs.entriesIn location := fun other h => (hgone other h).1
  have hlead' : m'.fs.Leads path location := by
    rw [hfs]
    exact (hlead.without hlisted).mono rfl fun _ _ h _ => h
  have hleft : ∀ entry, entry ∈ m'.fs.entriesIn location ↔
      entry ∈ m.fs.entriesIn location ∧
        isDamaged (m.fs.verdict cache.digest path entry) = false := by
    intro entry
    have hmem : entry ∈ m'.fs.entriesIn location ↔ entry ∈ m.fs.entriesIn location ∧
        entry ∉ damagedIn m.fs cache.digest path location := by
      rw [hfs]
      exact FileSystem.mem_entriesIn_without hlisted
    rw [hmem, mem_damagedIn]
    simp +contextual
  have hsame : ∀ entry ∈ Entry.inOrder (m'.fs.entriesIn location),
      m'.fs.verdict cache.digest path entry = m.fs.verdict cache.digest path entry := by
    intro entry hmem
    obtain ⟨hentry, hsound⟩ := (hleft entry).mp (Entry.mem_inOrder.mp hmem)
    rw [hfs]
    refine FileSystem.verdict_without hwf hlead hgone hentry (fun hin => ?_) next
    rw [(hgone entry hin).2] at hsound
    cases hsound
  have hperm : (Entry.inOrder (m'.fs.entriesIn location)).Perm
      ((Entry.inOrder (m.fs.entriesIn location)).filter fun entry =>
        !isDamaged (m.fs.verdict cache.digest path entry)) := by
    have hnodup : ∀ fs : FileSystem, (Entry.inOrder (fs.entriesIn location)).Nodup :=
      fun fs => (Entry.perm_inOrder _).nodup_iff.mpr (fs.nodup_entriesIn location)
    refine (List.perm_ext_iff_of_nodup (hnodup _) ((hnodup _).filter _)).mpr fun entry => ?_
    rw [List.mem_filter, Entry.mem_inOrder, Entry.mem_inOrder, hleft]
    simp
  have hnone : damagedOf m'.fs cache.digest path (Entry.inOrder (m'.fs.entriesIn location)) =
      [] := by
    refine List.filter_eq_nil_iff.mpr fun entry hmem => ?_
    rw [hsame entry hmem, ((hleft entry).mp (Entry.mem_inOrder.mp hmem)).2]
    exact Bool.false_ne_true
  obtain ⟨m'', next, hrun, -, hfs'⟩ := verify_eq hwf' hdir hlead'
  rw [hnone, FileSystem.without_nil] at hfs'
  rw [hrun]
  refine ⟨?_, next, hfs'⟩
  rw [VerifyReport.ofVerdicts_congr hsame]
  exact VerifyReport.ofVerdicts_of_undamaged hperm

/-- In a directory that is there, a check agrees with `get`. -/
theorem agreesWithGet_of_leads (hwf : m.fs.WellFormed) (hdir : cache.state.directory? = some path)
    (hlead : m.fs.Leads path location) : cache.AgreesWithGet path m := by
  have hentries := entries_of_leads (m := m) hdir hlead
  obtain ⟨m', next, hrun, hwf', hfs⟩ := verify_eq hwf hdir hlead
  obtain ⟨hagain, hagain'⟩ := verify_again hwf hdir hlead hwf' hfs
  have hhits : ∀ entry ∈ Entry.inOrder (m.fs.entriesIn location),
      cache.hits m entry = isSound (m.fs.verdict cache.digest path entry) :=
    fun entry hmem => hits_eq hwf hdir hlead (Entry.mem_inOrder.mp hmem)
  have hremoves : ∀ entry ∈ Entry.inOrder (m.fs.entriesIn location),
      cache.removes m entry = isDamaged (m.fs.verdict cache.digest path entry) :=
    fun entry hmem => removes_eq hwf hdir hlead (Entry.mem_inOrder.mp hmem)
  constructor
  case sorted =>
    rw [hentries]
    exact (Entry.sorted_inOrder _).and (Entry.pairwise_inOrder (m.fs.pairwise_entriesIn location))
  case valid_eq =>
    rw [hentries, hrun]
    exact List.countP_congr fun entry hmem => by rw [hhits entry hmem]
  case corrupt_eq =>
    rw [hentries, hrun]
    exact congrArg _ (List.filter_congr fun entry hmem => (hremoves entry hmem).symm)
  case skipped_eq =>
    rw [hentries, hrun]
    refine List.countP_congr fun entry hmem => ?_
    rw [hhits entry hmem, hremoves entry hmem, isPassedOver_eq]
  case exclusive =>
    rw [hentries]
    intro entry hmem hhit
    rw [hremoves entry hmem]
    rw [hhits entry hmem] at hhit
    exact not_isDamaged_of_isSound hhit
  case counted =>
    rw [hentries, hrun]
    exact VerifyReport.ofVerdicts_counts _ _
  case removed =>
    intro other hother place
    cases hother.symm.trans hlead
    rw [hrun]
    show m'.fs.tree.get? place = _
    rw [hfs]
    refine (FileSystem.get?_without _ _ _ _).trans ?_
    rw [VerifyReport.ofVerdicts, List.map_map]
    rfl
  case untouched => exact fun hnot => absurd ⟨location, hlead⟩ hnot
  case files_eq =>
    rw [hrun]
    show m'.fs.files = _
    rw [hfs]
    rfl
  case handles_eq =>
    rw [hrun]
    show m'.fs.handles = _
    rw [hfs]
    rfl
  case again =>
    rw [hrun]
    exact hagain
  case again_fs =>
    rw [hrun]
    exact hagain'

/-- So it does where there is no directory. -/
theorem agreesWithGet_of_not_leads (hdir : cache.state.directory? = some path)
    (hnot : ¬∃ location, m.fs.Leads path location) : cache.AgreesWithGet path m := by
  have hverify : ∀ m : Machine, (¬∃ location, m.fs.Leads path location) →
      ∃ event, verify Machine.host cache m = (⟨0, [], 0⟩, m.noting event) := by
    intro m hnot
    obtain ⟨error, hentries⟩ := entriesOf_of_not_leads hnot
    refine ⟨.scanFailed error, ?_⟩
    unfold verify
    simp only [hdir, Machine.run_bind, hentries]
    rfl
  have hentries : (entries Machine.host cache m).1 = [] := by
    obtain ⟨error, hentries⟩ := entriesOf_of_not_leads hnot
    unfold entries
    simp only [hdir, hentries]
  obtain ⟨event, hrun⟩ := hverify m hnot
  obtain ⟨event', hagain⟩ := hverify (m.noting event) hnot
  constructor
  case removed => exact fun location hlead => absurd ⟨location, hlead⟩ hnot
  all_goals simp only [hentries, hrun, hagain]
  case sorted => exact List.Pairwise.nil
  case valid_eq => rfl
  case corrupt_eq => rfl
  case skipped_eq => rfl
  case exclusive => exact fun _ hmem => absurd hmem List.not_mem_nil
  case counted => rfl
  case untouched => exact fun _ => rfl
  case files_eq => rfl
  case handles_eq => rfl
  case again_fs => exact ⟨m.fs.next, rfl⟩

/-- A check of all entries agrees with looking up each of them, and a second check has nothing left
to remove. -/
theorem verify_agrees_with_get (hwf : m.fs.WellFormed)
    (hdir : cache.state.directory? = some path) : cache.AgreesWithGet path m := by
  by_cases hlead : ∃ location, m.fs.Leads path location
  · obtain ⟨location, hlead⟩ := hlead
    exact agreesWithGet_of_leads hwf hdir hlead
  · exact agreesWithGet_of_not_leads hdir hlead

/-- Of three entries somebody holds the second and the third is damaged: a check counts the first,
skips the second and removes the third. -/
theorem verify_among_three :
    let cache : Cache := ⟨.enabled Path.dot 100, .weightedSum, 0⟩
    let session := Session.finish (.start [0x77])
      [.openCache "c" (.config ⟨some Path.dot, 100⟩) .weightedSum none .none,
        .onCache "c" (.set (.text "a") [1]), .onCache "c" (.set (.text "b") [2]),
        .onCache "c" (.set (.text "c") [3]),
        .meddle (.damage (entryPath Path.dot ⟨"c"⟩) 0 1),
        .openFile "x" (entryPath Path.dot ⟨"b"⟩) .exclusive]
    cache.AgreesWithGet Path.dot session.machine ∧
      (verify Machine.host cache session.machine).1 = ⟨1, ["c"], 1⟩ := by
  intro cache session
  have horderly : session.Orderly := Session.orderly_finish (.start _) _
  have hwf := horderly.wellFormed
  have hlead : session.machine.fs.Leads Path.dot (Location.top.child [0x77]) := by decide +kernel
  refine ⟨verify_agrees_with_get hwf rfl, ?_⟩
  have hsorted : Entry.inOrder (session.machine.fs.entriesIn (Location.top.child [0x77])) =
      session.machine.fs.entriesIn (Location.top.child [0x77]) :=
    List.mergeSort_of_pairwise (by decide +kernel)
  rw [verify_report hwf rfl hlead, hsorted]
  decide +kernel

end Cache

end BlobCache
