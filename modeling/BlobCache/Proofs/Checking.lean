import BlobCache.Proofs.Eviction

/-!
# What a check of all entries finds

A check reads every entry as a look-up would. What becomes of one entry is settled before the check
begins, because those that are removed on the way had one name only: `FileSystem.reading` is the
verdict on an entry as things stand. So a check counts each entry once, by this verdict, and removes
those that are damaged (`Cache.verify_eq`).
-/

namespace BlobCache

namespace FileSystem

/-! ## Verdicts -/

/-- What reading an entry comes to: the length of its blob, or what is wrong with it. -/
def reading (fs : FileSystem) (digest : Digest) (path : Path) : Except StoreError Nat :=
  match fs.granted path .shared with
  | .error error => .error error
  | .ok id => Entry.check digest path (fs.contents id)

/-- What reading an entry of a directory comes to. -/
def verdict (fs : FileSystem) (digest : Digest) (directory : Path) (entry : Entry) :
    Except StoreError Nat :=
  fs.reading digest (Path.join directory (Path.ofText entry.name))

section reading

variable {fs fs' : FileSystem} {digest : Digest} {path : Path} {location : Location}
  {name gone : Bytes} {id : FileId}

/-- That another entry goes decides nothing about how an entry is read. -/
theorem reading_unbind (h : fs.Leads path location) (hn : Path.IsName name)
    (hget : fs.tree.get? (location.child gone) = some (.file id))
    (hsingle : fs.linkCount (.file id) ≤ 1) (hne : name ≠ gone) :
    (fs.spent.unbind (location.child gone)).reading digest (Path.join path name) =
      fs.reading digest (Path.join path name) := by
  unfold reading
  rw [granted_unbind h hn hget hsingle hne]
  rfl

/-- That an identity is given out decides nothing about how an entry is read. -/
theorem reading_spent (h : fs.Leads path location) (hn : Path.IsName name) :
    fs.spent.reading digest (Path.join path name) = fs.reading digest (Path.join path name) := by
  unfold reading
  rw [granted_spent h hn]
  rfl

end reading

end FileSystem

namespace Cache

/-! ## Counting -/

/-- The entry was read. -/
def isSound : Except StoreError Nat → Bool
  | .ok _ => true
  | .error _ => false

/-- The entry was found damaged. -/
def isDamaged : Except StoreError Nat → Bool
  | .ok _ => false
  | .error error => error.isCorrupt

/-- The entry could not be read, and nobody knows whether it is damaged. -/
def isPassedOver : Except StoreError Nat → Bool
  | .ok _ => false
  | .error error => !error.isCorrupt

/-- The report on entries with these verdicts. -/
def VerifyReport.ofVerdicts (verdict : Entry → Except StoreError Nat) (entries : List Entry) :
    VerifyReport where
  valid := entries.countP fun entry => isSound (verdict entry)
  corrupt := (entries.filter fun entry => isDamaged (verdict entry)).map (·.name)
  skipped := entries.countP fun entry => isPassedOver (verdict entry)

/-- Two reports together. -/
def VerifyReport.append (first rest : VerifyReport) : VerifyReport :=
  ⟨first.valid + rest.valid, first.corrupt ++ rest.corrupt, first.skipped + rest.skipped⟩

/-- What was found with one more entry. -/
def VerifyReport.add (found : VerifyReport) (name : String) :
    Except StoreError Nat → VerifyReport
  | .ok _ => { found with valid := found.valid + 1 }
  | .error error =>
    if error.isCorrupt then { found with corrupt := found.corrupt ++ [name] }
    else { found with skipped := found.skipped + 1 }

/-- The verdicts on the entries of a list are those on the first one and on the others. -/
theorem VerifyReport.append_ofVerdicts_cons (found : VerifyReport)
    (verdict : Entry → Except StoreError Nat) (entry : Entry) (rest : List Entry) :
    found.append (ofVerdicts verdict (entry :: rest)) =
      (found.add entry.name (verdict entry)).append (ofVerdicts verdict rest) := by
  unfold append ofVerdicts add
  rcases hverdict : verdict entry with error | length
  · by_cases hcorrupt : error.isCorrupt = true
    · simp [hverdict, isSound, isDamaged, isPassedOver, hcorrupt]
    · simp [hverdict, isSound, isDamaged, isPassedOver, hcorrupt]
      omega
  · simp [hverdict, isSound, isDamaged, isPassedOver]
    omega

/-- Only the verdicts on the entries count. -/
theorem VerifyReport.ofVerdicts_congr {verdict other : Entry → Except StoreError Nat}
    {entries : List Entry} (h : ∀ entry ∈ entries, verdict entry = other entry) :
    ofVerdicts verdict entries = ofVerdicts other entries := by
  unfold ofVerdicts
  congr 1
  · exact List.countP_congr fun entry hmem => by rw [h entry hmem]
  · exact congrArg _ (List.filter_congr fun entry hmem => by rw [h entry hmem])
  · exact List.countP_congr fun entry hmem => by rw [h entry hmem]

/-- An entry that could not be read counts as skipped and as nothing else. -/
theorem VerifyReport.ofVerdicts_of_isPassedOver {verdict : Entry → Except StoreError Nat}
    {entry : Entry} (h : isPassedOver (verdict entry) = true) (front back : List Entry) :
    ofVerdicts verdict (front ++ entry :: back) =
      { ofVerdicts verdict (front ++ back) with
        skipped := (ofVerdicts verdict (front ++ back)).skipped + 1 } := by
  rcases hverdict : verdict entry with error | length <;> rw [hverdict] at h
  · have hcorrupt : error.isCorrupt = false := by simpa [isPassedOver] using h
    simp [ofVerdicts, hverdict, isSound, isDamaged, isPassedOver, hcorrupt]
    omega
  · cases h

variable {digest : Digest} {location : Location} {path : Path} {m : Machine} {cache : Cache}

/-- What a check does with one entry: it counts it by its verdict, and removes it if it is found
damaged. -/
theorem verifyFrom_step (hwf : m.fs.WellFormed) (hlead : m.fs.Leads path location) {entry : Entry}
    (hname : Path.IsName (Path.ofText entry.name)) (rest : List Entry) (found : VerifyReport) :
    ∃ m', verifyFrom Machine.host digest path (entry :: rest) found m =
        verifyFrom Machine.host digest path rest
          (found.add entry.name (m.fs.verdict digest path entry)) m' ∧
      (isDamaged (m.fs.verdict digest path entry) = false ∧
          (m'.fs = m.fs ∨ m'.fs = m.fs.spent) ∨
        isDamaged (m.fs.verdict digest path entry) = true ∧
          ∃ id, m.fs.tree.get? (FileSystem.placeOf location entry) = some (.file id) ∧
            m.fs.linkCount (.file id) ≤ 1 ∧
            m'.fs = m.fs.spent.unbind (FileSystem.placeOf location entry)) := by
  rw [verifyFrom_cons hwf hlead hname]
  unfold FileSystem.verdict FileSystem.reading
  rcases hgranted : m.fs.granted (Path.join path (Path.ofText entry.name)) .shared with error | id
  · have hsound := FileSystem.not_isCorrupt_of_granted hgranted
    refine ⟨m.noting (.unverified entry.name error), ?_, Or.inl ⟨hsound, Or.inl rfl⟩⟩
    simp [VerifyReport.add, hsound]
  obtain ⟨-, hget, hsingle, -⟩ := (FileSystem.granted_eq_ok_iff hlead hname).mp hgranted
  rcases hcheck : Entry.check digest (Path.join path (Path.ofText entry.name))
      (m.fs.contents id) with error | length
  · by_cases hcorrupt : error.isCorrupt = true
    · refine ⟨(m.withFiles (m.fs.spent.unbind (location.child (Path.ofText entry.name)))).noting
        (.corruptFound entry.name error), ?_, Or.inr ⟨?_, id, hget, hsingle, rfl⟩⟩
      · simp [hcheck, VerifyReport.add, hcorrupt]
      · simp [hcheck, isDamaged, hcorrupt]
    · refine ⟨(m.withFiles m.fs.spent).noting (.unverified entry.name error), ?_,
        Or.inl ⟨?_, Or.inr rfl⟩⟩
      · simp [hcheck, VerifyReport.add, hcorrupt]
      · simp [hcheck, isDamaged, hcorrupt]
  · refine ⟨m.withFiles m.fs.spent, ?_, Or.inl ⟨?_, Or.inr rfl⟩⟩
    · simp [hcheck, VerifyReport.add]
    · simp [hcheck, isDamaged]

/-- The entries of a list that are found damaged. -/
def damagedOf (fs : FileSystem) (digest : Digest) (path : Path) (entries : List Entry) :
    List Entry :=
  entries.filter fun entry => isDamaged (fs.verdict digest path entry)

/-- A check adds the verdict on each entry to what was found before, and the damaged entries are
gone after it. Reading the others has used up identities, and nothing else has changed. -/
theorem verifyFrom_eq (hwf : m.fs.WellFormed) (hlead : m.fs.Leads path location)
    {entries : List Entry}
    (hentries : ∀ entry ∈ entries, ∃ id,
      m.fs.tree.get? (FileSystem.placeOf location entry) = some (.file id))
    (hdistinct : entries.Pairwise fun a b => a.name ≠ b.name) (found : VerifyReport) :
    ∃ m' next, verifyFrom Machine.host digest path entries found m =
        (found.append (.ofVerdicts (m.fs.verdict digest path) entries), m') ∧
      m'.fs.WellFormed ∧
      m'.fs = (m.fs.without location (damagedOf m.fs digest path entries)).usedUpTo next := by
  induction entries generalizing m found with
  | nil =>
      refine ⟨m, m.fs.next, ?_, hwf, ?_⟩
      · simp [verifyFrom, VerifyReport.append, VerifyReport.ofVerdicts]
      · rw [damagedOf, List.filter_nil, FileSystem.without_nil]
        rfl
  | cons entry rest ih =>
      obtain ⟨id, hget⟩ := hentries entry List.mem_cons_self
      obtain ⟨hother, hrest⟩ := List.pairwise_cons.mp hdistinct
      have hname : Path.IsName (Path.ofText entry.name) := (hwf.named _ _ _ hget).1
      have hremain : ∀ other ∈ rest, ∃ id,
          m.fs.tree.get? (FileSystem.placeOf location other) = some (.file id) :=
        fun other hmem => hentries other (List.mem_cons_of_mem _ hmem)
      have hnames : ∀ other ∈ rest, Path.IsName (Path.ofText other.name) ∧
          Path.ofText other.name ≠ Path.ofText entry.name := by
        intro other hmem
        obtain ⟨otherId, hget'⟩ := hremain other hmem
        exact ⟨(hwf.named _ _ _ hget').1, fun e => hother other hmem (Utf8.encode_injective e).symm⟩
      -- the verdicts on the rest are the same after this entry as before it
      have hthen : ∀ m' : Machine, m'.fs.WellFormed → m'.fs.Leads path location →
          (∀ other ∈ rest, ∃ id,
            m'.fs.tree.get? (FileSystem.placeOf location other) = some (.file id)) →
          (∀ other ∈ rest, m'.fs.verdict digest path other = m.fs.verdict digest path other) →
          ∀ found, ∃ m'' next, verifyFrom Machine.host digest path rest found m' =
              (found.append (.ofVerdicts (m.fs.verdict digest path) rest), m'') ∧
            m''.fs.WellFormed ∧
            m''.fs =
              (m'.fs.without location (damagedOf m.fs digest path rest)).usedUpTo next := by
        intro m' hwf' hlead' hremain' hsame found
        have hgone : damagedOf m'.fs digest path rest = damagedOf m.fs digest path rest :=
          List.filter_congr fun other hmem => by rw [hsame other hmem]
        have h := ih hwf' hlead' hremain' hrest found
        rwa [VerifyReport.ofVerdicts_congr hsame, hgone] at h
      obtain ⟨m', hstep, hfs⟩ := verifyFrom_step hwf hlead hname rest found
      rw [hstep, VerifyReport.append_ofVerdicts_cons]
      rcases hfs with ⟨hsound, hfs⟩ | ⟨hdamaged, gone, hgone, hsingle, hfs⟩
      · have hkeep : damagedOf m.fs digest path (entry :: rest) =
            damagedOf m.fs digest path rest := List.filter_cons_of_neg (by simp [hsound])
        rw [hkeep]
        rcases hfs with hfs | hfs
        · have h := hthen m' (hfs ▸ hwf) (hfs ▸ hlead) (hfs ▸ hremain) (fun _ _ => by rw [hfs])
            (found.add entry.name (m.fs.verdict digest path entry))
          rwa [hfs] at h
        · have h := hthen m' (hfs ▸ hwf.spent) (hfs ▸ hlead.spent) (hfs ▸ hremain)
            (fun other hmem => hfs ▸ FileSystem.reading_spent hlead (hnames other hmem).1)
            (found.add entry.name (m.fs.verdict digest path entry))
          rwa [hfs] at h
      · have hcalm : m.fs.Calm location m'.fs :=
          hfs ▸ (FileSystem.Calm.spent location m.fs).trans (.unbind hgone)
        have hdrop : damagedOf m.fs digest path (entry :: rest) =
            entry :: damagedOf m.fs digest path rest := List.filter_cons_of_pos hdamaged
        rw [hdrop, FileSystem.without_cons, ← hfs]
        refine hthen m' (hcalm.wellFormed hwf) (hcalm.leads hlead) (fun other hmem => ?_)
          (fun other hmem => ?_) _
        · obtain ⟨otherId, hget'⟩ := hremain other hmem
          refine ⟨otherId, ?_⟩
          rw [hfs]
          refine (Table.get?_erase_ne _ fun e => ?_).trans hget'
          exact (hnames other hmem).2 (Location.child_inj.mp e).2
        · rw [hfs]
          exact FileSystem.reading_unbind hlead (hnames other hmem).1 hgone hsingle
            (hnames other hmem).2

/-- A check counts every entry once, by what reading it comes to as things stand, and removes the
damaged ones. -/
theorem verify_eq (hwf : m.fs.WellFormed) (hdir : cache.state.directory? = some path)
    (hlead : m.fs.Leads path location) :
    ∃ m' next, verify Machine.host cache m =
        (.ofVerdicts (m.fs.verdict cache.digest path) (Entry.inOrder (m.fs.entriesIn location)),
          m') ∧
      m'.fs.WellFormed ∧
      m'.fs = (m.fs.without location (damagedOf m.fs cache.digest path
        (Entry.inOrder (m.fs.entriesIn location)))).usedUpTo next := by
  have hentries : ∀ entry ∈ Entry.inOrder (m.fs.entriesIn location), ∃ id,
      m.fs.tree.get? (FileSystem.placeOf location entry) = some (.file id) := by
    intro entry hmem
    obtain ⟨id, hget, -⟩ := FileSystem.mem_entriesIn.mp (Entry.mem_inOrder.mp hmem)
    exact ⟨id, hget⟩
  have hrun : verify Machine.host cache m = verifyFrom Machine.host cache.digest path
      (Entry.inOrder (m.fs.entriesIn location)) ⟨0, [], 0⟩ m := by
    unfold verify
    simp only [hdir, Machine.run_bind, entriesOf_eq hlead]
  obtain ⟨m', next, hreport, hwf', hfs⟩ := verifyFrom_eq hwf hlead hentries
    (Entry.pairwise_inOrder (m.fs.pairwise_entriesIn location)) ⟨0, [], 0⟩
  refine ⟨m', next, ?_, hwf', hfs⟩
  rw [hrun, hreport]
  simp [VerifyReport.append]

/-- A check reports the verdicts on all entries, in the order of use. -/
theorem verify_report (hwf : m.fs.WellFormed) (hdir : cache.state.directory? = some path)
    (hlead : m.fs.Leads path location) :
    (verify Machine.host cache m).1 =
      .ofVerdicts (m.fs.verdict cache.digest path) (Entry.inOrder (m.fs.entriesIn location)) := by
  obtain ⟨m', next, hrun, -⟩ := verify_eq hwf hdir hlead
  rw [hrun]

end Cache

end BlobCache
