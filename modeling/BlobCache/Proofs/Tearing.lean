import BlobCache.Proofs.Finding

/-!
# Torn entries

A file that breaks off before the end of its entry is told by its last bytes and by nothing else:
there is no length and no header. So it is missed, unless what is left of the blob happens to end in
the checksum of what stands before it. Then the file is the entry of a shorter blob, and that is
what a look-up gives (`Cache.get_of_torn`, `Cache.get_hits_torn_entry`).
-/

namespace BlobCache

namespace Entry

variable {digest : Digest} {blob front torn : Bytes}

/-- A torn entry that is itself a blob with its checksum is the entry of a shorter blob. -/
theorem front_of_torn (hsized : digest.Sized) (htorn : torn <+: encode digest blob)
    (hproper : torn ≠ encode digest blob) (hfront : torn = encode digest front) :
    front <+: blob ∧ front ≠ blob := by
  subst hfront
  have hlt : (encode digest front).length < (encode digest blob).length :=
    Nat.lt_of_le_of_ne htorn.length_le fun e => hproper (htorn.eq_of_length e)
  rw [length_encode hsized, length_encode hsized] at hlt
  have hshorter : front.length < blob.length := by omega
  refine ⟨?_, fun e => absurd (congrArg List.length e) (Nat.ne_of_lt hshorter)⟩
  exact List.prefix_of_prefix_length_le ((List.prefix_append _ _).trans htorn)
    (List.prefix_append _ _) (Nat.le_of_lt hshorter)

/-- What is shorter than a checksum is no blob with its checksum. -/
theorem not_sealed_of_short (hsized : digest.Sized) (hshort : torn.length < digest.size) :
    ¬Sealed digest torn := by
  rintro ⟨front, rfl⟩
  rw [length_encode hsized] at hshort
  omega

/-- Where checksums have bytes, no blob with its checksum is empty. -/
theorem Sealed.ne_nil (h : Sealed digest torn) (hsized : digest.Sized) (hpos : 0 < digest.size) :
    torn ≠ [] := by
  rintro rfl
  exact not_sealed_of_short hsized (show ([] : Bytes).length < digest.size from hpos) h

end Entry

namespace Cache

variable {m : Machine} {cache : Cache} {path : Path} {key : Key} {place : Location} {id : FileId}

section torn

variable (hwf : m.fs.WellFormed) (hdir : cache.state.directory? = some path)
  (hkey : key.isEmpty = false) (hsized : cache.digest.Sized) (hpos : 0 < cache.digest.size)
  (hstands : m.fs.ownNodeAt (entryPath path key) = .ok (place, .file id))

include hwf hdir hkey hsized hpos hstands

/-- The file under the path of an entry is hit if and only if it is readable and a blob with its
checksum. -/
theorem isSome_get_iff :
    (get Machine.host cache key m).1.isSome ↔
      m.fs.Readable (entryPath path key) place id ∧
        Entry.Sealed cache.digest (m.fs.contents id) := by
  constructor
  · intro hhit
    by_contra hnot
    -- whatever is readable under this path is this file
    have hsame : ∀ place' id', m.fs.Readable (entryPath path key) place' id' →
        place' = place ∧ id' = id := by
      intro place' id' h
      simpa using h.stands.symm.trans hstands
    by_cases hdamaged : ∃ place id, m.fs.Readable (entryPath path key) place id ∧
        Entry.Damaged cache.digest (m.fs.contents id)
    · obtain ⟨place', id', h, hbad⟩ := hdamaged
      obtain ⟨event, hget⟩ := get_of_damaged hwf hdir hkey h hbad
      rw [hget] at hhit
      cases hhit
    · obtain ⟨_, event, -, hget⟩ := get_of_neither hwf hdir hkey
        (fun place' id' length h hcheck => by
          obtain ⟨rfl, rfl⟩ := hsame place' id' h
          obtain ⟨-, front, hfront, -⟩ := (Entry.check_eq_ok_iff hsized).mp hcheck
          exact hnot ⟨h, front, hfront⟩)
        (fun place' id' h hbad => hdamaged ⟨place', id', h, hbad⟩)
      rw [hget] at hhit
      cases hhit
  · rintro ⟨h, hsealed⟩
    obtain ⟨front, hfront⟩ := hsealed
    rw [(get_of_encode hwf hdir hkey hsized h hfront
      (Entry.Sealed.ne_nil ⟨front, hfront⟩ hsized hpos)).1]
    rfl

/-- A torn entry is missed unless it ends in the checksum of what it has in front of it. In that
case, and if it can be read, it is hit, and the blob is the front part of the torn one that the
checksum belongs to. What is shorter than a checksum is always missed. -/
theorem get_of_torn {blob : Bytes}
    (htorn : m.fs.contents id <+: Entry.encode cache.digest blob)
    (hproper : m.fs.contents id ≠ Entry.encode cache.digest blob) :
    ((get Machine.host cache key m).1.isSome ↔
        m.fs.Readable (entryPath path key) place id ∧
          Entry.Sealed cache.digest (m.fs.contents id)) ∧
      (∀ front, m.fs.contents id = Entry.encode cache.digest front →
        front <+: blob ∧ front ≠ blob ∧
          ∀ hit, (get Machine.host cache key m).1 = some hit →
            (hit.read Machine.host (get Machine.host cache key m).2).1 = front) ∧
      ((m.fs.contents id).length < cache.digest.size →
        (get Machine.host cache key m).1 = none) := by
  have hiff := isSome_get_iff hwf hdir hkey hsized hpos hstands
  refine ⟨hiff, fun front hfront => ?_, fun hshort => ?_⟩
  · obtain ⟨hpart, hne⟩ := Entry.front_of_torn hsized htorn hproper hfront
    refine ⟨hpart, hne, fun hit hget => ?_⟩
    obtain ⟨h, hsealed⟩ := hiff.mp (by rw [hget]; rfl)
    obtain ⟨hhit, hread⟩ := get_of_encode hwf hdir hkey hsized h hfront (hsealed.ne_nil hsized hpos)
    rw [hhit] at hget
    exact Option.some.inj hget ▸ hread
  · refine Option.not_isSome_iff_eq_none.mp fun hhit => ?_
    exact Entry.not_sealed_of_short hsized hshort (hiff.mp hhit).2

end torn

/-- The file is left behind when the checksum of three bytes cannot be written any more, nor the
file be removed. It is missed. -/
theorem get_of_entry_without_checksum :
    let cache : Cache := ⟨.enabled Path.dot 100, .weightedSum, 0⟩
    let broken := Session.finish (.start [0x77])
      [.openCache "c" (.config ⟨some Path.dot, 100⟩) .weightedSum none
          { Faults.none with write := Faults.writesAfter 1, remove := [Key.fileName ⟨"a"⟩] },
        .onCache "c" (.set (.text "a") [1, 2, 3])]
    broken.machine.fs.contents 0 = [1, 2, 3] ∧
      [1, 2, 3] <+: Entry.encode cache.digest [1, 2, 3] ∧
      (get Machine.host cache ⟨"a"⟩ broken.machine).1 = none := by
  intro cache broken
  have horderly : broken.Orderly := Session.orderly_finish (.start _) _
  have hstands : broken.machine.fs.ownNodeAt (entryPath Path.dot ⟨"a"⟩) =
      .ok ((Location.top.child [0x77]).child (Key.fileName ⟨"a"⟩), .file 0) := by decide +kernel
  have hcontent : broken.machine.fs.contents 0 = [1, 2, 3] := by decide +kernel
  have htorn : [1, 2, 3] <+: Entry.encode cache.digest [1, 2, 3] := List.prefix_append _ _
  refine ⟨hcontent, htorn, (get_of_torn horderly.wellFormed rfl (by decide +kernel)
    Digest.sized_weightedSum (by decide +kernel) hstands (hcontent ▸ htorn) ?_).2.2 ?_⟩
  · decide +kernel
  · decide +kernel

/-- A torn entry may be hit. A blob that is itself an entry, of the single byte one, is left behind
without its checksum, and a look-up gives the single byte. -/
theorem get_hits_torn_entry :
    ¬∀ (cache : Cache) (path : Path) (key : Key) (m : Machine) (place : Location) (id : FileId)
        (blob : Bytes),
      m.fs.WellFormed → cache.state.directory? = some path → key.isEmpty = false →
      cache.digest.Sized → 0 < cache.digest.size →
      m.fs.ownNodeAt (entryPath path key) = .ok (place, .file id) → blob ≠ [] →
      m.fs.contents id <+: Entry.encode cache.digest blob →
      m.fs.contents id ≠ Entry.encode cache.digest blob →
      (get Machine.host cache key m).1 = none := by
  intro h
  let broken := Session.finish (.start [0x77])
    [.openCache "c" (.config ⟨some Path.dot, 100⟩) .weightedSum none
        { Faults.none with write := Faults.writesAfter 1, remove := [Key.fileName ⟨"a"⟩] },
      .onCache "c" (.set (.text "a") (Entry.encode .weightedSum [1]))]
  have horderly : broken.Orderly := Session.orderly_finish (.start _) _
  have hmiss := h ⟨.enabled Path.dot 100, .weightedSum, 0⟩ Path.dot ⟨"a"⟩ broken.machine
    ((Location.top.child [0x77]).child (Key.fileName ⟨"a"⟩)) 0 (Entry.encode .weightedSum [1])
    horderly.wellFormed rfl (by decide +kernel) Digest.sized_weightedSum (by decide +kernel)
    (by decide +kernel) (by decide +kernel) (by decide +kernel) (by decide +kernel)
  revert hmiss
  decide +kernel

end Cache

end BlobCache
