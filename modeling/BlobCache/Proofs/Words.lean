import BlobCache.Proofs.Budget
import BlobCache.Proofs.Eviction
import BlobCache.Text.Numeral

/-!
# Counting in words

The programs count bytes in natural numbers, where no sum is too large and a difference that would
be negative is zero. Here they count in words of 64 bits: `InWords.set` and its kin are the same
programs, but an operation whose result is no word stops them. That a program is `Exact` says that
it is not stopped, and then it does and answers what the program with natural numbers does.

Every condition is on the outcome of the program with natural numbers, because what an eviction has
freed only ever grows: `evictFrom_exact`, `makeRoom_exact`, `set_exact`, `trim_exact`,
`readEntry_exact`. No eviction frees more than a scan has found (`evict_le`), so all that a cache
needs is that its size is a word, and the new entry fits in beside it: `Cache.CountsInWords`.
-/

namespace BlobCache

/-! ## Words -/

namespace Word

/-- The sum of two words, if it is one. -/
def add? (a b : Nat) : Option Nat := if a + b < Numeral.limit64 then some (a + b) else none

/-- The difference of two words, if it is one. -/
def sub? (a b : Nat) : Option Nat := if b ≤ a then some (a - b) else none

variable {a b : Nat}

/-- A sum that is a word is counted exactly. -/
theorem add?_of_lt (h : a + b < Numeral.limit64) : add? a b = some (a + b) := if_pos h

/-- So is a difference of a number and a smaller one. -/
theorem sub?_of_le (h : b ≤ a) : sub? a b = some (a - b) := if_pos h

end Word

namespace Cache

namespace InWords

variable {m : Type → Type} [Monad m] {φ : Type}

/-- Goes on with a number if it is a word. -/
def word (n : Option Nat) : OptionT m Nat := OptionT.mk (return n)

/-- The sum of all sizes. -/
def totalSize (entries : List Entry) : Option Nat :=
  entries.foldlM (fun total entry => Word.add? total entry.size) 0

/-- The bytes that all entries of a directory take. -/
def sizeOf (host : Host m φ) (directory : Path) : OptionT m Nat := do
  let entries ← OptionT.lift (listed host directory)
  word (totalSize entries)

/-- Reads an entry. -/
def readEntry (host : Host m φ) (digest : Digest) (path : Path) :
    OptionT m (Except StoreError (Blob φ)) := do
  match ← host.openShared path with
  | .error error => return .error error
  | .ok file =>
    let size ← host.size file
    if size = 0 then
      host.close file
      return .error (.emptyEntry path)
    else if size < digest.size then
      host.close file
      return .error (.truncated path size)
    else
      match ← host.map file with
      | .error error =>
        host.close file
        return .error error
      | .ok content =>
        let length ← word (Word.sub? content.length digest.size)
        let blob := content.take length
        let checksum := content.drop length
        let actual := digest.of blob
        if actual = checksum then return .ok (.mapped file blob.length)
        else
          host.close file
          return .error (.checksumMismatch path (Hex.encode checksum) (Hex.encode actual))

/-- Evicts from the rest of a list of entries. -/
def evictFrom (host : Host m φ) (directory : Path) (needed : Nat) :
    List Entry → Nat → OptionT m Nat
  | [], freed => return freed
  | entry :: rest, freed => do
    let path := Path.join directory (Path.ofText entry.name)
    match ← host.openExclusive path with
    | .error error =>
      host.report (.busy entry.name error)
      evictFrom host directory needed rest freed
    | .ok file =>
      let size ← host.size file
      match ← host.remove path with
      | .error error =>
        host.report (.notEvicted entry.name error)
        host.close file
        evictFrom host directory needed rest freed
      | .ok () =>
        host.report (.evicted entry.name entry.accessed size)
        host.close file
        let freed ← word (Word.add? freed size)
        if needed ≤ freed then return freed
        else evictFrom host directory needed rest freed

/-- Evicts entries of a directory. -/
def evict (host : Host m φ) (directory : Path) (needed : Nat) : OptionT m Nat := do
  let entries ← OptionT.lift (entriesOf host directory)
  evictFrom host directory needed entries 0

/-- Evicts entries until the cache fits its budget. -/
def trim (host : Host m φ) (cache : Cache) : OptionT m Nat := do
  match cache.state.directory? with
  | none => return 0
  | some directory =>
    let size ← sizeOf host directory
    let budget := cache.state.budget.toNat
    if size ≤ budget then return 0
    else evict host directory (← word (Word.sub? size budget))

/-- Evicts every entry that nobody has locked. -/
def clear (host : Host m φ) (cache : Cache) : OptionT m Nat :=
  match cache.state.directory? with
  | none => return 0
  | some directory => evict host directory everything

/-- Makes room for `added` bytes. -/
def makeRoom (host : Host m φ) (directory : Path) (budget added : Nat) : OptionT m Nat := do
  let size ← sizeOf host directory
  let wanted ← word (Word.add? size added)
  if wanted ≤ budget then return size
  else
    let needed ← word (Word.sub? wanted budget)
    let freed ← evict host directory needed
    word (Word.sub? size freed)

/-- Puts a blob into a new entry of `added` bytes. -/
def addEntry (host : Host m φ) (digest : Digest) (directory : Path) (size added : Nat) (key : Key)
    (blob : Bytes) : OptionT m SetOutcome := do
  let path := entryPath directory key
  match ← host.create path with
  | .error error =>
    host.report (.notCreated key error)
    return outcomeOfRefusal error
  | .ok file =>
    match ← OptionT.lift (writeEntry host digest file blob) with
    | .error error =>
      host.report (.notWritten key error)
      let _ ← host.remove path
      host.close file
      return .failed
    | .ok () =>
      let total ← word (Word.add? size added)
      host.report (.stored key blob.length total)
      host.close file
      return .stored added

/-- Stores a blob. -/
def set (host : Host m φ) (cache : Cache) (key : Key) (blob : Bytes) : OptionT m SetOutcome := do
  match cache.state with
  | .disabled => return .skipped .disabled
  | .enabled directory budget =>
    if key.isEmpty then return .skipped .emptyKey
    else if blob.isEmpty then return .skipped .emptyBlob
    else if budget.toNat < blob.length then
      host.report (.blobTooLarge key blob.length budget)
      return .skipped .tooLarge
    else
      let added ← word (Word.add? blob.length cache.digest.size)
      let size ← makeRoom host directory budget.toNat added
      addEntry host cache.digest directory size added key blob

end InWords

/-! ## Exactness -/

/-- Run on a machine, the program with words is not stopped, and does and answers what the program
with natural numbers does. -/
def Exact {α : Type} (m : Machine) (x : OptionT (StateM Machine) α) (y : StateM Machine α) : Prop :=
  x.run m = (some (y m).1, (y m).2)

namespace Exact

variable {α β : Type} {m : Machine}

/-- To return a result is exact. -/
theorem pure (a : α) : Exact m (Pure.pure a) (Pure.pure a) := rfl

/-- What does not count is the same for both. -/
theorem lift (y : StateM Machine α) : Exact m (OptionT.lift y) y := rfl

/-- A program is exact if its parts are. -/
theorem bind {x : OptionT (StateM Machine) α} {y : StateM Machine α}
    {f : α → OptionT (StateM Machine) β} {g : α → StateM Machine β} (hx : Exact m x y)
    (hf : Exact (y m).2 (f (y m).1) (g (y m).1)) : Exact m (x >>= f) (y >>= g) := by
  have hrun : (x >>= f).run m = (x.run >>= fun answer => match answer with
      | some a => (f a).run
      | none => Pure.pure none) m := rfl
  rw [Exact, hrun, Machine.run_bind, hx]
  exact hf

/-- A sum or a difference that is a word is an answer. -/
theorem word {n : Option Nat} {k : Nat} (hn : n = some k) :
    Exact m (InWords.word n) (Pure.pure k) := by
  rw [hn]
  rfl

/-- It does not stop the program either. -/
theorem word_bind {n : Option Nat} {k : Nat} {f : Nat → OptionT (StateM Machine) β}
    {y : StateM Machine β} (hn : n = some k) (hf : Exact m (f k) y) :
    Exact m (InWords.word n >>= f) y := by
  rw [hn]
  exact hf

end Exact

variable {φ : Type} {host : Host (StateM Machine) φ} {m : Machine} {cache : Cache} {path : Path}

/-! ## Counting -/

/-- The sizes of entries are summed up exactly, if the sum is a word. -/
theorem totalSize_exact {entries : List Entry}
    (h : Entry.totalSize entries < Numeral.limit64) :
    InWords.totalSize entries = some (Entry.totalSize entries) := by
  have hfold : ∀ total, total + Entry.totalSize entries < Numeral.limit64 →
      entries.foldlM (fun total entry => Word.add? total entry.size) total =
        some (total + Entry.totalSize entries) := by
    clear h
    induction entries with
    | nil => exact fun total _ => rfl
    | cons entry rest ih =>
        intro total hsum
        have hcons : Entry.totalSize (entry :: rest) = entry.size + Entry.totalSize rest := rfl
        rw [List.foldlM_cons, Word.add?_of_lt (by omega)]
        rw [hcons, ← Nat.add_assoc] at hsum ⊢
        exact ih _ hsum
  have hzero := hfold 0 (by omega)
  rwa [Nat.zero_add] at hzero

/-- The size of a directory is found exactly, if it is a word. -/
theorem sizeOf_exact (h : (sizeOf host path m).1 < Numeral.limit64) :
    Exact m (InWords.sizeOf host path) (sizeOf host path) :=
  .bind (.lift _) (.word (totalSize_exact h))

/-! ## Reading -/

/-- What is mapped of an entry is as long as the entry was when it was opened. -/
theorem length_of_mapped {faults : Faults} {m' : Machine} {file : HandleId} {content : Bytes}
    (hopen : (Machine.faultyHost faults).openShared path m = (.ok file, m'))
    (hmap : ((Machine.faultyHost faults).map file m').1 = .ok content) :
    content.length = (Machine.host.size file m').1 := by
  by_cases hrefused : faults.openShared.contains (Faults.lastName path) = true
  · have hnone : (Machine.faultyHost faults).openShared path m =
      (.error (Faults.refusal path), m) := Machine.refusing_of_contains hrefused _ m
    rw [hnone] at hopen
    cases hopen
  have hplain : (Machine.faultyHost faults).openShared path m =
      ((m.fs.openEntry path .shared).1, m.withFiles (m.fs.openEntry path .shared).2) :=
    congrFun (Machine.refusing_of_not_contains hrefused _) m
  rw [hplain, FileSystem.openEntry_eq] at hopen
  rcases hgranted : m.fs.granted path .shared with error | id <;> rw [hgranted] at hopen <;>
    cases hopen
  have hhandle := FileSystem.get?_addHandle m.fs (m.fs.opened path .shared id)
  have hsize : (Machine.host.size m.fs.next
      (m.withFiles (m.fs.addHandle (m.fs.opened path .shared id)).2)).1 =
        (m.fs.contents id).length := by
    rw [Machine.host_size, Machine.fs_withFiles, hhandle]
    rfl
  have hmapping : (Machine.faultyHost faults).map m.fs.next
      (m.withFiles (m.fs.addHandle (m.fs.opened path .shared id)).2) =
        Machine.refusing faults.map (Machine.pathOf m.fs.next
          (m.fs.addHandle (m.fs.opened path .shared id)).2) (Machine.host.map m.fs.next)
          (m.withFiles (m.fs.addHandle (m.fs.opened path .shared id)).2) := rfl
  rw [hsize]
  unfold Machine.refusing at hmapping
  split at hmapping <;> rw [hmapping] at hmap
  · cases hmap
  · have hwhole : (Machine.host.map m.fs.next
        (m.withFiles (m.fs.addHandle (m.fs.opened path .shared id)).2)).1 =
          .ok (m.fs.contents id) := by
      show (FileSystem.mapEntry _ _).1 = _
      rw [Machine.fs_withFiles, FileSystem.mapEntry_addHandle]
    rw [hwhole] at hmap
    cases hmap
    rfl

/-- A checksum is split off only where there is room for one. -/
theorem readEntry_exact (faults : Faults) (digest : Digest) (path : Path) :
    Exact m (InWords.readEntry (Machine.faultyHost faults) digest path)
      (readEntry (Machine.faultyHost faults) digest path) := by
  refine .bind (.lift _) ?_
  rcases hopen : (Machine.faultyHost faults).openShared path m with ⟨error | file, m'⟩
  · exact .pure _
  refine .bind (.lift _) ?_
  rw [Machine.faultyHost_size]
  by_cases hempty : (Machine.host.size file m').1 = 0
  · simp only [if_pos hempty]
    exact .bind (.lift _) (.pure _)
  by_cases hshort : (Machine.host.size file m').1 < digest.size
  · simp only [if_neg hempty, if_pos hshort]
    exact .bind (.lift _) (.pure _)
  simp only [if_neg hempty, if_neg hshort]
  refine .bind (.lift _) ?_
  have hlength : ∀ content, ((Machine.faultyHost faults).map file m').1 = .ok content →
      content.length = (Machine.host.size file m').1 := fun _ => length_of_mapped hopen
  rw [Machine.host_size] at hshort ⊢
  generalize (Machine.faultyHost faults).map file m' = mapped at hlength ⊢
  obtain ⟨error | content, m''⟩ := mapped
  · exact .bind (.lift _) (.pure _)
  have hroom : digest.size ≤ content.length := by
    rw [hlength content rfl]
    exact Nat.le_of_not_lt hshort
  refine .word_bind (Word.sub?_of_le hroom) ?_
  let length := content.length - digest.size
  by_cases hsum : digest.of (content.take length) = content.drop length
  · have hsplit : digest.of (Entry.splitAt digest content).1 =
        (Entry.splitAt digest content).2 := hsum
    rw [if_pos hsum]
    simp only [if_pos hsplit]
    exact .pure _
  · have hsplit : digest.of (Entry.splitAt digest content).1 ≠
        (Entry.splitAt digest content).2 := hsum
    rw [if_neg hsum]
    simp only [if_neg hsplit]
    exact .bind (.lift _) (.pure _)

/-! ## Evicting -/

/-- What was freed only grows. -/
theorem le_evictFrom (host : Host (StateM Machine) φ) (path : Path) (needed : Nat)
    (entries : List Entry) (freed : Nat) (m : Machine) :
    freed ≤ (evictFrom host path needed entries freed m).1 := by
  induction entries generalizing freed m with
  | nil => exact Nat.le_refl _
  | cons entry rest ih =>
      rw [evictFrom, Machine.run_bind]
      rcases (host.openExclusive (Path.join path (Path.ofText entry.name)) m).1 with error | file
      · exact ih _ _
      simp only [Machine.run_bind]
      generalize host.size file _ = sized
      generalize host.remove _ sized.2 = removed
      rcases removed with ⟨_ | _, m'⟩
      · exact ih _ _
      · simp only [Machine.run_bind]
        split
        · exact Nat.le_add_right _ _
        · exact Nat.le_trans (Nat.le_add_right _ _) (ih _ _)

/-- To evict entries counts exactly, if what is freed is a word. -/
theorem evictFrom_exact {needed : Nat} {entries : List Entry} {freed : Nat}
    (h : (evictFrom host path needed entries freed m).1 < Numeral.limit64) :
    Exact m (InWords.evictFrom host path needed entries freed)
      (evictFrom host path needed entries freed) := by
  induction entries generalizing freed m with
  | nil => exact .pure _
  | cons entry rest ih =>
      rw [evictFrom, Machine.run_bind] at h
      refine .bind (.lift _) ?_
      rcases hopen : (host.openExclusive (Path.join path (Path.ofText entry.name)) m).1 with
        error | file
      · rw [hopen] at h
        exact .bind (.lift _) (ih h)
      · rw [hopen] at h
        simp only [Machine.run_bind] at h
        refine .bind (.lift _) (.bind (.lift _) ?_)
        generalize host.size file _ = sized at h ⊢
        generalize host.remove _ sized.2 = removed at h ⊢
        rcases removed with ⟨error | _, m'⟩
        · exact .bind (.lift _) (.bind (.lift _) (ih h))
        refine .bind (.lift _) (.bind (.lift _) ?_)
        simp only [Machine.run_bind] at h
        by_cases henough : needed ≤ freed + sized.1
        · rw [if_pos henough] at h
          refine .word_bind (Word.add?_of_lt h) ?_
          rw [if_pos henough, if_pos henough]
          exact .pure _
        · rw [if_neg henough] at h
          have hle := le_evictFrom host path needed rest (freed + sized.1)
          refine .word_bind (Word.add?_of_lt (Nat.lt_of_le_of_lt (hle _) h)) ?_
          rw [if_neg henough, if_neg henough]
          exact ih h

/-- So does evicting from a directory. -/
theorem evict_exact {needed : Nat} (h : (evict host path needed m).1 < Numeral.limit64) :
    Exact m (InWords.evict host path needed) (evict host path needed) :=
  .bind (.lift _) (evictFrom_exact h)

/-- So does trimming. -/
theorem trim_exact (h : ∀ path, cache.state.directory? = some path →
      (sizeOf host path m).1 < Numeral.limit64 ∧
        ∀ needed, (evict host path needed (sizeOf host path m).2).1 < Numeral.limit64) :
    Exact m (InWords.trim host cache) (trim host cache) := by
  unfold InWords.trim trim
  rcases hdir : cache.state.directory? with _ | path
  · exact .pure _
  obtain ⟨hsize, hevict⟩ := h path hdir
  refine .bind (sizeOf_exact hsize) ?_
  by_cases hfits : (sizeOf host path m).1 ≤ cache.state.budget.toNat
  · simp only [if_pos hfits]
    exact .pure _
  · simp only [if_neg hfits]
    exact .word_bind (Word.sub?_of_le (Nat.le_of_not_le hfits)) (evict_exact (hevict _))

/-- So does clearing. -/
theorem clear_exact (h : ∀ path, cache.state.directory? = some path →
      (evict host path everything m).1 < Numeral.limit64) :
    Exact m (InWords.clear host cache) (clear host cache) := by
  unfold InWords.clear clear
  rcases hdir : cache.state.directory? with _ | path
  · exact .pure _
  · exact evict_exact (h path hdir)

/-! ## Storing -/

/-- To make room counts exactly, if the directory and the new entry together take no more than a
word says. -/
theorem makeRoom_exact {budget added : Nat}
    (hsum : (sizeOf host path m).1 + added < Numeral.limit64)
    (hfreed : ∀ needed,
      (evict host path needed (sizeOf host path m).2).1 ≤ (sizeOf host path m).1) :
    Exact m (InWords.makeRoom host path budget added) (makeRoom host path budget added) := by
  unfold InWords.makeRoom makeRoom
  refine .bind (sizeOf_exact (Nat.lt_of_le_of_lt (Nat.le_add_right _ _) hsum)) ?_
  refine .word_bind (Word.add?_of_lt hsum) ?_
  by_cases hfits : (sizeOf host path m).1 + added ≤ budget
  · rw [if_pos hfits, if_pos hfits]
    exact .pure _
  · rw [if_neg hfits, if_neg hfits]
    refine .word_bind (Word.sub?_of_le (Nat.le_of_not_le hfits)) ?_
    have hevict := hfreed ((sizeOf host path m).1 + added - budget)
    refine .bind (evict_exact (by omega)) (.word (Word.sub?_of_le hevict))

/-- To add an entry counts exactly, if the directory with the entry takes no more than a word
says. -/
theorem addEntry_exact {digest : Digest} {size : Nat} {key : Key} {blob : Bytes}
    (hsum : size + (blob.length + digest.size) < Numeral.limit64) :
    Exact m (InWords.addEntry host digest path size (blob.length + digest.size) key blob)
      (addEntry host digest path size key blob) := by
  unfold InWords.addEntry addEntry
  refine .bind (.lift _) ?_
  rcases (host.create (entryPath path key) m).1 with error | file
  · exact .bind (.lift _) (.pure _)
  refine .bind (.lift _) ?_
  rcases (writeEntry host digest file blob _).1 with error | _
  · exact .bind (.lift _) (.bind (.lift _) (.bind (.lift _) (.pure _)))
  · exact .word_bind (Word.add?_of_lt hsum) (.bind (.lift _) (.bind (.lift _) (.pure _)))

/-- So does storing a blob. -/
theorem set_exact {key : Key} {blob : Bytes} (h : ∀ path, cache.state.directory? = some path →
      (sizeOf host path m).1 + (blob.length + cache.digest.size) < Numeral.limit64 ∧
        ∀ needed, (evict host path needed (sizeOf host path m).2).1 ≤ (sizeOf host path m).1) :
    Exact m (InWords.set host cache key blob) (set host cache key blob) := by
  unfold InWords.set set
  rcases hstate : cache.state with _ | ⟨path, budget⟩
  · exact .pure _
  obtain ⟨hsum, hfreed⟩ := h path (by rw [hstate]; rfl)
  simp only
  by_cases hkey : key.isEmpty = true
  · simp only [if_pos hkey]
    exact .pure _
  by_cases hempty : blob.isEmpty = true
  · simp only [if_neg hkey, if_pos hempty]
    exact .pure _
  by_cases hbig : budget.toNat < blob.length
  · simp only [if_neg hkey, if_neg hempty, if_pos hbig]
    exact .bind (.lift _) (.pure _)
  simp only [if_neg hkey, if_neg hempty, if_neg hbig]
  refine .word_bind (Word.add?_of_lt (Nat.lt_of_le_of_lt (Nat.le_add_left _ _) hsum)) ?_
  refine .bind (makeRoom_exact hsum hfreed) (addEntry_exact ?_)
  -- making room leaves no more than there was
  have hroom : (makeRoom host path budget.toNat (blob.length + cache.digest.size) m).1 ≤
      (sizeOf host path m).1 := by
    unfold makeRoom
    rw [Machine.run_bind]
    split
    · exact Nat.le_refl _
    · exact Nat.sub_le _ _
  omega

/-! ## The law of counting -/

section truthful

variable {faults : Faults} (htrue : faults.Truthful)

/-- The size of a directory is a matter of the files alone. -/
theorem sizeOf_fst (path : Path) (m : Machine) :
    (sizeOf Machine.host path m).1 = Entry.totalSize (m.fs.listEntries path).entries := by
  unfold sizeOf listed
  simp only [Machine.run_bind, Machine.host_list]
  cases (m.fs.listEntries path).error <;> rfl

include htrue

/-- No eviction frees more than the directory takes. -/
theorem evict_le (hwf : m.fs.WellFormed) (path : Path) (needed : Nat) :
    (evict (Machine.faultyHost faults) path needed m).1 ≤ (sizeOf Machine.host path m).1 := by
  by_cases hlead : ∃ location, m.fs.Leads path location
  · obtain ⟨location, hlead⟩ := hlead
    obtain ⟨next, hfreed, -⟩ := evict_eq_victims_of_truthful htrue hwf hlead needed
    have hsub := (Entry.victims_front needed (m.fs.removables faults path location)).sublist.trans
      (FileSystem.removables_sublist faults)
    rw [hfreed, sizeOf_eq hlead]
    exact Nat.le_trans (Entry.totalSize_sublist hsub)
      (Nat.le_of_eq (Entry.totalSize_perm (Entry.perm_inOrder _)))
  · rw [(evict_of_not_leads htrue hlead needed).1]
    exact Nat.zero_le _

/-- Nor does it once the directory was scanned. -/
theorem evict_sizeOf_le (hwf : m.fs.WellFormed) (path : Path) (needed : Nat) :
    (evict (Machine.faultyHost faults) path needed (sizeOf Machine.host path m).2).1 ≤
      (sizeOf Machine.host path m).1 := by
  have hfs := sizeOf_fs path m
  have hle := evict_le htrue (hfs.symm ▸ hwf : (sizeOf Machine.host path m).2.fs.WellFormed) path
    needed
  rwa [sizeOf_fst, hfs, ← sizeOf_fst] at hle

end truthful

/-- As long as sizes are words, a cache can count in words: no sum is too large, and nothing is
taken from less. -/
structure CountsInWords (host : Host (StateM Machine) φ) (cache : Cache) (m : Machine) : Prop where
  /-- Sizes can be added up in words. -/
  sizing : ∀ path, cache.state.directory? = some path →
    (size host cache m).1 < Numeral.limit64 → Exact m (InWords.sizeOf host path) (sizeOf host path)
  /-- Trimming can count in words. -/
  trimming : (size host cache m).1 < Numeral.limit64 →
    Exact m (InWords.trim host cache) (trim host cache)
  /-- So can clearing. -/
  clearing : (size host cache m).1 < Numeral.limit64 →
    Exact m (InWords.clear host cache) (clear host cache)
  /-- If there is room in a word for the new entry as well, so can storing. -/
  storing : ∀ key blob,
    (size host cache m).1 + (blob.length + cache.digest.size) < Numeral.limit64 →
    Exact m (InWords.set host cache key blob) (set host cache key blob)

/-- A cache counts in words where no eviction frees more than a scan has found. -/
theorem countsInWords_of_evict_le (cache : Cache)
    (hfreed : ∀ path needed, (evict host path needed m).1 ≤ (sizeOf host path m).1)
    (hscanned : ∀ path needed, (evict host path needed (sizeOf host path m).2).1 ≤
      (sizeOf host path m).1) : cache.CountsInWords host m := by
  have hsize : ∀ path, cache.state.directory? = some path →
      (size host cache m).1 = (sizeOf host path m).1 := by
    intro path hdir
    unfold size
    rw [hdir]
  constructor
  case sizing =>
    intro path hdir hword
    rw [hsize path hdir] at hword
    exact sizeOf_exact hword
  case trimming =>
    intro hword
    refine trim_exact fun path hdir => ?_
    rw [hsize path hdir] at hword
    exact ⟨hword, fun needed => Nat.lt_of_le_of_lt (hscanned path needed) hword⟩
  case clearing =>
    intro hword
    refine clear_exact fun path hdir => ?_
    rw [hsize path hdir] at hword
    exact Nat.lt_of_le_of_lt (hfreed path _) hword
  case storing =>
    intro key blob hword
    refine set_exact fun path hdir => ?_
    rw [hsize path hdir] at hword
    exact ⟨hword, hscanned path⟩

/-- That is so whatever is in the directory, whoever holds it, and whatever else is refused. -/
theorem countsInWords {faults : Faults} (htrue : faults.Truthful) (cache : Cache)
    (hwf : m.fs.WellFormed) : cache.CountsInWords (Machine.faultyHost faults) m := by
  refine countsInWords_of_evict_le cache (fun path needed => ?_) fun path needed => ?_
  · rw [sizeOf_truthful htrue]
    exact evict_le htrue hwf path needed
  · rw [sizeOf_truthful htrue]
    exact evict_sizeOf_le htrue hwf path needed

/-- A cache of the machine itself counts in words. -/
theorem host_countsInWords (cache : Cache) (hwf : m.fs.WellFormed) :
    cache.CountsInWords Machine.host m :=
  Machine.faultyHost_none ▸ countsInWords Faults.truthful_none cache hwf

end Cache

end BlobCache
