import BlobCache.Graph.Load
import BlobCache.Proofs.Storing

/-!
# Transcripts

What a program asks of its host and of the compiler, and what it is answered, is written down as a
list of calls. Nothing is known of the host: whatever it is asked, it may answer anything, an error
as well as a file, and change its state as it likes. So what a transcript shows of a program holds
whatever goes wrong.

* `Outside`: a host and a compiler, which share a state. `Outside.observed` is the same with a
  transcript beside the state.
* `Outside.Records`: run with a transcript, a program does just what it does without, and what it
  adds to the transcript is so and so. It is built up along the program, by `Records.pure`,
  `Records.ask` and `Records.bind`.
* `Outside.History`: each answer of a transcript was given in the state that the one before it had
  left.
-/

namespace BlobCache

/-- A question to a host or a compiler, with its answer. -/
inductive Call (φ : Type) where
  /-- Directories were to be made. -/
  | createDirectories (path : Path) (answer : Except StoreError Unit)
  /-- A file was to be opened for reading. -/
  | openShared (path : Path) (answer : Except StoreError φ)
  /-- A file was to be locked. -/
  | openExclusive (path : Path) (answer : Except StoreError φ)
  /-- A file was to be created. -/
  | create (path : Path) (answer : Except StoreError φ)
  /-- A file was to be removed. -/
  | remove (path : Path) (answer : Except StoreError Unit)
  /-- A directory was to be listed. -/
  | list (path : Path) (answer : Listing)
  /-- The size of an open file was asked for. -/
  | size (file : φ) (answer : Nat)
  /-- An open file was to be mapped. -/
  | map (file : φ) (answer : Except StoreError Bytes)
  /-- The bytes of a mapping were asked for. -/
  | mapped (file : φ) (answer : Option Bytes)
  /-- Bytes were to be written. -/
  | write (file : φ) (data : Bytes) (answer : Except StoreError Unit)
  /-- A file was closed. -/
  | close (file : φ)
  /-- An event was reported. -/
  | report (event : Event)
  /-- The compiler was run. -/
  | compile (answer : Except String Bytes)

namespace Call

variable {φ : Type}

/-- A run of the compiler. -/
def isCompilation : Call φ → Bool
  | .compile _ => true
  | _ => false

/-- A question that has to do with files. -/
def concernsFiles : Call φ → Bool
  | .report _ | .compile _ => false
  | _ => true

/-- A question after which a directory may not be what it was, or the one that comes before an entry
is evicted. -/
def mayChange : Call φ → Bool
  | .createDirectories .. | .openExclusive .. | .create .. | .remove .. | .write .. => true
  | _ => false

/-- A write that went through. -/
def wrote : Call φ → Bool
  | .write _ _ (.ok ()) => true
  | _ => false

/-- An open file was to be mapped. -/
def isMapping : Call φ → Bool
  | .map .. => true
  | _ => false

/-- Neither a run of the compiler nor a write that went through. -/
def isInert (call : Call φ) : Bool := !call.isCompilation && !call.wrote

/-- Nor a mapping. -/
def isIdle (call : Call φ) : Bool := call.isInert && !call.isMapping

end Call

/-- A host and a compiler, which work on one state. -/
structure Outside (σ φ : Type) where
  /-- The host. -/
  host : Host (StateM σ) φ
  /-- The compiler; it answers a blob or the text of its error. -/
  compile : StateM σ (Except String Bytes)

/-- A state with a transcript of how it was reached. -/
structure Observed (σ φ : Type) where
  /-- The state. -/
  state : σ
  /-- What was asked so far. -/
  calls : List (Call φ)

/-- Asks, and writes down what was answered. -/
@[irreducible]
def observing {σ φ α : Type} (call : α → Call φ) (ask : StateM σ α) :
    StateM (Observed σ φ) α := fun seen =>
  let (answer, state) := ask seen.state
  (answer, ⟨state, seen.calls ++ [call answer]⟩)

namespace Outside

variable {σ φ α β : Type}

/-- The same host and the same compiler, with all that is asked of them written down. -/
def observed (outside : Outside σ φ) : Outside (Observed σ φ) φ where
  host :=
    { createDirectories := fun path =>
        observing (.createDirectories path) (outside.host.createDirectories path)
      openShared := fun path => observing (.openShared path) (outside.host.openShared path)
      openExclusive := fun path => observing (.openExclusive path) (outside.host.openExclusive path)
      create := fun path => observing (.create path) (outside.host.create path)
      remove := fun path => observing (.remove path) (outside.host.remove path)
      list := fun path => observing (.list path) (outside.host.list path)
      size := fun file => observing (.size file) (outside.host.size file)
      map := fun file => observing (.map file) (outside.host.map file)
      mapped := fun file => observing (.mapped file) (outside.host.mapped file)
      write := fun file data => observing (.write file data) (outside.host.write file data)
      close := fun file => observing (fun _ => .close file) (outside.host.close file)
      report := fun event => observing (fun _ => .report event) (outside.host.report event) }
  compile := observing .compile outside.compile

/-! ## Histories -/

/-- The question is answered in this way in the state `s`, and leaves the state `s'`. -/
def Answers (outside : Outside σ φ) (s s' : σ) : Call φ → Prop
  | .createDirectories path answer => outside.host.createDirectories path s = (answer, s')
  | .openShared path answer => outside.host.openShared path s = (answer, s')
  | .openExclusive path answer => outside.host.openExclusive path s = (answer, s')
  | .create path answer => outside.host.create path s = (answer, s')
  | .remove path answer => outside.host.remove path s = (answer, s')
  | .list path answer => outside.host.list path s = (answer, s')
  | .size file answer => outside.host.size file s = (answer, s')
  | .map file answer => outside.host.map file s = (answer, s')
  | .mapped file answer => outside.host.mapped file s = (answer, s')
  | .write file data answer => outside.host.write file data s = (answer, s')
  | .close file => outside.host.close file s = ((), s')
  | .report event => outside.host.report event s = ((), s')
  | .compile answer => outside.compile s = (answer, s')

/-- One after another, the questions were answered in this way on the way from `s` to `s'`. -/
inductive History (outside : Outside σ φ) : σ → List (Call φ) → σ → Prop where
  /-- Nothing was asked. -/
  | nil (s : σ) : History outside s [] s
  /-- Something was asked, and then the rest. -/
  | cons {s s₁ s' : σ} {call : Call φ} {rest : List (Call φ)} :
    outside.Answers s s₁ call → History outside s₁ rest s' → History outside s (call :: rest) s'

section history

variable {outside : Outside σ φ} {s s₁ s' : σ} {first rest calls : List (Call φ)}

/-- Histories can be put one behind the other. -/
theorem History.append (h : outside.History s first s₁) (h' : outside.History s₁ rest s') :
    outside.History s (first ++ rest) s' := by
  induction h with
  | nil => exact h'
  | cons hanswers _ ih => exact .cons hanswers (ih h')

end history

/-! ## Programs -/

/-- Observed or not, a program gives the same answer and leaves the same state. What it has asked on
the way is the history of this state, and `post` holds of the answer and of these questions. -/
def Records (outside : Outside σ φ) (x : StateM (Observed σ φ) α) (y : StateM σ α)
    (post : α → List (Call φ) → Prop) : Prop :=
  ∀ seen : Observed σ φ, ∃ calls,
    x seen = ((y seen.state).1, ⟨(y seen.state).2, seen.calls ++ calls⟩) ∧
      outside.History seen.state calls (y seen.state).2 ∧ post (y seen.state).1 calls

namespace Records

variable {outside : Outside σ φ} {x x' : StateM (Observed σ φ) α} {y y' : StateM σ α}
  {f : α → StateM (Observed σ φ) β} {g : α → StateM σ β} {post : β → List (Call φ) → Prop}
  {mid mid' : α → List (Call φ) → Prop}

/-- To return a result asks nothing. -/
theorem pure {a : α} (h : mid a []) : outside.Records (Pure.pure a) (Pure.pure a) mid :=
  fun seen => ⟨[], by rw [List.append_nil]; rfl, .nil _, h⟩

/-- What is known of the answer and of the questions can be weakened. -/
theorem imp (hx : outside.Records x y mid) (h : ∀ a calls, mid a calls → mid' a calls) :
    outside.Records x y mid' := by
  intro seen
  obtain ⟨calls, hrun, hhistory, hmid⟩ := hx seen
  exact ⟨calls, hrun, hhistory, h _ _ hmid⟩

/-- A program asks what its first part asks, and then what the rest asks. -/
theorem bind (hx : outside.Records x y mid)
    (hf : ∀ a first, mid a first →
      outside.Records (f a) (g a) fun b rest => post b (first ++ rest)) :
    outside.Records (x >>= f) (y >>= g) post := by
  intro seen
  obtain ⟨first, hrun, hhistory, hmid⟩ := hx seen
  obtain ⟨rest, hrun', hhistory', hpost⟩ := hf _ first hmid ⟨(y seen.state).2, seen.calls ++ first⟩
  refine ⟨first ++ rest, ?_, hhistory.append hhistory', hpost⟩
  show f (x seen).1 (x seen).2 = _
  rw [hrun, hrun', List.append_assoc]
  rfl

/-- A question, and nothing after it. -/
theorem asked {call : α → Call φ} {ask : StateM σ α}
    (hanswers : ∀ s, outside.Answers s (ask s).2 (call (ask s).1)) (h : ∀ a, mid a [call a]) :
    outside.Records (observing call ask) ask mid := by
  intro seen
  refine ⟨[call (ask seen.state).1], ?_, .cons (hanswers _) (.nil _), h _⟩
  unfold observing
  rfl

/-- A question, and then the rest. -/
theorem ask {call : α → Call φ} {ask : StateM σ α}
    (hanswers : ∀ s, outside.Answers s (ask s).2 (call (ask s).1))
    (hf : ∀ a, outside.Records (f a) (g a) fun b rest => post b (call a :: rest)) :
    outside.Records (observing call ask >>= f) (ask >>= g) post := by
  have hasked : outside.Records (observing call ask) ask fun a calls => calls = [call a] :=
    asked hanswers fun _ => rfl
  refine hasked.bind ?_
  rintro a first rfl
  exact hf a

/-- Of two programs the one that is chosen asks what it asks. -/
theorem ite {c : Prop} [Decidable c] (ht : c → outside.Records x y mid)
    (hf : ¬c → outside.Records x' y' mid) :
    outside.Records (if c then x else x') (if c then y else y') mid := by
  by_cases h : c
  · rw [if_pos h, if_pos h]
    exact ht h
  · rw [if_neg h, if_neg h]
    exact hf h

end Records

end Outside

/-! ## The programs of a cache -/

namespace Cache

open Outside

variable {σ φ : Type} (outside : Outside σ φ)

/-! ### What transcripts show -/

section calls

variable {calls first rest : List (Call φ)}

/-- Nothing was compiled and nothing written. -/
def Inert (calls : List (Call φ)) : Prop := calls.all Call.isInert = true

/-- Transcripts are inert together if each of them is. -/
theorem inert_append : Inert (first ++ rest) ↔ Inert first ∧ Inert rest := by
  unfold Inert
  rw [List.all_append, Bool.and_eq_true]

/-- In an inert transcript nothing was compiled. -/
theorem Inert.compilations (h : Inert calls) : calls.countP Call.isCompilation = 0 := by
  refine List.countP_eq_zero.mpr fun call hmem hcompilation => ?_
  have hinert : call.isInert = true := List.all_eq_true.mp h call hmem
  unfold Call.isInert at hinert
  simp [hcompilation] at hinert

/-- In an inert transcript nothing was written. -/
theorem Inert.writes (h : Inert calls) : calls.countP Call.wrote = 0 := by
  refine List.countP_eq_zero.mpr fun call hmem hwrote => ?_
  have hinert : call.isInert = true := List.all_eq_true.mp h call hmem
  unfold Call.isInert at hinert
  simp [hwrote] at hinert

/-- Nothing was compiled, written or mapped. -/
def IdleCalls (calls : List (Call φ)) : Prop := calls.all Call.isIdle = true

/-- Transcripts are idle together if each of them is. -/
theorem idleCalls_append : IdleCalls (first ++ rest) ↔ IdleCalls first ∧ IdleCalls rest := by
  unfold IdleCalls
  rw [List.all_append, Bool.and_eq_true]

/-- An idle transcript is inert. -/
theorem IdleCalls.inert (h : IdleCalls calls) : Inert calls := by
  refine List.all_eq_true.mpr fun call hmem => ?_
  have hidle : call.isIdle = true := List.all_eq_true.mp h call hmem
  exact (Bool.and_eq_true_iff.mp hidle).1

/-- In an idle transcript nothing was mapped. -/
theorem IdleCalls.mappings (h : IdleCalls calls) : calls.countP Call.isMapping = 0 := by
  refine List.countP_eq_zero.mpr fun call hmem hmapping => ?_
  have hidle : call.isIdle = true := List.all_eq_true.mp h call hmem
  unfold Call.isIdle at hidle
  simp [hmapping] at hidle

end calls

/-- In reading what stands under a path the host was told, or has shown, that it is no sound entry
although it has some bytes. -/
inductive Condemned (digest : Digest) (path : Path) (calls : List (Call φ)) : Prop where
  /-- The host says so instead of opening it. -/
  | unopened {error : StoreError} : error.isCorrupt = true →
    .openShared path (.error error) ∈ calls → Condemned digest path calls
  /-- It is too short for a checksum. -/
  | short (file : φ) {size : Nat} : .openShared path (.ok file) ∈ calls →
    .size file size ∈ calls → 0 < size → size < digest.size → Condemned digest path calls
  /-- The host says so instead of mapping it. -/
  | unmapped (file : φ) {error : StoreError} : .openShared path (.ok file) ∈ calls →
    error.isCorrupt = true → .map file (.error error) ∈ calls → Condemned digest path calls
  /-- Its checksum is that of something else. -/
  | mismatch (file : φ) {content : Bytes} : .openShared path (.ok file) ∈ calls →
    .map file (.ok content) ∈ calls →
    digest.of (Entry.splitAt digest content).1 ≠ (Entry.splitAt digest content).2 →
    Condemned digest path calls

/-- What was condemned stays so, whatever is asked afterwards. -/
theorem Condemned.append {digest : Digest} {path : Path} {calls : List (Call φ)}
    (h : Condemned digest path calls) (rest : List (Call φ)) :
    Condemned digest path (calls ++ rest) := by
  have hmono : ∀ call ∈ calls, call ∈ calls ++ rest := fun _ => List.mem_append_left _
  cases h with
  | unopened hcorrupt hopen => exact .unopened hcorrupt (hmono _ hopen)
  | short file hopen hsize hpos hlt => exact .short file (hmono _ hopen) (hmono _ hsize) hpos hlt
  | unmapped file hopen hcorrupt hmap =>
      exact .unmapped file (hmono _ hopen) hcorrupt (hmono _ hmap)
  | mismatch file hopen hmap hsum => exact .mismatch file (hmono _ hopen) (hmono _ hmap) hsum

/-- A blob is the front part of what the file under a path was mapped to, and its checksum follows
it. -/
def Supplied (digest : Digest) (path : Path) (blob : Blob φ) (calls : List (Call φ)) : Prop :=
  ∃ file front, blob = .mapped file front.length ∧
    [.openShared path (.ok file), .map file (.ok (Entry.encode digest front))].Sublist calls

/-- A file was to be created for a blob. Where it was, the blob was to be written to it, and after
that its checksum. -/
def Attempted (digest : Digest) (path : Path) (blob : Bytes) (calls : List (Call φ)) : Prop :=
  ∃ created, .create path created ∈ calls ∧ ∀ file, created = .ok file →
    ∃ written, [.create path created, .write file blob written].Sublist calls ∧
      (written = .ok () → ∃ summed, [.create path created, .write file blob written,
        .write file (digest.of blob) summed].Sublist calls)

/-- What was attempted stays so, whatever else is asked. -/
theorem Attempted.mono {digest : Digest} {path : Path} {blob : Bytes}
    {first calls : List (Call φ)} (h : Attempted digest path blob first)
    (hsub : first.Sublist calls) : Attempted digest path blob calls := by
  obtain ⟨created, hmem, hwrites⟩ := h
  refine ⟨created, hsub.subset hmem, fun file hfile => ?_⟩
  obtain ⟨written, hfirst, hsecond⟩ := hwrites file hfile
  refine ⟨written, hfirst.trans hsub, fun hok => ?_⟩
  obtain ⟨summed, hboth⟩ := hsecond hok
  exact ⟨summed, hboth.trans hsub⟩

/-! ## Reading -/

/-- What a transcript shows of a file that was read. -/
structure Reads (digest : Digest) (path : Path) (answer : Except StoreError (Blob φ))
    (calls : List (Call φ)) : Prop where
  /-- Nothing was compiled or written. -/
  inert : Inert calls
  /-- Nothing was to be changed. -/
  unchanging : calls.filter Call.mayChange = []
  /-- A blob is what it should be. -/
  supplied : ∀ blob, answer = .ok blob → Supplied digest path blob calls
  /-- What is called damaged is damaged. -/
  condemned : ∀ error, answer = .error error → error.isCorrupt = true →
    Condemned digest path calls
  /-- What was mapped with its checksum behind it is answered. -/
  sound : ∀ file content, .map file (.ok content) ∈ calls →
    digest.of (Entry.splitAt digest content).1 = (Entry.splitAt digest content).2 →
    answer = .ok (.mapped file (Entry.splitAt digest content).1.length)

/-- A read that fails has shown no sound entry, and if it reports damage the entry is condemned. -/
theorem Reads.of_error {digest : Digest} {path : Path} {error : StoreError}
    {calls : List (Call φ)} (hinert : Inert calls) (hunchanging : calls.filter Call.mayChange = [])
    (h : error.isCorrupt = true → Condemned digest path calls)
    (hunsound : ∀ file content, .map file (.ok content) ∈ calls →
      digest.of (Entry.splitAt digest content).1 ≠ (Entry.splitAt digest content).2) :
    Reads digest path (.error error) calls where
  inert := hinert
  unchanging := hunchanging
  supplied blob heq := nomatch heq
  condemned other heq hcorrupt := by
    cases heq
    exact h hcorrupt
  sound file content hmem hsum := absurd hsum (hunsound file content hmem)

/-- However the host answers, a file is read as its transcript shows. -/
theorem readEntry_records (digest : Digest) (path : Path) :
    outside.Records (readEntry outside.observed.host digest path)
      (readEntry outside.host digest path) (Reads digest path) := by
  unfold readEntry
  refine .ask (fun _ => rfl) fun opened => ?_
  rcases opened with error | file
  · exact .pure (.of_error rfl rfl (fun hcorrupt => .unopened hcorrupt (by simp)) (by simp))
  refine .ask (fun _ => rfl) fun size => .ite (fun hempty => ?_) fun hempty => .ite ?_ ?_
  · refine .ask (fun _ => rfl) fun _ => ?_
    exact .pure (.of_error rfl rfl (fun hcorrupt => nomatch hcorrupt) (by simp))
  · intro hshort
    refine .ask (fun _ => rfl) fun _ => ?_
    exact .pure (.of_error rfl rfl
      (fun _ => .short file (by simp) (by simp) (Nat.pos_of_ne_zero hempty) hshort) (by simp))
  intro _
  refine .ask (fun _ => rfl) fun mapping => ?_
  rcases mapping with error | content
  · refine .ask (fun _ => rfl) fun _ => ?_
    exact .pure (.of_error rfl rfl
      (fun hcorrupt => .unmapped file (by simp) hcorrupt (by simp)) (by simp))
  refine .ite (fun hsum => ?_) fun hsum => ?_
  · -- the blob and its checksum are the whole content
    have hcontent : Entry.encode digest (Entry.splitAt digest content).1 = content :=
      (congrArg (_ ++ ·) hsum).trans (List.take_append_drop _ _)
    refine .pure ⟨rfl, rfl, fun blob h => ?_, fun _ h => (nomatch h), fun other found hmem _ => ?_⟩
    · cases h
      refine ⟨file, (Entry.splitAt digest content).1, rfl, ?_⟩
      rw [hcontent]
      exact .cons_cons _ (.cons _ (.refl _))
    · obtain ⟨rfl, rfl⟩ : other = file ∧ found = content := by simpa using hmem
      rfl
  · refine .ask (fun _ => rfl) fun _ => ?_
    refine .pure (.of_error rfl rfl (fun _ => .mismatch file (by simp) (by simp) hsum) ?_)
    intro other found hmem
    obtain ⟨rfl, rfl⟩ : other = file ∧ found = content := by simpa using hmem
    exact hsum

/-- What a transcript shows of a look-up. -/
structure LooksUp (cache : Cache) (key : Key) (answer : Option (Blob φ)) (calls : List (Call φ)) :
    Prop where
  /-- Nothing was compiled or written. -/
  inert : Inert calls
  /-- A blob is that of the entry, and the look-up has left everything as it was. -/
  found : ∀ blob, answer = some blob → calls.filter Call.mayChange = [] ∧
    ∃ directory, cache.state.directory? = some directory ∧
      Supplied cache.digest (entryPath directory key) blob calls
  /-- At most this entry was to be removed, because it was damaged. -/
  missed : answer = none → calls.filter Call.mayChange = [] ∨
    ∃ directory removal, cache.state.directory? = some directory ∧
      calls.filter Call.mayChange = [.remove (entryPath directory key) removal] ∧
      Condemned cache.digest (entryPath directory key) calls
  /-- What was mapped with its checksum behind it is found. -/
  sound : ∀ file content, .map file (.ok content) ∈ calls →
    cache.digest.of (Entry.splitAt cache.digest content).1 =
      (Entry.splitAt cache.digest content).2 →
    answer = some (.mapped file (Entry.splitAt cache.digest content).1.length)

/-- However the host answers, a look-up goes as its transcript shows. -/
theorem get_records (cache : Cache) (key : Key) :
    outside.Records (get outside.observed.host cache key) (get outside.host cache key)
      (LooksUp cache key) := by
  unfold get
  rcases hdir : cache.state.directory? with _ | directory
  · exact .pure ⟨rfl, fun _ h => (nomatch h), fun _ => Or.inl rfl, fun _ _ h => (nomatch h)⟩
  refine .ite (fun _ => ?_) fun _ => ?_
  · exact .pure ⟨rfl, fun _ h => (nomatch h), fun _ => Or.inl rfl, fun _ _ h => (nomatch h)⟩
  refine (readEntry_records outside _ _).bind fun answer reading hreads => ?_
  -- nothing is mapped after the entry was read
  have hsound : ∀ rest : List (Call φ), IdleCalls rest → ∀ file content,
      .map file (.ok content) ∈ reading ++ rest →
      cache.digest.of (Entry.splitAt cache.digest content).1 =
        (Entry.splitAt cache.digest content).2 →
      answer = .ok (.mapped file (Entry.splitAt cache.digest content).1.length) := by
    intro rest hidle file content hmem
    refine hreads.sound file content ((List.mem_append.mp hmem).resolve_right fun hrest => ?_)
    exact List.countP_eq_zero.mp hidle.mappings _ hrest rfl
  rcases answer with error | blob
  · refine .ite (fun hcorrupt => ?_) fun _ => ?_
    · refine .ask (fun _ => rfl) fun _ => ?_
      refine .ask (fun _ => rfl) fun removal => ?_
      refine .pure ⟨?_, fun _ h => (nomatch h), fun _ => Or.inr ⟨directory, removal, hdir, ?_, ?_⟩,
        fun file content hmem hsum => nomatch hsound _ (by rfl) file content hmem hsum⟩
      · exact inert_append.mpr ⟨hreads.inert, rfl⟩
      · simp [hreads.unchanging, Call.mayChange]
      · exact (hreads.condemned error rfl hcorrupt).append _
    · refine .ask (fun _ => rfl) fun _ => ?_
      refine .pure ⟨?_, fun _ h => (nomatch h), fun _ => Or.inl ?_,
        fun file content hmem hsum => nomatch hsound _ (by rfl) file content hmem hsum⟩
      · exact inert_append.mpr ⟨hreads.inert, rfl⟩
      · simp [hreads.unchanging, Call.mayChange]
  · refine .ask (fun _ => rfl) fun _ => ?_
    refine .pure ⟨?_, fun found h => ?_, fun h => (nomatch h), fun file content hmem hsum => ?_⟩
    · exact inert_append.mpr ⟨hreads.inert, rfl⟩
    · cases h
      obtain ⟨file, front, hblob, hcalls⟩ := hreads.supplied blob rfl
      exact ⟨by simp [hreads.unchanging, Call.mayChange], directory, hdir, file, front, hblob,
        hcalls.trans (List.sublist_append_left _ _)⟩
    · exact congrArg some (Except.ok.inj (hsound _ (by rfl) file content hmem hsum))

/-! ## Evicting -/

/-- A scan is idle. -/
theorem listed_records (directory : Path) :
    outside.Records (listed outside.observed.host directory) (listed outside.host directory)
      fun _ => IdleCalls := by
  unfold listed
  refine .ask (fun _ => rfl) fun listing => ?_
  rcases listing.error with _ | error
  · exact .pure rfl
  · refine .ask (fun _ => rfl) fun _ => ?_
    exact .pure rfl

/-- To find the size of a directory is idle. -/
theorem sizeOf_records (directory : Path) :
    outside.Records (sizeOf outside.observed.host directory) (sizeOf outside.host directory)
      fun _ => IdleCalls := by
  unfold sizeOf
  refine (listed_records outside directory).bind fun entries first hfirst => ?_
  exact .pure (idleCalls_append.mpr ⟨hfirst, rfl⟩)

/-- To list its entries in order is idle. -/
theorem entriesOf_records (directory : Path) :
    outside.Records (entriesOf outside.observed.host directory) (entriesOf outside.host directory)
      fun _ => IdleCalls := by
  unfold entriesOf
  refine (listed_records outside directory).bind fun entries first hfirst => ?_
  exact .pure (idleCalls_append.mpr ⟨hfirst, rfl⟩)

/-- To evict entries is idle. -/
theorem evictFrom_records (directory : Path) (needed : Nat) (entries : List Entry) (freed : Nat) :
    outside.Records (evictFrom outside.observed.host directory needed entries freed)
      (evictFrom outside.host directory needed entries freed) fun _ => IdleCalls := by
  induction entries generalizing freed with
  | nil => exact .pure rfl
  | cons entry rest ih =>
      unfold evictFrom
      refine .ask (fun _ => rfl) fun opened => ?_
      rcases opened with error | file
      · refine .ask (fun _ => rfl) fun _ => ?_
        exact (ih freed).imp fun _ _ hrest => hrest
      refine .ask (fun _ => rfl) fun size => ?_
      refine .ask (fun _ => rfl) fun removed => ?_
      rcases removed with error | _
      · refine .ask (fun _ => rfl) fun _ => ?_
        refine .ask (fun _ => rfl) fun _ => ?_
        exact (ih freed).imp fun _ _ hrest => hrest
      · refine .ask (fun _ => rfl) fun _ => ?_
        refine .ask (fun _ => rfl) fun _ => .ite (fun _ => ?_) fun _ => ?_
        · exact .pure rfl
        · exact (ih (freed + size)).imp fun _ _ hrest => hrest

/-- To evict from a directory is idle. -/
theorem evict_records (directory : Path) (needed : Nat) :
    outside.Records (evict outside.observed.host directory needed)
      (evict outside.host directory needed) fun _ => IdleCalls := by
  unfold evict
  refine (entriesOf_records outside directory).bind fun entries first hfirst => ?_
  exact (evictFrom_records outside directory needed entries 0).imp
    fun _ _ hrest => idleCalls_append.mpr ⟨hfirst, hrest⟩

/-- To make room is idle. -/
theorem makeRoom_records (directory : Path) (budget added : Nat) :
    outside.Records (makeRoom outside.observed.host directory budget added)
      (makeRoom outside.host directory budget added) fun _ => IdleCalls := by
  unfold makeRoom
  refine (sizeOf_records outside directory).bind fun size first hfirst => ?_
  refine .ite (fun _ => ?_) fun _ => ?_
  · exact .pure (idleCalls_append.mpr ⟨hfirst, rfl⟩)
  · refine (evict_records outside directory _).bind fun freed rest hrest => ?_
    exact .pure (idleCalls_append.mpr ⟨hfirst, idleCalls_append.mpr ⟨hrest, rfl⟩⟩)

/-! ## Storing -/

/-- What a transcript shows of two writes. -/
structure Writes (digest : Digest) (file : φ) (blob : Bytes) (answer : Except StoreError Unit)
    (calls : List (Call φ)) : Prop where
  /-- Nothing was compiled. -/
  compilations : calls.countP Call.isCompilation = 0
  /-- The blob was written, and then its checksum. -/
  whole : answer = .ok () →
    calls = [.write file blob (.ok ()), .write file (digest.of blob) (.ok ())]
  /-- Otherwise at most one of them went through. -/
  part : answer ≠ .ok () → calls.countP Call.wrote ≤ 1
  /-- Nothing was mapped. -/
  mappings : calls.countP Call.isMapping = 0
  /-- The blob was to be written in any case, and the checksum if that went through. -/
  tried : ∃ written, [.write file blob written].Sublist calls ∧
    (written = .ok () →
      ∃ summed, [.write file blob written, .write file (digest.of blob) summed].Sublist calls)

/-- However the host answers, a blob is written as the transcript shows. -/
theorem writeEntry_records (digest : Digest) (file : φ) (blob : Bytes) :
    outside.Records (writeEntry outside.observed.host digest file blob)
      (writeEntry outside.host digest file blob) (Writes digest file blob) := by
  unfold writeEntry
  refine .ask (fun _ => rfl) fun first => ?_
  rcases first with error | _
  · exact .pure ⟨rfl, fun h => (nomatch h), fun _ => Nat.zero_le 1, rfl, _, .refl _,
      fun h => nomatch h⟩
  · refine .asked (fun _ => rfl) fun second =>
      ⟨rfl, fun h => ?_, fun h => ?_, rfl, _, .cons_cons _ (List.nil_sublist _),
        fun _ => ⟨second, .refl _⟩⟩
    · rw [h]
    · rcases second with error | _
      · exact Nat.le_refl 1
      · exact absurd rfl h

/-- What a transcript shows of a blob that was to be stored. -/
structure Puts (cache : Cache) (key : Key) (blob : Bytes) (answer : SetOutcome)
    (calls : List (Call φ)) : Prop where
  /-- Nothing was compiled. -/
  compilations : calls.countP Call.isCompilation = 0
  /-- What is stored was written to a file that was created for it. -/
  stored : ∀ size, answer = .stored size → ∃ directory file,
    cache.state.directory? = some directory ∧
      [.create (entryPath directory key) (.ok file), .write file blob (.ok ()),
        .write file (cache.digest.of blob) (.ok ())].Sublist calls
  /-- Otherwise at most one write went through. -/
  unstored : (∀ size, answer ≠ .stored size) → calls.countP Call.wrote ≤ 1
  /-- Nothing was mapped. -/
  mappings : calls.countP Call.isMapping = 0
  /-- A blob that the cache should take it has tried to store. -/
  attempted : ∀ directory budget, cache.state = .enabled directory budget → key.isEmpty = false →
    blob ≠ [] → blob.length ≤ budget.toNat →
    Attempted cache.digest (entryPath directory key) blob calls

/-- What has been asked for in making room makes no difference. -/
theorem Puts.after {cache : Cache} {key : Key} {blob : Bytes} {answer : SetOutcome}
    {first rest : List (Call φ)} (hidle : IdleCalls first) (h : cache.Puts key blob answer rest) :
    cache.Puts key blob answer (first ++ rest) where
  compilations := by rw [List.countP_append, hidle.inert.compilations, h.compilations]
  stored size heq := by
    obtain ⟨directory, file, hdir, hcalls⟩ := h.stored size heq
    exact ⟨directory, file, hdir, hcalls.trans (List.sublist_append_right _ _)⟩
  unstored hne := by
    rw [List.countP_append, hidle.inert.writes, Nat.zero_add]
    exact h.unstored hne
  mappings := by rw [List.countP_append, hidle.mappings, h.mappings]
  attempted directory budget hstate hkey hne hfits :=
    (h.attempted directory budget hstate hkey hne hfits).mono (List.sublist_append_right _ _)

/-- However the host answers, an entry is added as the transcript shows. -/
theorem addEntry_records {cache : Cache} {directory : Path} {budget : UInt64}
    (hstate : cache.state = .enabled directory budget) (size : Nat) (key : Key) (blob : Bytes) :
    outside.Records (addEntry outside.observed.host cache.digest directory size key blob)
      (addEntry outside.host cache.digest directory size key blob) (cache.Puts key blob) := by
  have hdir : cache.state.directory? = some directory := by rw [hstate]; rfl
  -- the directory is that of the cache
  have hattempted : ∀ calls : List (Call φ),
      Attempted cache.digest (entryPath directory key) blob calls →
      ∀ directory budget, cache.state = .enabled directory budget → key.isEmpty = false →
        blob ≠ [] → blob.length ≤ budget.toNat →
        Attempted cache.digest (entryPath directory key) blob calls := by
    intro calls h other budget' hstate' _ _ _
    rw [hstate] at hstate'
    cases hstate'
    exact h
  unfold addEntry
  refine .ask (fun _ => rfl) fun created => ?_
  rcases created with error | file
  · refine .ask (fun _ => rfl) fun _ => ?_
    exact .pure ⟨rfl, fun size h => absurd h (outcomeOfRefusal_ne_stored error size),
      fun _ => Nat.zero_le 1, rfl,
      hattempted _ ⟨.error error, List.mem_cons_self, fun _ h => nomatch h⟩⟩
  refine (writeEntry_records outside cache.digest file blob).bind fun written writes hwrites => ?_
  obtain ⟨first, htried, hsummed⟩ := hwrites.tried
  have htaken : ∀ rest : List (Call φ), Attempted cache.digest (entryPath directory key) blob
      (.create (entryPath directory key) (.ok file) :: (writes ++ rest)) := by
    refine fun rest => ⟨.ok file, List.mem_cons_self, fun other hother => ?_⟩
    cases hother
    refine ⟨first, (htried.trans (List.sublist_append_left _ _)).cons_cons _, fun hok => ?_⟩
    obtain ⟨summed, hboth⟩ := hsummed hok
    exact ⟨summed, (hboth.trans (List.sublist_append_left _ _)).cons_cons _⟩
  rcases written with error | _
  · refine .ask (fun _ => rfl) fun _ => ?_
    refine .ask (fun _ => rfl) fun _ => ?_
    refine .ask (fun _ => rfl) fun _ => ?_
    refine .pure ⟨?_, fun size h => (nomatch h), fun _ => ?_, ?_, hattempted _ (htaken _)⟩
    · simp [List.countP_append, hwrites.compilations, Call.isCompilation]
    · simpa [List.countP_append, List.countP_cons, Call.wrote] using hwrites.part (by simp)
    · simp [List.countP_append, hwrites.mappings, Call.isMapping]
  · refine .ask (fun _ => rfl) fun _ => ?_
    refine .ask (fun _ => rfl) fun _ => ?_
    refine .pure ⟨?_, fun _ _ => ⟨directory, file, hdir, ?_⟩, fun h => absurd rfl (h _), ?_,
      hattempted _ (htaken _)⟩
    · simp [List.countP_append, hwrites.compilations, Call.isCompilation]
    · rw [hwrites.whole rfl]
      exact (List.sublist_append_left _ _).cons_cons _
    · simp [List.countP_append, hwrites.mappings, Call.isMapping]

/-- However the host answers, a blob is stored, or not, as the transcript shows. -/
theorem set_records (cache : Cache) (key : Key) (blob : Bytes) :
    outside.Records (set outside.observed.host cache key blob) (set outside.host cache key blob)
      (cache.Puts key blob) := by
  have hskipped : ∀ reason (calls : List (Call φ)), IdleCalls calls →
      (¬∃ directory budget, cache.state = .enabled directory budget ∧ key.isEmpty = false ∧
        blob ≠ [] ∧ blob.length ≤ budget.toNat) → cache.Puts key blob (.skipped reason) calls := by
    intro reason calls hidle hrefused
    refine ⟨hidle.inert.compilations, fun size h => (nomatch h), fun _ => ?_, hidle.mappings,
      fun directory budget hstate hkey hne hfits => ?_⟩
    · rw [hidle.inert.writes]
      exact Nat.zero_le 1
    · exact absurd ⟨directory, budget, hstate, hkey, hne, hfits⟩ hrefused
  unfold set
  rcases hstate : cache.state with _ | ⟨directory, budget⟩
  · exact .pure (hskipped _ _ rfl (by simp [hstate]))
  refine .ite (fun hkey => .pure (hskipped _ _ rfl (by simp [hkey]))) fun _ =>
    .ite (fun hempty => .pure (hskipped _ _ rfl ?_)) fun _ => ?_
  · have hnil : blob = [] := by simpa using hempty
    simp [hnil]
  refine .ite (fun hbig => ?_) fun _ => ?_
  · refine .ask (fun _ => rfl) fun _ => .pure (hskipped _ _ rfl ?_)
    rintro ⟨directory', budget', hstate', -, -, hfits⟩
    rw [hstate] at hstate'
    cases hstate'
    omega
  · refine (makeRoom_records outside directory _ _).bind fun size first hfirst => ?_
    exact (addEntry_records outside hstate size key blob).imp fun _ _ => .after hfirst

end Cache

end BlobCache
