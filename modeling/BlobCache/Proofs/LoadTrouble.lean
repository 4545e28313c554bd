import BlobCache.Proofs.Transcripts

/-!
# Loads in trouble

Listing, opening, locking, mapping, writing and removing may each fail at any time and in any way.
Whatever the host answers, a load ends in one of few ways, and its transcript shows which.

* `Cache.Withstands`: how the result of a load goes with what was asked on the way.
* `Cache.load_withstands`: every load keeps to it, on every host and with every compiler.
-/

namespace BlobCache.Cache

open Outside

variable {σ φ : Type} (outside : Outside σ φ)

/-- What a transcript shows of a blob that was offered to the cache. -/
structure Offers (cache : Cache) (key : Key) (blob : Bytes) (answer : LoadStatus)
    (calls : List (Call φ)) : Prop where
  /-- Nothing was compiled. -/
  compilations : calls.countP Call.isCompilation = 0
  /-- What is stored was written to a file that was created for it. -/
  stored : answer = .stored → ∃ directory file, cache.state.directory? = some directory ∧
    [.create (entryPath directory key) (.ok file), .write file blob (.ok ()),
      .write file (cache.digest.of blob) (.ok ())].Sublist calls
  /-- Otherwise at most one write went through. -/
  unstored : answer ≠ .stored → calls.countP Call.wrote ≤ 1
  /-- No blob is found in this way. -/
  ne_hit : answer ≠ .hit
  /-- Nothing was mapped. -/
  mappings : calls.countP Call.isMapping = 0
  /-- A blob that the cache should take it has tried to store. -/
  attempted : ∀ directory budget, cache.state = .enabled directory budget → key.isEmpty = false →
    blob ≠ [] → blob.length ≤ budget.toNat →
    Attempted cache.digest (entryPath directory key) blob calls

/-- However the host answers, a blob is offered as the transcript shows. -/
theorem offer_records (cache : Cache) (key : Key) (blob : Bytes) :
    outside.Records (offer outside.observed.host cache key blob)
      (offer outside.host cache key blob) (cache.Offers key blob) := by
  unfold offer
  refine (set_records outside cache key blob).bind fun answer calls hputs => ?_
  have hrefused : ∀ outcome, (∀ size, answer ≠ .stored size) →
      cache.Offers key blob .notStored (calls ++ [.report (.notCached outcome)]) := by
    intro outcome hne
    refine ⟨?_, by simp, fun _ => ?_, by decide, ?_, fun directory budget hstate hkey hblob hfits =>
      (hputs.attempted directory budget hstate hkey hblob hfits).mono
        (List.sublist_append_left _ _)⟩
    · simp [List.countP_append, hputs.compilations, Call.isCompilation]
    · simpa [List.countP_append, Call.wrote] using hputs.unstored hne
    · simp [List.countP_append, hputs.mappings, Call.isMapping]
  rcases answer with size | reason | _
  · refine .pure ?_
    rw [List.append_nil]
    exact ⟨hputs.compilations, fun _ => hputs.stored size rfl, fun h => absurd rfl h, by decide,
      hputs.mappings, hputs.attempted⟩
  · refine .ask (fun _ => rfl) fun _ => ?_
    exact .pure (hrefused _ fun _ => by simp)
  · refine .ask (fun _ => rfl) fun _ => ?_
    exact .pure (hrefused _ fun _ => by simp)

/-- How the result of a load goes with what was asked of the host and of the compiler. -/
structure Withstands (cache : Cache) (compiler : Option Compiler) (request : Request)
    (result : Except LoadError (Loaded φ)) (calls : List (Call φ)) : Prop where
  /-- A load fails because there is no input, or because the compiler fails, and for no other
  reason. -/
  error_iff : ∀ error, result = .error error ↔
    request.input = [] ∧ error = .emptyInput ∨
      ∃ text, .compile (.error text) ∈ calls ∧ error = .compile text
  /-- An intermediate input whose blob was not found is compiled once. -/
  compiled_once : request.format = .intermediate → request.input ≠ [] →
    (∀ blob, result ≠ .ok ⟨blob, .hit⟩) → calls.countP Call.isCompilation = 1
  /-- In every other case the compiler is not run. -/
  compiled_never : request.input = [] ∨ request.format = .native ∨
    (∃ blob, result = .ok ⟨blob, .hit⟩) → calls.countP Call.isCompilation = 0
  /-- Without an input, with a native one, or where the cache is to be left alone, no file is
  touched. -/
  bypasses : request.input = [] ∨ request.format = .native ∨
    request.flags.contains .disableCaching = true → ∀ call ∈ calls, call.concernsFiles = false
  /-- A load that fails has made, written and evicted nothing. At most it has removed the entry of
  the request itself, after that was found to be damaged. -/
  harmless : ∀ error, result = .error error → calls.filter Call.mayChange = [] ∨
    ∃ directory removal, cache.state.directory? = some directory ∧
      calls.filter Call.mayChange =
        [.remove (entryPath directory (cache.keyOf compiler request)) removal] ∧
      Condemned cache.digest (entryPath directory (cache.keyOf compiler request)) calls
  /-- A hit has changed nothing. -/
  unchanging : ∀ blob, result = .ok ⟨blob, .hit⟩ → calls.filter Call.mayChange = []
  /-- The blob counts as stored if it was compiled and then written, with its checksum, to a file
  that was created for it, and not otherwise. -/
  stored_iff : ∀ loaded, result = .ok loaded → (loaded.status = .stored ↔
    ∃ directory file blob, cache.state.directory? = some directory ∧
      [.compile (.ok blob),
        .create (entryPath directory (cache.keyOf compiler request)) (.ok file),
        .write file blob (.ok ()), .write file (cache.digest.of blob) (.ok ())].Sublist calls)
  /-- It counts as a hit if it is part of the entry of the request, and not otherwise. -/
  hit_iff : ∀ loaded, result = .ok loaded → (loaded.status = .hit ↔
    ∃ directory, cache.state.directory? = some directory ∧
      Supplied cache.digest (entryPath directory (cache.keyOf compiler request)) loaded.blob calls)
  /-- Any other blob is the input, if that is native, or what the compiler answered. -/
  owned : ∀ loaded, result = .ok loaded → loaded.status ≠ .hit →
    ∃ bytes, loaded.blob = .owned bytes ∧
      (request.format = .native ∧ bytes = request.input ∨
        request.format = .intermediate ∧ .compile (.ok bytes) ∈ calls)
  /-- An entry of the request that was read with its checksum behind it is a hit. -/
  supplied : cache.digest.Sized → ∀ directory blob, cache.state.directory? = some directory →
    Supplied cache.digest (entryPath directory (cache.keyOf compiler request)) blob calls →
    result = .ok ⟨blob, .hit⟩
  /-- What was compiled because nothing was found the cache then tries to store, unless it is to be
  left alone, has no name for it, or the blob is empty or more than its budget. -/
  offered : request.flags.contains .disableCaching = false →
    ∀ directory budget blob, cache.state = .enabled directory budget →
      (cache.keyOf compiler request).isEmpty = false → .compile (.ok blob) ∈ calls → blob ≠ [] →
      blob.length ≤ budget.toNat →
      ∃ first rest, calls = first ++ .compile (.ok blob) :: rest ∧
        Attempted cache.digest (entryPath directory (cache.keyOf compiler request)) blob rest

/-! ## Ways a load can end -/

section results

variable {cache : Cache} {compiler : Option Compiler} {request : Request}
  {first calls : List (Call φ)} {bytes : Bytes}

/-- Two writes do not go through where less than two do. -/
theorem not_sublist_of_writes (h : calls.countP Call.wrote ≤ 1) (file : φ) (blob sum : Bytes) :
    ¬[.write file blob (.ok ()), .write file sum (.ok ())].Sublist calls := by
  intro hsub
  have htwo : [Call.write file blob (.ok ()), .write file sum (.ok ())].countP Call.wrote ≤
    calls.countP Call.wrote := hsub.countP_le
  have hboth : [Call.write file blob (.ok ()), .write file sum (.ok ())].countP Call.wrote = 2 :=
    rfl
  omega

/-- Where nothing was compiled, no compilation is in the transcript. -/
theorem compile_not_mem (h : calls.countP Call.isCompilation = 0) {answer : Except String Bytes} :
    .compile answer ∉ calls := fun hmem => List.countP_eq_zero.mp h _ hmem rfl

/-- Nothing is supplied where nothing was mapped that is a blob with its checksum. -/
theorem not_supplied {digest : Digest} {path : Path} {blob : Blob φ} (hsized : digest.Sized)
    (h : ∀ file content, .map file (.ok content) ∈ calls →
      digest.of (Entry.splitAt digest content).1 ≠ (Entry.splitAt digest content).2) :
    ¬Supplied digest path blob calls := by
  rintro ⟨file, front, -, hsub⟩
  refine h file _ (hsub.subset (List.mem_cons_of_mem _ List.mem_cons_self)) ?_
  rw [Entry.splitAt_encode hsized]

/-- Where nothing was mapped, no mapping is in the transcript. -/
theorem map_not_mem (h : calls.countP Call.isMapping = 0) {file : φ}
    {answer : Except StoreError Bytes} : .map file answer ∉ calls :=
  fun hmem => List.countP_eq_zero.mp h _ hmem rfl

/-- Bytes that are owned were not supplied by a file. -/
theorem not_supplied_owned {digest : Digest} {path : Path} :
    ¬Supplied digest path (.owned bytes) calls := by
  rintro ⟨file, front, hblob, -⟩
  cases hblob

/-- With an intermediate input only the last of three reasons is left. -/
theorem of_reasons (hinput : request.input ≠ []) (hformat : request.format = .intermediate)
    {reason : Prop} (h : request.input = [] ∨ request.format = .native ∨ reason) : reason := by
  rcases h with hempty | hnative | hreason
  · exact absurd hempty hinput
  · rw [hformat] at hnative
    cases hnative
  · exact hreason

/-- No input. -/
theorem withstands_of_empty (hinput : request.input = []) :
    cache.Withstands compiler request (.error .emptyInput) ([] : List (Call φ)) where
  error_iff error := by simp [hinput, eq_comm]
  compiled_once _ hne := absurd hinput hne
  compiled_never _ := rfl
  bypasses _ _ hmem := nomatch hmem
  harmless _ _ := Or.inl rfl
  unchanging _ _ := rfl
  stored_iff _ h := nomatch h
  hit_iff _ h := nomatch h
  owned _ h := nomatch h
  supplied hsized _ _ _ h := absurd h (not_supplied hsized fun _ _ hmem => nomatch hmem)
  offered _ _ _ _ _ _ hmem := nomatch hmem

/-- A native input. -/
theorem withstands_of_native (hinput : request.input ≠ []) (hnative : request.format = .native) :
    cache.Withstands compiler request (.ok ⟨.owned request.input, .bypassed⟩)
      ([] : List (Call φ)) where
  error_iff error := by simp [hinput]
  compiled_once h := by rw [hnative] at h; cases h
  compiled_never _ := rfl
  bypasses _ _ hmem := nomatch hmem
  harmless _ h := nomatch h
  unchanging _ _ := rfl
  stored_iff loaded h := by
    cases h
    refine ⟨fun h => (nomatch h), ?_⟩
    rintro ⟨_, _, _, -, hsub⟩
    cases hsub
  hit_iff loaded h := by
    cases h
    exact ⟨fun h => (nomatch h), fun ⟨_, _, hsupplied⟩ => absurd hsupplied not_supplied_owned⟩
  owned loaded h _ := by
    cases h
    exact ⟨request.input, rfl, Or.inl ⟨hnative, rfl⟩⟩
  supplied hsized _ _ _ h := absurd h (not_supplied hsized fun _ _ hmem => nomatch hmem)
  offered _ _ _ _ _ _ hmem := nomatch hmem

/-- The blob is found. -/
theorem withstands_of_hit (hinput : request.input ≠ []) (hformat : request.format = .intermediate)
    (hasked : request.flags.contains .disableCaching = false) {blob : Blob φ}
    (h : cache.LooksUp (cache.keyOf compiler request) (some blob) calls) :
    cache.Withstands compiler request (.ok ⟨blob, .hit⟩) calls where
  error_iff error := by
    simp [hinput, compile_not_mem h.inert.compilations]
  compiled_once _ _ hmiss := absurd rfl (hmiss blob)
  compiled_never _ := h.inert.compilations
  bypasses hbypass := by
    have hleave := of_reasons hinput hformat hbypass
    rw [hasked] at hleave
    cases hleave
  harmless _ h := nomatch h
  unchanging other heq := by
    cases heq
    exact (h.found blob rfl).1
  stored_iff loaded heq := by
    cases heq
    refine ⟨fun h => (nomatch h), ?_⟩
    rintro ⟨directory, file, compiled, -, hsub⟩
    exact absurd (hsub.subset List.mem_cons_self) (compile_not_mem h.inert.compilations)
  hit_iff loaded heq := by
    cases heq
    exact ⟨fun _ => (h.found blob rfl).2, fun _ => rfl⟩
  owned loaded heq hne := by
    cases heq
    exact absurd rfl hne
  supplied hsized directory other _ hsupplied := by
    obtain ⟨file, front, rfl, hsub⟩ := hsupplied
    have hmem := hsub.subset (List.mem_cons_of_mem _ List.mem_cons_self)
    have hfound := h.sound file _ hmem (by rw [Entry.splitAt_encode hsized])
    rw [Entry.splitAt_encode hsized] at hfound
    cases hfound
    rfl
  offered _ _ _ _ _ _ hmem := absurd hmem (compile_not_mem h.inert.compilations)

/-! After the compiler was run, `first` is what was asked before that, and `rest` what was asked
afterwards. -/

variable {rest : List (Call φ)} {answer given : Except String Bytes}

/-- The compilation in the transcript is the one that was asked for. -/
theorem compile_mem_iff (hfirst : Inert first) (hrest : rest.countP Call.isCompilation = 0) :
    .compile answer ∈ first ++ .compile given :: rest ↔ answer = given := by
  simp [compile_not_mem hfirst.compilations, compile_not_mem hrest]

/-- It is the only one. -/
theorem compilations_eq_one (hfirst : Inert first) (hrest : rest.countP Call.isCompilation = 0) :
    (first ++ .compile given :: rest).countP Call.isCompilation = 1 := by
  simp [List.countP_append, List.countP_cons, hfirst.compilations, hrest, Call.isCompilation]

section compiled

variable (hinput : request.input ≠ []) (hformat : request.format = .intermediate)
  (hfirst : Inert first)
  (hunread : ∀ file content, .map file (.ok content) ∈ first →
    cache.digest.of (Entry.splitAt cache.digest content).1 ≠
      (Entry.splitAt cache.digest content).2)
include hinput hformat hfirst hunread

/-- The compiler fails. -/
theorem withstands_of_text
    (hbypass : request.flags.contains .disableCaching = true →
      ∀ call ∈ first, call.concernsFiles = false)
    (hchanges : first.filter Call.mayChange = [] ∨
      ∃ directory removal, cache.state.directory? = some directory ∧
        first.filter Call.mayChange =
          [.remove (entryPath directory (cache.keyOf compiler request)) removal] ∧
        Condemned cache.digest (entryPath directory (cache.keyOf compiler request)) first)
    (text : String) :
    cache.Withstands compiler request (.error (.compile text))
      (first ++ [.compile (.error text)]) where
  error_iff error := by
    simp only [compile_mem_iff hfirst List.countP_nil, hinput, false_and, false_or,
      Except.error.injEq]
    exact ⟨fun h => ⟨text, rfl, h.symm⟩, fun ⟨_, htext, herror⟩ => by rw [herror, htext]⟩
  compiled_once _ _ _ := compilations_eq_one hfirst rfl
  compiled_never h := by
    obtain ⟨blob, hhit⟩ := of_reasons hinput hformat h
    cases hhit
  bypasses h := List.forall_mem_append.mpr
    ⟨hbypass (of_reasons hinput hformat h), List.forall_mem_singleton.mpr rfl⟩
  harmless _ _ := by
    rcases hchanges with hnone | ⟨directory, removal, hdir, hone, hcondemned⟩
    · exact Or.inl (by simp [hnone, Call.mayChange])
    · exact Or.inr ⟨directory, removal, hdir, by simp [hone, Call.mayChange],
        hcondemned.append _⟩
  unchanging _ h := nomatch h
  stored_iff _ h := nomatch h
  hit_iff _ h := nomatch h
  owned _ h := nomatch h
  supplied hsized _ _ _ h := by
    refine absurd h (not_supplied hsized fun file content hmem => hunread file content ?_)
    simpa using hmem
  offered _ _ _ _ _ _ hmem := by
    have hfailed := (compile_mem_iff hfirst List.countP_nil).mp hmem
    cases hfailed

/-- The compiler answers a blob. -/
theorem withstands_of_blob {status : LoadStatus} (hne : status ≠ .hit)
    (hrest : rest.countP Call.isCompilation = 0)
    (hbypass : request.flags.contains .disableCaching = true →
      (∀ call ∈ first, call.concernsFiles = false) ∧
        ∀ call ∈ rest, call.concernsFiles = false)
    (hstored : status = .stored → ∃ directory file, cache.state.directory? = some directory ∧
      [.create (entryPath directory (cache.keyOf compiler request)) (.ok file),
        .write file bytes (.ok ()), .write file (cache.digest.of bytes) (.ok ())].Sublist rest)
    (hunstored : status ≠ .stored → rest.countP Call.wrote ≤ 1)
    (hmappings : rest.countP Call.isMapping = 0)
    (hattempted : request.flags.contains .disableCaching = false →
      ∀ directory budget, cache.state = .enabled directory budget →
        (cache.keyOf compiler request).isEmpty = false → bytes ≠ [] →
        bytes.length ≤ budget.toNat →
        Attempted cache.digest (entryPath directory (cache.keyOf compiler request)) bytes rest) :
    cache.Withstands compiler request (.ok ⟨.owned bytes, status⟩)
      (first ++ .compile (.ok bytes) :: rest) where
  error_iff error := by
    simp [compile_mem_iff hfirst hrest, hinput]
  compiled_once _ _ _ := compilations_eq_one hfirst hrest
  compiled_never h := by
    obtain ⟨blob, hhit⟩ := of_reasons hinput hformat h
    cases hhit
    exact absurd rfl hne
  bypasses h := by
    obtain ⟨hbefore, hafter⟩ := hbypass (of_reasons hinput hformat h)
    exact List.forall_mem_append.mpr ⟨hbefore, List.forall_mem_cons.mpr ⟨rfl, hafter⟩⟩
  harmless _ h := by cases h
  unchanging _ h := by
    cases h
    exact absurd rfl hne
  stored_iff loaded heq := by
    cases heq
    constructor
    · intro h
      obtain ⟨directory, file, hdir, hsub⟩ := hstored h
      exact ⟨directory, file, bytes, hdir,
        (hsub.cons_cons _).trans (List.sublist_append_right _ _)⟩
    · rintro ⟨directory, file, blob, -, hsub⟩
      by_contra h
      refine not_sublist_of_writes ?_ file blob (cache.digest.of blob)
        (List.Sublist.trans (.cons _ (.cons _ (.refl _))) hsub)
      simpa [List.countP_append, List.countP_cons, hfirst.writes, Call.wrote] using hunstored h
  hit_iff loaded heq := by
    cases heq
    refine ⟨fun h => absurd h hne, ?_⟩
    rintro ⟨_, _, hsupplied⟩
    exact absurd hsupplied not_supplied_owned
  owned loaded heq _ := by
    cases heq
    exact ⟨bytes, rfl, Or.inr ⟨hformat, (compile_mem_iff hfirst hrest).mpr rfl⟩⟩
  supplied hsized _ _ _ h := by
    refine absurd h (not_supplied hsized fun file content hmem => hunread file content ?_)
    simpa [map_not_mem hmappings] using hmem
  offered hasked directory budget blob hstate hkey hmem hne hfits := by
    have hblob := (compile_mem_iff hfirst hrest).mp hmem
    cases hblob
    exact ⟨first, rest, rfl, hattempted hasked directory budget hstate hkey hne hfits⟩

end compiled

end results

/-- Every load withstands whatever the host and the compiler do. -/
theorem load_withstands (cache : Cache) (compiler : Option Compiler) (request : Request) :
    outside.Records
      (load outside.observed.host cache compiler outside.observed.compile request)
      (load outside.host cache compiler outside.compile request)
      (cache.Withstands compiler request) := by
  unfold load
  refine .ite (fun hinput => ?_) fun hinput => ?_
  · exact .pure (withstands_of_empty (List.isEmpty_iff.mp hinput))
  have hinput : request.input ≠ [] := fun e => hinput (List.isEmpty_iff.mpr e)
  refine .ite (fun hnative => ?_) fun hnative => ?_
  · exact .pure (withstands_of_native hinput hnative)
  have hformat : request.format = .intermediate := by
    cases h : request.format with
    | native => exact absurd h hnative
    | intermediate => rfl
  refine .ite (fun hleave => ?_) fun hasked => ?_
  · refine .ask (fun _ => rfl) fun _ => ?_
    refine .ask (fun _ => rfl) fun answer => ?_
    have hfirst : Inert [(.report .cachingDisabled : Call φ)] := rfl
    rcases answer with text | blob
    · exact .pure (withstands_of_text hinput hformat hfirst (by simp)
        (by simp [Call.concernsFiles]) (Or.inl rfl) text)
    · exact .pure (withstands_of_blob hinput hformat hfirst (by simp) (by decide) rfl
        (by simp [Call.concernsFiles]) (by simp) (fun _ => Nat.zero_le 1) rfl
        fun hasked => by rw [hleave] at hasked; cases hasked)
  refine (get_records outside cache _).bind fun found looking hlooking => ?_
  have hasked : request.flags.contains .disableCaching = false := by simpa using hasked
  rcases found with _ | blob
  · have hunread : ∀ file content, .map file (.ok content) ∈ looking →
        cache.digest.of (Entry.splitAt cache.digest content).1 ≠
          (Entry.splitAt cache.digest content).2 :=
      fun file content hmem hsum => nomatch hlooking.sound file content hmem hsum
    refine .ask (fun _ => rfl) fun answer => ?_
    rcases answer with text | blob
    · refine .pure (withstands_of_text hinput hformat hlooking.inert hunread ?_
        (hlooking.missed rfl) text)
      rw [hasked]
      exact fun h => nomatch h
    · refine (offer_records outside cache _ blob).bind fun status rest hoffers => ?_
      refine .pure ?_
      rw [List.append_nil]
      refine withstands_of_blob hinput hformat hlooking.inert hunread hoffers.ne_hit
        hoffers.compilations ?_ hoffers.stored hoffers.unstored hoffers.mappings
        fun _ => hoffers.attempted
      rw [hasked]
      exact fun h => nomatch h
  · refine .pure ?_
    rw [List.append_nil]
    exact withstands_of_hit hinput hformat hasked hlooking

end BlobCache.Cache
