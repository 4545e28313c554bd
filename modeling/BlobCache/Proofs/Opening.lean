import BlobCache.Proofs.Upkeep
import BlobCache.Session.Step

/-!
# Opening caches

Opening a cache makes its directory and any missing parents and touches nothing else, so it is calm
wherever the cache is opened. What the new cache keeps is what it was asked for: its digest, its
host, and as directory that of its configuration. `Session.openCache_spec` says both.
-/

namespace BlobCache

namespace FileSystem

/-! ## Making directories -/

variable {fs fs' : FileSystem} {location : Location}

/-- What is vacant is free. -/
theorem get?_of_vacancy {path : Path} {slashed : Option SystemError} {place : Location}
    (h : fs.vacancy path slashed = .ok place) : fs.tree.get? place = none := by
  unfold vacancy at h
  rcases hlast : fs.resolveLast path with cause | ⟨parent, name, slash⟩ | spot <;>
    rw [hlast] at h
  · cases h
  · simp only [except_ok_bind] at h
    rcases hnode : fs.nodeIn parent name with cause | node | node <;> rw [hnode] at h
    · cases h
    · have hfree : fs.tree.get? (parent.child name) = none := by
        unfold nodeIn at hnode
        split at hnode
        · cases hnode
        · exact Except.ok.inj hnode
      have hplace : parent.child name = place := by
        simp only [except_ok_bind, Option.isSome_none, Bool.false_eq_true, if_false] at h
        split at h
        · cases h
        · exact Except.ok.inj h
      rw [← hplace]
      exact hfree
    · cases h
  · cases h

section making

variable {P : FileSystem → Prop} (hmake : ∀ (fs : FileSystem) (place : Location), P fs →
  fs.tree.get? place = none → P (fs.bind place .directory))
include hmake

/-- To enter a directory, or to make one, keeps what free names bound to directories keep. -/
theorem enterDirectory_induction {fs : FileSystem} (h : P fs) (here : Location) (name : Bytes)
    (path : Path) : P (fs.enterDirectory here name path).2 := by
  unfold enterDirectory
  split
  · exact h
  · split
    · exact h
    · rcases hnode : fs.nodeIn here name with cause | _ | _ | _ | _
      · exact h
      · refine hmake fs _ h ?_
        unfold nodeIn at hnode
        split at hnode
        · cases hnode
        · exact Except.ok.inj hnode
      · exact h
      · exact h
      · exact h

/-- So does making a plain path. -/
theorem makePlainDirectory_induction {fs : FileSystem} (h : P fs) (absolute : Bool)
    (names : List Bytes) : P (makePlainDirectory absolute names fs).2 := by
  induction names generalizing fs with
  | nil => exact h
  | cons name outer ih =>
      unfold makePlainDirectory
      simp only
      split
      · rename_i place hplace
        exact hmake fs _ h (get?_of_vacancy hplace)
      · have hparent := ih h
        split
        · rename_i hmade
          rw [hmade] at hparent
          exact hparent
        · rename_i hmade
          rw [hmade] at hparent
          exact enterDirectory_induction hmake hparent _ _ _
      · exact h

/-- Making directories takes places that are free, one after another, and does nothing else. -/
theorem makeDirectories_induction {fs : FileSystem} (h : P fs) (path : Path) :
    P (fs.makeDirectories path).2 := by
  -- the last step takes what is free, or finds what is there
  have hsettle : ∀ fs fs' : FileSystem, P fs →
      (∀ place, fs.vacancy path none = .ok place → fs' = fs.bind place .directory) →
      (∀ cause, fs.vacancy path none = .error cause → fs' = fs) → P fs' := by
    intro fs fs' h hfree htaken
    rcases hplace : fs.vacancy path none with cause | place
    · rw [htaken cause hplace]
      exact h
    · rw [hfree place hplace]
      exact hmake fs _ h (get?_of_vacancy hplace)
  unfold makeDirectories
  simp only
  split
  · exact h
  · rename_i outer _
    split
    · have hparent := makePlainDirectory_induction hmake h (Path.plain path).absolute outer
      split
      · rename_i hmade
        rw [hmade] at hparent
        exact hparent
      · rename_i hmade
        rw [hmade] at hparent
        exact hsettle _ _ hparent (fun _ h => by rw [h]) fun _ h => by rw [h]
    · exact hsettle _ _ h (fun _ h => by rw [h]) fun _ h => by rw [h]

end making

/-- Making directories is calm. -/
theorem makeDirectories_calm (location : Location) (fs : FileSystem) (path : Path) :
    fs.Calm location (fs.makeDirectories path).2 :=
  makeDirectories_induction (fun _ _ h hfree => h.trans (.bind_directory hfree)) (.refl _ _) path

/-- What is calm with respect to every directory takes nothing away at all. -/
theorem kept_of_calm (h : ∀ location, fs.Calm location fs') {place : Location} {node : Node}
    (hget : fs.tree.get? place = some node) : fs'.tree.get? place = some node := by
  rcases (h (place.child [])).kept place node hget with hkept | ⟨name, id, hplace, -⟩
  · exact hkept
  · have hdepth : place.depth = place.depth + 1 + 1 := congrArg Location.depth hplace
    omega

end FileSystem

/-! ## Opening -/

namespace Machine

/-- Making a directory takes nothing away. -/
theorem Calm.makeDirectories (digest : Digest) (location : Location) (m : Machine) (path : Path) :
    m.Calm digest location (host.createDirectories path m).2 := by
  have hcalm := fun location => FileSystem.makeDirectories_calm location m.fs path
  exact .withFiles (hcalm location) fun _ _ hget => FileSystem.kept_of_calm hcalm hget

end Machine

/-- The cache directory that an environment leads to, if it leads to any. -/
def Environment.cacheDirectory? (env : Environment) : Option Path :=
  match Config.ofEnvironment env with
  | .ok config => config.usableDirectory
  | .error _ => none

/-- The cache directory that is asked for, by one who works in the directory `here`. -/
def Session.ConfigSource.directory? (here : Path) : Session.ConfigSource → Option Path
  | .config asked => asked.usableDirectory
  | .environment env => env.cacheDirectory?
  | .process bindings => Environment.cacheDirectory? ⟨bindings, .ok here⟩

namespace Cache

variable {digest : Digest} {location : Location} {m : Machine}

/-- Reporting events is calm. -/
theorem reportAll_calm (digest : Digest) (location : Location) (hwf : m.fs.WellFormed)
    (events : List Event) :
    m.Calm digest location (reportAll Machine.host events m).2 := by
  induction events generalizing m with
  | nil => exact .refl _ _ _
  | cons event rest ih =>
      have hstep := Machine.Calm.noting digest location m event
      exact hstep.trans hwf (ih (hstep.wellFormed hwf))

/-- A cache keeps entries only in the directory of its configuration, which is made on the way. -/
theorem ofConfig_spec (digest : Digest) (location : Location) (hwf : m.fs.WellFormed)
    (config : Config) :
    m.Calm digest location (CacheState.ofConfig Machine.host config m).2 ∧
      ∀ path, (CacheState.ofConfig Machine.host config m).1.directory? = some path →
        config.usableDirectory = some path := by
  unfold CacheState.ofConfig
  rcases config.usableDirectory with _ | place
  · exact ⟨.noting _ _ _ _, fun path h => by cases h⟩
  · simp only [Machine.run_bind]
    have hmade := Machine.Calm.makeDirectories digest location m place
    rcases (Machine.host.createDirectories place m).1 with error | _
    · exact ⟨hmade.trans hwf (.noting _ _ _ _), fun path h => by cases h⟩
    · exact ⟨hmade.trans hwf (.noting _ _ _ _), fun path h => h⟩

/-- To find a configuration is calm, and its directory is the one that the environment says. -/
theorem configOf_spec (digest : Digest) (location : Location) (hwf : m.fs.WellFormed)
    (env : Environment) :
    m.Calm digest location (configOf Machine.host env m).2 ∧
      (configOf Machine.host env m).1.usableDirectory = env.cacheDirectory? := by
  have hreport := reportAll_calm digest location hwf (Config.eventsOfEnvironment env)
  unfold configOf Environment.cacheDirectory?
  rw [Machine.run_bind]
  rcases Config.ofEnvironment env with error | config
  · exact ⟨hreport.trans hwf (.noting _ _ _ _), rfl⟩
  · exact ⟨hreport, rfl⟩

/-- To open a cache from the environment is calm. It has the digest given, and no other directory
than the environment says. -/
theorem ofEnvironment_spec (digest : Digest) (location : Location) (hwf : m.fs.WellFormed)
    (env : Environment) :
    m.Calm digest location (ofEnvironment Machine.host digest env m).2 ∧
      (ofEnvironment Machine.host digest env m).1.digest = digest ∧
      ∀ path, (ofEnvironment Machine.host digest env m).1.state.directory? = some path →
        env.cacheDirectory? = some path := by
  obtain ⟨hcalm, hconfig⟩ := configOf_spec digest location hwf env
  obtain ⟨hcalm', hdir⟩ := ofConfig_spec digest location (hcalm.wellFormed hwf)
    (configOf Machine.host env m).1
  exact ⟨hcalm.trans hwf hcalm', rfl, fun path h => hconfig.symm.trans (hdir path h)⟩

end Cache

namespace Session

variable {digest : Digest} {location : Location} {m : Machine}

/-- Opening a cache is calm, and the cache is the one that was asked for. -/
theorem openCache_spec (digest : Digest) (location : Location) (hwf : m.fs.WellFormed)
    (source : ConfigSource) (version : Option UInt32) :
    m.Calm digest location (openCache source digest version .none m).2 ∧
      (openCache source digest version .none m).1.cache.digest = digest ∧
      (openCache source digest version .none m).1.faults = .none ∧
      ∀ path, (openCache source digest version .none m).1.cache.state.directory? = some path →
        source.directory? (workingDirectory m.fs) = some path := by
  unfold openCache
  simp only [Machine.faultyHost_none]
  cases source with
  | config config =>
      obtain ⟨hcalm, hdir⟩ := Cache.ofConfig_spec digest location hwf config
      exact ⟨hcalm, rfl, rfl, hdir⟩
  | environment env =>
      obtain ⟨hcalm, hdigest, hdir⟩ := Cache.ofEnvironment_spec digest location hwf env
      exact ⟨hcalm, hdigest, rfl, hdir⟩
  | process bindings =>
      obtain ⟨hcalm, hdigest, hdir⟩ := Cache.ofEnvironment_spec digest location hwf
        ⟨bindings, .ok (workingDirectory m.fs)⟩
      exact ⟨hcalm, hdigest, rfl, hdir⟩

end Session

end BlobCache
