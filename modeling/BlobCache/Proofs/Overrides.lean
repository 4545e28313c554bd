import BlobCache.Proofs.Desk
import BlobCache.Proofs.Numerals

/-!
# Options in place of variables

The tool and the driver both find their cache in the environment, and the tool has options for its
directory and its budget. An environment in which the variables have the values of the options
(`Cli.replaced`) should lead the driver to the same cache.

A directory that is given makes the whole environment irrelevant to the tool, so without a budget
beside it the default holds, whatever the variable for the budget says. In `Cli.configured`, where
the variable is left out in this case, the driver always opens what the tool opens, and in the other
environment it does so wherever the two agree on the budget (`Cli.overrides_exact`).

What it means to open the same cache is `Cli.OpensAs`: for every use of it the tool goes on with the
driver's cache, and it stops where the driver's cache is disabled.
-/

namespace BlobCache

/-! ## Environments with some variables changed -/

namespace Environment

/-- The environment without a variable. -/
def unset (env : Environment) (name : String) : Environment :=
  { env with bindings := env.bindings.filter fun row => row.1 != name }

variable {env : Environment} {name name' : String}

/-- A variable that is unset has no value. -/
theorem get?_unset_self (env : Environment) (name : String) :
    (env.unset name).get? name = none := by
  rw [get?, List.lookup_eq_none_iff]
  intro row hmem
  simpa [unset, bne_comm] using (List.mem_filter.mp hmem).2

/-- To unset a variable leaves all others as they are. -/
theorem get?_unset_of_ne (h : name' ≠ name) : (env.unset name).get? name' = env.get? name' := by
  unfold get? unset
  induction env.bindings with
  | nil => rfl
  | cons row rest ih =>
      obtain ⟨first, value⟩ := row
      by_cases hfirst : first = name
      · subst hfirst
        have hne : (name' == first) = false := beq_eq_false_iff_ne.mpr h
        rw [List.filter_cons_of_neg (by simp), List.lookup_cons, hne, ih]
      · rw [List.filter_cons_of_pos (by simpa using hfirst), List.lookup_cons, List.lookup_cons, ih]

/-- So does setting one. -/
theorem get?_set_of_ne (value : Bytes) (h : name' ≠ name) :
    (env.set name value).get? name' = env.get? name' := by
  have hne : (name' == name) = false := beq_eq_false_iff_ne.mpr h
  have hcons : (env.set name value).get? name' = (env.unset name).get? name' := by
    unfold get? set unset
    rw [List.lookup_cons, hne]
  rw [hcons, get?_unset_of_ne h]

/-- The directory is found without a look at the budget. -/
theorem directory_set_budget (value : Bytes) :
    (env.set budgetVariable value).directory = env.directory := by
  have hsame : ∀ name, name ≠ budgetVariable →
      (env.set budgetVariable value).get? name = env.get? name := fun _ => get?_set_of_ne value
  have hhere : (env.set budgetVariable value).workingDirectory = env.workingDirectory := rfl
  unfold directory nonempty?
  rw [hhere, hsame _ (by decide), hsame _ (by decide), hsame _ (by decide)]

/-- A directory that is set is the directory, if it is not empty. -/
theorem directory_set_self (path : Path) : (env.set directoryVariable path).directory =
    .ok (if path.isEmpty then none else some path) := by
  unfold directory
  rw [get?_set_self]

/-- To set the directory leaves the budget as it is. -/
theorem budget_set_directory (path : Path) :
    (env.set directoryVariable path).budget = env.budget := by
  unfold budget
  rw [get?_set_of_ne path (by decide)]

/-- Without its variable the budget is the usual one. -/
theorem budget_unset_self : (env.unset budgetVariable).budget = defaultBudget := by
  unfold budget
  rw [get?_unset_self]
  rfl

/-- A budget that is set as it is printed holds. -/
theorem budget_set_self (word : UInt64) :
    (env.set budgetVariable (Utf8.encode (toString word.toNat))).budget = word := by
  have hnumeral : Numeral.IsNumeral 10 word.toNat (toString word.toNat).toList := by
    rw [Numeral.toList_toString]
    exact (Numeral.spells_toDigits _).isNumeral
  have hread : budgetOf? (Utf8.encode (toString word.toNat)) = some word :=
    budgetOf?_eq_some_iff.mpr ⟨[], _, [], hnumeral, by simp, by simp,
      by rw [List.nil_append, List.append_nil, String.ofList_toList]⟩
  unfold budget
  rw [get?_set_self, Option.bind_some, hread, Option.getD_some]

end Environment

/-! ## Configurations that lead to the same cache -/

/-- Two configurations differ at most in how they say that there is no directory. -/
structure Config.Alike (a b : Config) : Prop where
  /-- They have the same directory, if any. -/
  directory : a.usableDirectory = b.usableDirectory
  /-- They have the same budget. -/
  budget : a.budget = b.budget

namespace Cache

open Machine (Heedless host)

variable {config config' : Config} {m m' : Machine} (digest : Digest)

/-- Configurations that are alike open the same cache. -/
theorem stateOfConfig_of_alike (h : config.Alike config') :
    CacheState.ofConfig host config = CacheState.ofConfig host config' := by
  unfold CacheState.ofConfig
  rw [h.directory, h.budget]

/-- To open a cache heeds no report. -/
theorem heedless_ofConfig (config : Config) : Heedless (ofConfig host digest config) := by
  refine Heedless.bind ?_ fun state => .pure _
  unfold CacheState.ofConfig
  rcases config.usableDirectory with _ | path
  · exact (Heedless.report _).bind fun _ => .pure _
  refine Heedless.bind (Heedless.onFiles _) fun made => ?_
  rcases made with error | _
  · exact (Heedless.report _).bind fun _ => .pure _
  · exact (Heedless.report _).bind fun _ => .pure _

/-- The same cache is opened whatever was reported before. -/
theorem ofConfig_of_alike (h : config.Alike config') (hfs : m.fs = m'.fs) :
    (ofConfig host digest config m).1 = (ofConfig host digest config' m').1 ∧
      (ofConfig host digest config m).2.fs = (ofConfig host digest config' m').2.fs := by
  have hsame : ofConfig host digest config = ofConfig host digest config' := by
    unfold ofConfig
    rw [stateOfConfig_of_alike h]
  rw [hsame]
  exact heedless_ofConfig digest config' m m' hfs

/-- Where an environment leads to no configuration, a disabled one takes its place. -/
theorem configOf_eq (env : Environment) (m : Machine) :
    (configOf host env m).2.fs = m.fs ∧
      (configOf host env m).1 = (Config.ofEnvironment env).toOption.getD .disabled := by
  refine ⟨?_, ?_⟩
  · rw [← Machine.faultyHost_none]
    exact (configOf_faulty .none m env).1
  · unfold configOf
    rw [Machine.run_bind]
    rcases Config.ofEnvironment env with error | config <;> rfl

/-- To trim a cache heeds no report. -/
theorem heedless_trim (cache : Cache) : Heedless (trim host cache) := by
  unfold trim
  rcases cache.state.directory? with _ | path
  · exact .pure _
  refine ((heedless_listed path).bind fun _ => .pure _).bind fun size => ?_
  simp only
  split_ifs
  · exact .pure _
  · exact ((heedless_listed path).bind fun _ => .pure _).bind fun entries =>
      heedless_evictFrom path _ _ _

/-- Measuring changes no file. -/
theorem fs_size (cache : Cache) (m : Machine) : (size host cache m).2.fs = m.fs := by
  unfold size
  rcases cache.state.directory? with _ | path
  · rfl
  · show (listed host path m).2.fs = m.fs
    unfold listed
    rw [Machine.run_bind]
    have hlisted : (host.list path m).2 = m := rfl
    rw [hlisted]
    rcases (host.list path m).1.error with _ | error <;> rfl

end Cache

namespace Cli

open Machine (Heedless desk host)

/-! ## Variables with the values of options -/

/-- The environment with the values of the options that are given, and otherwise as it is. -/
def replaced (globals : Globals) (env : Environment) : Environment :=
  let placed := match globals.directory with
    | none => env
    | some path => env.set directoryVariable path
  match globals.budget with
  | none => placed
  | some budget => placed.set budgetVariable (Utf8.encode (toString budget.toNat))

/-- Beside a directory that is given the variable for the budget counts as unset. -/
def configured (globals : Globals) (env : Environment) : Environment :=
  replaced globals (if globals.directory.isSome then env.unset budgetVariable else env)

variable {globals : Globals} {env other : Environment} {m : Machine} {config : Config}

/-- The directory is that of the command line, or else that of the environment. -/
theorem directory_replaced (globals : Globals) (env : Environment) :
    (replaced globals env).directory = match globals.directory with
      | none => env.directory
      | some path => .ok (if path.isEmpty then none else some path) := by
  unfold replaced
  rcases globals.directory with _ | path <;> rcases globals.budget with _ | budget
  · rfl
  · exact Environment.directory_set_budget _
  · exact Environment.directory_set_self path
  · exact (Environment.directory_set_budget _).trans (Environment.directory_set_self path)

/-- So is the budget. -/
theorem budget_replaced (globals : Globals) (env : Environment) :
    (replaced globals env).budget = globals.budget.getD env.budget := by
  unfold replaced
  rcases globals.budget with _ | budget
  · rcases globals.directory with _ | path
    · rfl
    · exact Environment.budget_set_directory path
  · exact Environment.budget_set_self budget

/-- The tool and the driver find configurations that lead to one cache, or neither finds any. -/
def Agree (globals : Globals) (env other : Environment) : Prop :=
  match configOf globals env, Config.ofEnvironment other with
  | .ok config, .ok config' => config.Alike config'
  | .error _, .error _ => True
  | _, _ => False

/-- Where no budget of the environment is hidden, the driver finds what the tool finds. -/
theorem agree_replaced (h : globals.directory = none ∨ globals.budget.isSome ∨
    env.budget = defaultBudget) : Agree globals env (replaced globals env) := by
  have hdirectory := directory_replaced globals env
  have hbudget := budget_replaced globals env
  unfold Agree configOf Config.ofEnvironment
  rw [hdirectory, hbudget]
  rcases hplace : globals.directory with _ | path
  · simp only
    rcases env.directory with error | directory
    · trivial
    · exact ⟨rfl, rfl⟩
  · refine ⟨?_, ?_⟩
    · cases path <;> rfl
    · rcases hgiven : globals.budget with _ | budget
      · rw [hplace, hgiven] at h
        exact ((h.resolve_left (by simp)).resolve_left (by simp)).symm
      · rfl

/-- What the tool makes of the command line agrees with what the driver makes of the environment. -/
theorem agree_configured (globals : Globals) (env : Environment) :
    Agree globals env (configured globals env) := by
  unfold configured
  split_ifs with hgiven
  · -- the tool does not look at the environment, so it may be another one
    obtain ⟨path, hplace⟩ := Option.isSome_iff_exists.mp hgiven
    have hsame : configOf globals env = configOf globals (env.unset budgetVariable) := by
      unfold configOf
      rw [hplace]
    have hagree : Agree globals (env.unset budgetVariable)
        (replaced globals (env.unset budgetVariable)) :=
      agree_replaced (Or.inr (Or.inr Environment.budget_unset_self))
    unfold Agree at hagree ⊢
    rwa [hsame]
  · exact agree_replaced (Or.inl (Option.not_isSome_iff_eq_none.mp hgiven))

/-! ## Opening the same cache -/

/-- The cache that the driver opens in an environment, and what is left of the machine. -/
def driverCache (env : Environment) (m : Machine) : Cache × Machine :=
  Cache.ofEnvironment host Sha1.digest env m

/-- On a machine the tool opens the cache that the driver opens in another environment. -/
structure OpensAs (globals : Globals) (env other : Environment) (m : Machine) : Prop where
  /-- Where the driver's cache is enabled, every use of a cache goes on with this cache, after the
  same changes to the files. -/
  enabled : (driverCache other m).1.state.isEnabled = true →
    ∃ ready : Machine, ready.fs = (driverCache other m).2.fs ∧
      ∀ use, withCache desk globals env use m = use (driverCache other m).1 ready
  /-- Where it is disabled, the tool stops. -/
  disabled : (driverCache other m).1.state = .disabled →
    ∃ text after, after.fs = (driverCache other m).2.fs ∧
      ∀ use, withCache desk globals env use m = (.failure text, after)
  /-- What is shown of an enabled cache is its directory, its budget and its entries. -/
  shown : ∀ path budget, (driverCache other m).1.state = .enabled path budget →
    ∃ ready : Machine, ready.fs = (driverCache other m).2.fs ∧ ∀ json,
      info desk globals env json m = (do
        let entries ← (driverCache other m).1.entries host
        return Summary.report ⟨some path, ⟨some path, budget⟩, Entry.totalSize entries,
          entries.length⟩ json) ready
  /-- What is shown of a disabled one is that it is. -/
  hidden : (driverCache other m).1.state = .disabled →
    ∃ after, after.fs = (driverCache other m).2.fs ∧ ∀ json, ∃ report,
      info desk globals env json m = (report, after) ∧
        ((∃ text, report = .failure text) ∨
          ∃ config, report = Summary.report ⟨none, config, 0, 0⟩ json)
  /-- Trimming leaves what the driver's cache leaves when it is trimmed. -/
  trimmed : (runCommand desk globals env .trim m).2.fs =
    ((driverCache other m).1.trim host (driverCache other m).2).2.fs

/-- Finding the configuration changes no file. -/
theorem withConfig_eq (globals : Globals) (env : Environment) (m : Machine) :
    ∃ ready : Machine, ready.fs = m.fs ∧ ∀ use, withConfig desk globals env use m =
      match configOf globals env with
      | .error error => (.failure error.message, ready)
      | .ok config => use config ready := by
  refine ⟨(Cache.reportAll host (configEvents globals env) m).2, ?_, fun use => ?_⟩
  · rw [← Machine.faultyHost_none]
    exact Cache.fs_reportAll .none m _
  · unfold withConfig
    rw [Machine.run_bind]
    rcases configOf globals env with error | config <;> rfl

/-- The tool finds nothing and the driver's cache is disabled, or the tool finds a configuration
with which it opens the driver's cache. -/
theorem found_of_agree (h : Agree globals env other) (m : Machine) :
    (∃ text, ∃ ready : Machine, ready.fs = (driverCache other m).2.fs ∧
      (driverCache other m).1.state = .disabled ∧
      ∀ use, withConfig desk globals env use m = (.failure text, ready)) ∨
    ∃ config, ∃ ready opened : Machine, opened.fs = (driverCache other m).2.fs ∧
      Cache.ofConfig host Sha1.digest config ready = ((driverCache other m).1, opened) ∧
      ∀ use, withConfig desk globals env use m = use config ready := by
  obtain ⟨ready, hready, huse⟩ := withConfig_eq globals env m
  obtain ⟨hfs, hfound⟩ := Cache.configOf_eq other m
  have hdriver : driverCache other m = Cache.ofConfig host Sha1.digest
      (Cache.configOf host other m).1 (Cache.configOf host other m).2 := rfl
  unfold Agree at h
  rcases hconfig : configOf globals env with error | config <;>
    rcases hother : Config.ofEnvironment other with error' | config' <;>
    rw [hconfig, hother] at h
  · rw [hconfig] at huse
    rw [hother] at hfound
    refine Or.inl ⟨error.message, ready, ?_, ?_, huse⟩
    · rw [hdriver, hfound, hready, ← hfs]
      rfl
    · rw [hdriver, hfound]
      rfl
  · cases h
  · cases h
  · rw [hconfig] at huse
    rw [hother] at hfound
    obtain ⟨hcache, hafter⟩ := Cache.ofConfig_of_alike Sha1.digest h (hready.trans hfs.symm)
    refine Or.inr ⟨config, ready, (Cache.ofConfig host Sha1.digest config ready).2, ?_, ?_, huse⟩
    · rw [hdriver, hfound]
      exact hafter
    · rw [hdriver, hfound]
      exact Prod.ext hcache rfl

/-- The configuration of an enabled cache has its directory and its budget. -/
theorem config_of_enabled {path : Path} {budget : UInt64}
    (h : (Cache.ofConfig host Sha1.digest config m).1.state = .enabled path budget) :
    config = ⟨some path, budget⟩ := by
  have hstate : (CacheState.ofConfig host config m).1 = .enabled path budget := h
  obtain ⟨directory, budget'⟩ := config
  unfold CacheState.ofConfig at hstate
  rcases hdirectory : Config.usableDirectory ⟨directory, budget'⟩ with _ | place <;>
    rw [hdirectory] at hstate
  · cases hstate
  · obtain ⟨rfl, -⟩ := Option.filter_eq_some_iff.mp hdirectory
    simp only [Machine.run_bind] at hstate
    rcases hmade : (host.createDirectories place m).1 with error | _ <;> rw [hmade] at hstate
    · cases hstate
    · cases hstate
      rfl

/-- Where the tool finds nothing it stops at once. -/
theorem opensAs_of_stopped {text : String} {ready : Machine}
    (hfs : ready.fs = (driverCache other m).2.fs)
    (hstate : (driverCache other m).1.state = .disabled)
    (huse : ∀ use, withConfig desk globals env use m = (.failure text, ready)) :
    OpensAs globals env other m where
  enabled henabled := by
    rw [hstate] at henabled
    cases henabled
  disabled _ := ⟨text, ready, hfs, fun use => huse _⟩
  shown path budget henabled := by
    rw [hstate] at henabled
    cases henabled
  hidden _ := ⟨ready, hfs, fun json => ⟨_, huse _, Or.inl ⟨text, rfl⟩⟩⟩
  trimmed := by
    have htrim : runCommand desk globals env .trim m = (.failure text, ready) := huse _
    rw [htrim, (Cache.idle_of_disabled hstate host).trim_eq]
    exact hfs

section found

variable {ready opened : Machine}

/-- Where a configuration is found, a cache is used that opens with it. -/
theorem withCache_of_found
    (hopened : Cache.ofConfig host Sha1.digest config ready = ((driverCache other m).1, opened))
    (huse : ∀ use, withConfig desk globals env use m = use config ready)
    (use : Cache → StateM Machine Report) :
    withCache desk globals env use m =
      if (driverCache other m).1.state.isEnabled then use (driverCache other m).1 opened
      else (.failure "cache is disabled", opened) := by
  have hhost : desk.host = host := rfl
  unfold withCache
  rw [huse, Machine.run_bind, hhost, hopened]
  split <;> rfl

/-- Where a configuration is found, what is shown is that of the cache that opens with it. -/
theorem info_of_found
    (hopened : Cache.ofConfig host Sha1.digest config ready = ((driverCache other m).1, opened))
    (huse : ∀ use, withConfig desk globals env use m = use config ready) (json : Bool) :
    info desk globals env json m = (do
      let entries ← (driverCache other m).1.entries host
      return Summary.report ⟨(driverCache other m).1.state.directory?, config,
        Entry.totalSize entries, entries.length⟩ json) opened := by
  have hhost : desk.host = host := rfl
  unfold info
  rw [huse, Machine.run_bind, hhost, hopened]

/-- Trimming the cache that was opened does to the files what trimming the driver's does. -/
theorem trimmed_of_found (hfs : opened.fs = (driverCache other m).2.fs)
    (hopened : Cache.ofConfig host Sha1.digest config ready = ((driverCache other m).1, opened))
    (huse : ∀ use, withConfig desk globals env use m = use config ready) :
    (runCommand desk globals env .trim m).2.fs =
      ((driverCache other m).1.trim host (driverCache other m).2).2.fs := by
  have hhost : desk.host = host := rfl
  have hsame : ((driverCache other m).1.trim host opened).2.fs =
      ((driverCache other m).1.trim host (driverCache other m).2).2.fs :=
    (Cache.heedless_trim _ _ _ hfs).2
  rw [← hsame]
  show (withCache desk globals env _ m).2.fs = _
  rw [withCache_of_found hopened huse]
  cases hstate : (driverCache other m).1.state with
  | disabled =>
      rw [(Cache.idle_of_disabled hstate host).trim_eq]
      rfl
  | enabled path budget =>
      rw [CacheState.isEnabled, CacheState.directory?, Option.isSome_some, if_pos rfl,
        Machine.run_bind, hhost]
      split_ifs
      · rfl
      · exact Cache.fs_size _ _

/-- A configuration that opens the driver's cache opens the same for every use. -/
theorem opensAs_of_found (hfs : opened.fs = (driverCache other m).2.fs)
    (hopened : Cache.ofConfig host Sha1.digest config ready = ((driverCache other m).1, opened))
    (huse : ∀ use, withConfig desk globals env use m = use config ready) :
    OpensAs globals env other m where
  enabled henabled := by
    refine ⟨opened, hfs, fun use => ?_⟩
    rw [withCache_of_found hopened huse, if_pos henabled]
  disabled hstate := by
    refine ⟨"cache is disabled", opened, hfs, fun use => ?_⟩
    rw [withCache_of_found hopened huse, hstate]
    rfl
  shown path budget hstate := by
    have hconfig : config = ⟨some path, budget⟩ :=
      config_of_enabled (m := ready) (by rw [hopened]; exact hstate)
    refine ⟨opened, hfs, fun json => ?_⟩
    rw [info_of_found hopened huse, hconfig, hstate]
    rfl
  hidden hstate := by
    refine ⟨opened, hfs, fun json => ⟨_, ?_, Or.inr ⟨config, rfl⟩⟩⟩
    rw [info_of_found hopened huse, (Cache.idle_of_disabled hstate host).entries_eq, hstate]
    rfl
  trimmed := trimmed_of_found hfs hopened huse

end found

/-- What agrees opens the same cache. -/
theorem opensAs_of_agree (h : Agree globals env other) (m : Machine) :
    OpensAs globals env other m := by
  rcases found_of_agree h m with ⟨text, ready, hfs, hstate, huse⟩ |
    ⟨config, ready, opened, hfs, hopened, huse⟩
  · exact opensAs_of_stopped hfs hstate huse
  · exact opensAs_of_found hfs hopened huse

/-! ## Where the budget is another -/

/-- The budget of the driver's cache is that of its environment. -/
theorem budget_driverCache (h : (driverCache other m).1.state.isEnabled = true) :
    (driverCache other m).1.state.budget = other.budget := by
  obtain ⟨hfs, hfound⟩ := Cache.configOf_eq other m
  have hdriver : driverCache other m = Cache.ofConfig host Sha1.digest
      (Cache.configOf host other m).1 (Cache.configOf host other m).2 := rfl
  cases hstate : (driverCache other m).1.state with
  | disabled =>
      rw [hstate] at h
      cases h
  | enabled path budget =>
      rw [hdriver] at hstate
      have hconfig := config_of_enabled hstate
      rw [hfound, Config.ofEnvironment] at hconfig
      rcases hplace : other.directory with error | directory <;> rw [hplace] at hconfig
      · cases hconfig
      · cases hconfig
        rfl

/-- A directory that is given without a budget beside it hides the budget of the environment. -/
theorem not_opensAs_replaced {path : Path} (hplace : globals.directory = some path)
    (hbudget : globals.budget = none) (henv : env.budget ≠ defaultBudget)
    (henabled : (driverCache (configured globals env) m).1.state.isEnabled = true) :
    ¬OpensAs globals env (replaced globals env) m := by
  intro hopens
  -- how a command ends can tell the budgets apart
  let use : Cache → StateM Machine Report := fun cache =>
    pure ((Report.ofText "").withExit (if cache.state.budget = defaultBudget then 0 else 1))
  obtain ⟨ready, -, huse⟩ := (opensAs_of_agree (agree_configured globals env) m).enabled henabled
  have hdefault : (driverCache (configured globals env) m).1.state.budget = defaultBudget := by
    rw [budget_driverCache henabled, configured, hplace, Option.isSome_some, if_pos rfl,
      budget_replaced, hbudget, Option.getD_none, Environment.budget_unset_self]
  have hexit : (withCache desk globals env use m).1.exit = 0 := by
    rw [huse]
    exact if_pos hdefault
  cases hstate : (driverCache (replaced globals env) m).1.state.isEnabled with
  | true =>
      obtain ⟨ready', -, huse'⟩ := hopens.enabled hstate
      have hother : (driverCache (replaced globals env) m).1.state.budget ≠ defaultBudget := by
        rw [budget_driverCache hstate, budget_replaced, hbudget, Option.getD_none]
        exact henv
      have hexit' : (withCache desk globals env use m).1.exit = 1 := by
        rw [huse']
        exact if_neg hother
      rw [hexit] at hexit'
      cases hexit'
  | false =>
      have hdisabled : (driverCache (replaced globals env) m).1.state = .disabled := by
        cases h : (driverCache (replaced globals env) m).1.state with
        | disabled => rfl
        | enabled path budget =>
            rw [h] at hstate
            cases hstate
      obtain ⟨text, after, -, hstop⟩ := hopens.disabled hdisabled
      rw [hstop use] at hexit
      cases hexit

/-- The tool opens the cache that the driver opens where the variables have the values of the
options, and the variable for the budget is unset beside a directory that is given without a budget.
Without that proviso it does so too if no directory is given, if a budget is given, or if the
environment asks for the default; otherwise it does not, unless there is no cache. -/
theorem overrides_exact (globals : Globals) (env : Environment) (m : Machine) :
    OpensAs globals env (configured globals env) m ∧
      ((globals.directory = none ∨ globals.budget.isSome ∨ env.budget = defaultBudget) →
        OpensAs globals env (replaced globals env) m) ∧
      ((driverCache (configured globals env) m).1.state.isEnabled = true →
        OpensAs globals env (replaced globals env) m →
          globals.directory = none ∨ globals.budget.isSome ∨ env.budget = defaultBudget) := by
  refine ⟨opensAs_of_agree (agree_configured globals env) m,
    fun h => opensAs_of_agree (agree_replaced h) m, fun henabled hopens => ?_⟩
  by_contra hnot
  simp only [not_or] at hnot
  obtain ⟨hplace, hbudget, henv⟩ := hnot
  obtain ⟨path, hpath⟩ := Option.ne_none_iff_exists'.mp hplace
  exact not_opensAs_replaced hpath (by simpa using hbudget) henv henabled hopens

/-- With a directory and a budget nothing that the variables say holds. With a directory alone the
variable for the budget would hold for the driver, and does not for the tool. -/
theorem overrides_exact_with_directory :
    let m := (Session.start [0x77]).machine
    let both : Globals := ⟨false, false, some [0x63], some 4096⟩
    let alone : Globals := ⟨false, false, some [0x63], none⟩
    let broken : Environment :=
      ⟨[(directoryVariable, []), (budgetVariable, Utf8.encode "a lot")], .error (.system .noEntry)⟩
    let scarce : Environment := ⟨[(budgetVariable, Utf8.encode "10")], .ok Path.dot⟩
    ((driverCache (replaced both broken) m).1.state = .enabled [0x63] 4096 ∧
        OpensAs both broken (replaced both broken) m) ∧
      (driverCache (configured alone scarce) m).1.state = .enabled [0x63] defaultBudget ∧
        OpensAs alone scarce (configured alone scarce) m ∧
        ¬OpensAs alone scarce (replaced alone scarce) m := by
  intro m both alone broken scarce
  have hstate : (driverCache (configured alone scarce) m).1.state =
      .enabled [0x63] defaultBudget := by decide +kernel
  have henabled : (driverCache (configured alone scarce) m).1.state.isEnabled = true := by
    rw [hstate]
    rfl
  refine ⟨⟨by decide +kernel, (overrides_exact both broken m).2.1 (Or.inr (Or.inl rfl))⟩, hstate,
    (overrides_exact alone scarce m).1, fun hopens => ?_⟩
  rcases (overrides_exact alone scarce m).2.2 henabled hopens with hplace | hbudget | hdefault
  · cases hplace
  · cases hbudget
  · exact absurd hdefault (by decide +kernel)

/-- An entry of 23 bytes is more than the environment allows and fits into the default. The driver
would evict it from the directory that is given, and the tool keeps it. -/
theorem directory_hides_budget :
    let m := (Session.finish (.start [0x77])
      [.openCache "c" (.config ⟨some [0x63], 100⟩) Sha1.digest none .none,
        .onCache "c" (.set (.text "k") [1, 2, 3])]).machine
    let globals : Globals := ⟨false, false, some [0x63], none⟩
    let env : Environment := ⟨[(budgetVariable, Utf8.encode "10")], .ok Path.dot⟩
    let driver := driverCache (replaced globals env) m
    let place := ((Location.top.child [0x77]).child [0x63]).child [0x6b]
    driver.1.state = .enabled [0x63] 10 ∧
      (driver.1.trim host driver.2).1 = 23 ∧
      (driver.1.trim host driver.2).2.fs.tree.get? place = none ∧
      (runCommand desk globals env .trim m).2.fs.tree.get? place ≠ none ∧
      ¬OpensAs globals env (replaced globals env) m := by
  intro m globals env driver place
  have hgone : (driver.1.trim host driver.2).2.fs.tree.get? place = none := by decide +kernel
  have hkept : (runCommand desk globals env .trim m).2.fs.tree.get? place ≠ none := by
    decide +kernel
  refine ⟨by decide +kernel, by decide +kernel, hgone, hkept, fun hopens => hkept ?_⟩
  have htrimmed : (runCommand desk globals env .trim m).2.fs =
      (driver.1.trim host driver.2).2.fs := hopens.trimmed
  rw [htrimmed, hgone]

end Cli

end BlobCache
