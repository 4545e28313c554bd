import BlobCache.Config.Json
import BlobCache.Proofs.JsonTexts
import Mathlib.Data.List.Perm.Basic

/-!
# Configurations and their texts

What an object has to hold in order to stand for a configuration (`Config.Describes`): every name is
a text, and the directory and the budget are each missing or there once, with a value that stands
for one. The decoder takes just these objects (`Config.ofJson?_object_iff`), so neither the order of
the members matters nor what else there is among them.

`Config.texts_exact` joins this to the texts: every configuration is read back from its text, and
what a text is read as depends on the members that it spells and on nothing else.
-/

namespace BlobCache.Config

/-! ## What an object describes -/

/-- The values that members have under a name. -/
def valuesOf (name : String) (members : List (Option String × Json)) : List Json :=
  (members.filter fun member => member.1 = some name).map Prod.snd

/-- A value stands for a directory, or for none. -/
inductive DirectoryOf : Json → Option Path → Prop where
  /-- There is no directory. -/
  | none : DirectoryOf .null none
  /-- The directory is a text. -/
  | text (text : String) : DirectoryOf (.string (some text)) (some (Path.ofText text))

/-- A value stands for a budget: it is a number, spelled with digits alone, of 64 bits. -/
inductive BudgetOf : Json → UInt64 → Prop where
  /-- The digits make up the budget. -/
  | digits {spelling : String} {budget : UInt64} :
      Numeral.Spells 10 budget.toNat spelling.toList → BudgetOf (.number spelling) budget

/-- The members of an object make up a configuration. -/
structure Describes (members : List (Option String × Json)) (config : Config) : Prop where
  /-- Every name is a text. -/
  names : ∀ member ∈ members, member.1 ≠ none
  /-- The directory is missing, and there is none, or it is there once. -/
  directory : valuesOf "cache_dir" members = [] ∧ config.directory = none ∨
    ∃ value, valuesOf "cache_dir" members = [value] ∧ DirectoryOf value config.directory
  /-- The budget is missing, and the default holds, or it is there once. -/
  budget : valuesOf "max_size_bytes" members = [] ∧ config.budget = defaultBudget ∨
    ∃ value, valuesOf "max_size_bytes" members = [value] ∧ BudgetOf value config.budget

/-- Whether a member has the name of nothing in a configuration. -/
def isUnknown : Option String × Json → Bool
  | (some name, _) => name != "cache_dir" && name != "max_size_bytes"
  | (none, _) => false

variable {members others : List (Option String × Json)} {member : Option String × Json}
  {config : Config} {value : Json} {name : String} {directory : Option Path} {budget : UInt64}

/-- A value is taken for a directory just if it describes it. -/
theorem directoryOfJson?_eq_some_iff :
    directoryOfJson? value = some directory ↔ DirectoryOf value directory := by
  constructor
  · intro h
    unfold directoryOfJson? at h
    split at h
    · cases h
      exact .none
    · cases h
      exact .text _
    · cases h
  · rintro (_ | text)
    · rfl
    · rfl

/-- A value is taken for a budget just if it describes it. -/
theorem budgetOfJson?_eq_some_iff : budgetOfJson? value = some budget ↔ BudgetOf value budget := by
  simp only [budgetOfJson?, Option.map_eq_some_iff, Option.filter_eq_some_iff, decide_eq_true_eq]
  constructor
  · rintro ⟨n, ⟨hn, hlt⟩, rfl⟩
    unfold Json.nat? at hn
    split at hn
    · refine .digits ?_
      rw [UInt64.toNat_ofNat_of_lt' hlt]
      exact (Numeral.digits?_eq_some_iff (by decide)).mp hn
    · cases hn
  · rintro ⟨hspells⟩
    exact ⟨budget.toNat, ⟨(Numeral.digits?_eq_some_iff (by decide)).mpr hspells, budget.toNat_lt⟩,
      UInt64.ofNat_toNat⟩

/-! ## Reading members -/

/-- The values under a name are those of the first member and of the others. -/
theorem valuesOf_cons (name : String) (member : Option String × Json)
    (members : List (Option String × Json)) :
    valuesOf name (member :: members) = valuesOf name [member] ++ valuesOf name members := by
  rw [valuesOf, ← List.singleton_append, List.filter_append, List.map_append]
  rfl

/-- A single member has a value under its own name only. -/
theorem valuesOf_one (name : String) (label : Option String) (value : Json) :
    valuesOf name [(label, value)] = if label = some name then [value] else [] := by
  unfold valuesOf
  by_cases hlabel : label = some name <;> simp [hlabel]

/-- Values are read into a place for one: there is none, or just one and the place was free. -/
def Fills {α : Type} (read : Json → Option α) (before : Option α) (values : List Json)
    (after : Option α) : Prop :=
  values = [] ∧ after = before ∨
    ∃ value found, values = [value] ∧ before = none ∧ read value = some found ∧ after = some found

section Fills

variable {α : Type} {read : Json → Option α} {before after : Option α} {values more : List Json}

/-- Without values nothing is filled in. -/
theorem fills_nil_iff : Fills read before [] after ↔ after = before := by
  simp [Fills]

/-- One value is filled in where there was none, if it can be read. -/
theorem fills_one_iff : Fills read before [value] after ↔
    before = none ∧ ∃ found, read value = some found ∧ after = some found := by
  simp [Fills]

/-- A place is filled by some values and then by others if there is only one value in all. -/
theorem fills_append_iff : Fills read before (values ++ more) after ↔
    ∃ between, Fills read before values between ∧ Fills read between more after := by
  constructor
  · rintro (⟨hnil, rfl⟩ | ⟨value, found, hone, rfl, hread, rfl⟩)
    · obtain ⟨rfl, rfl⟩ := List.append_eq_nil_iff.mp hnil
      exact ⟨_, fills_nil_iff.mpr rfl, fills_nil_iff.mpr rfl⟩
    · rcases List.append_eq_singleton_iff.mp hone with ⟨rfl, rfl⟩ | ⟨rfl, rfl⟩
      · exact ⟨none, fills_nil_iff.mpr rfl, fills_one_iff.mpr ⟨rfl, found, hread, rfl⟩⟩
      · exact ⟨some found, fills_one_iff.mpr ⟨rfl, found, hread, rfl⟩, fills_nil_iff.mpr rfl⟩
  · rintro ⟨between, ⟨rfl, rfl⟩ | ⟨value, found, rfl, rfl, hread, rfl⟩, hmore⟩
    · exact hmore
    · rcases hmore with ⟨rfl, rfl⟩ | ⟨_, _, _, htaken, _, _⟩
      · exact fills_one_iff.mpr ⟨rfl, found, hread, rfl⟩
      · cases htaken

end Fills

variable {read next final : Members}

/-- What members do to the places for the directory and the budget. -/
structure Takes (read : Members) (members : List (Option String × Json)) (final : Members) : Prop
    where
  /-- Every name is a text. -/
  names : ∀ member ∈ members, member.1 ≠ none
  /-- The directory is filled. -/
  directory : Fills directoryOfJson? read.directory (valuesOf "cache_dir" members) final.directory
  /-- The budget is filled. -/
  budget : Fills budgetOfJson? read.budget (valuesOf "max_size_bytes" members) final.budget

/-- Without members nothing is taken. -/
theorem takes_nil_iff : Takes read [] final ↔ final = read := by
  constructor
  · rintro ⟨-, hdirectory, hbudget⟩
    obtain ⟨directory, budget⟩ := final
    cases fills_nil_iff.mp hdirectory
    cases fills_nil_iff.mp hbudget
    rfl
  · rintro rfl
    exact ⟨by simp, fills_nil_iff.mpr rfl, fills_nil_iff.mpr rfl⟩

/-- Members are taken one after another. -/
theorem takes_cons_iff :
    Takes read (member :: members) final ↔
      ∃ next, Takes read [member] next ∧ Takes next members final := by
  constructor
  · rintro ⟨hnames, hdirectory, hbudget⟩
    rw [valuesOf_cons, fills_append_iff] at hdirectory hbudget
    obtain ⟨directory, hdirectory, hmoreDirectory⟩ := hdirectory
    obtain ⟨budget, hbudget, hmoreBudget⟩ := hbudget
    obtain ⟨hname, hnames⟩ := List.forall_mem_cons.mp hnames
    exact ⟨⟨directory, budget⟩, ⟨by simpa using hname, hdirectory, hbudget⟩, hnames,
      hmoreDirectory, hmoreBudget⟩
  · rintro ⟨next, ⟨hname, hdirectory, hbudget⟩, hnames, hmoreDirectory, hmoreBudget⟩
    refine ⟨List.forall_mem_cons.mpr ⟨hname member List.mem_cons_self, hnames⟩, ?_, ?_⟩
    · rw [valuesOf_cons, fills_append_iff]
      exact ⟨_, hdirectory, hmoreDirectory⟩
    · rw [valuesOf_cons, fills_append_iff]
      exact ⟨_, hbudget, hmoreBudget⟩

/-- One member is taken in as its name says. -/
theorem add?_eq_some_iff : read.add? member.1 member.2 = some next ↔ Takes read [member] next := by
  obtain ⟨label, value⟩ := member
  obtain ⟨directory, budget⟩ := read
  obtain ⟨nextDirectory, nextBudget⟩ := next
  have htakes : Takes ⟨directory, budget⟩ [(label, value)] ⟨nextDirectory, nextBudget⟩ ↔
      label ≠ none ∧
        Fills directoryOfJson? directory (if label = some "cache_dir" then [value] else [])
          nextDirectory ∧
        Fills budgetOfJson? budget (if label = some "max_size_bytes" then [value] else [])
          nextBudget := by
    rw [← valuesOf_one, ← valuesOf_one]
    constructor
    · rintro ⟨hnames, hdirectory, hbudget⟩
      exact ⟨hnames _ List.mem_cons_self, hdirectory, hbudget⟩
    · rintro ⟨hname, hdirectory, hbudget⟩
      exact ⟨by simpa using hname, hdirectory, hbudget⟩
  rw [htakes]
  rcases label with _ | name
  · simp [Members.add?]
  · by_cases hdirectory : name = "cache_dir"
    · subst hdirectory
      rcases directory with _ | taken
      · rcases hread : directoryOfJson? value with _ | found
        · simp [Members.add?, fills_one_iff, hread]
        · simpa [Members.add?, fills_one_iff, fills_nil_iff, hread] using and_congr eq_comm eq_comm
      · simp [Members.add?, fills_one_iff]
    · by_cases hbudget : name = "max_size_bytes"
      · subst hbudget
        rcases budget with _ | taken
        · rcases hread : budgetOfJson? value with _ | found
          · simp [Members.add?, fills_one_iff, hread]
          · simpa [Members.add?, fills_one_iff, fills_nil_iff, hread] using
              and_congr eq_comm eq_comm
        · simp [Members.add?, fills_one_iff]
      · simpa [Members.add?, hdirectory, hbudget, fills_nil_iff] using and_congr eq_comm eq_comm

/-- Members are taken in one after the other. -/
theorem addAll?_eq_some_iff : read.addAll? members = some final ↔ Takes read members final := by
  induction members generalizing read with
  | nil =>
      rw [takes_nil_iff, Members.addAll?, Option.some.injEq, eq_comm]
  | cons member members ih =>
      rw [takes_cons_iff, Members.addAll?, Option.bind_eq_bind, Option.bind_eq_some_iff]
      exact exists_congr fun next => and_congr add?_eq_some_iff ih

/-- An object is decoded if and only if its members make up a configuration. -/
theorem ofJson?_object_iff :
    ofJson? (.object members) = some config ↔ Describes members config := by
  obtain ⟨directory, budget⟩ := config
  rw [ofJson?, Option.map_eq_some_iff]
  simp only [addAll?_eq_some_iff]
  constructor
  · rintro ⟨⟨_, _⟩, ⟨hnames, hdirectory, hbudget⟩, heq⟩
    cases heq
    refine ⟨hnames, ?_, ?_⟩
    · rcases hdirectory with ⟨hnil, rfl⟩ | ⟨value, found, hone, -, hread, rfl⟩
      · exact Or.inl ⟨hnil, rfl⟩
      · exact Or.inr ⟨value, hone, directoryOfJson?_eq_some_iff.mp hread⟩
    · rcases hbudget with ⟨hnil, rfl⟩ | ⟨value, found, hone, -, hread, rfl⟩
      · exact Or.inl ⟨hnil, rfl⟩
      · exact Or.inr ⟨value, hone, budgetOfJson?_eq_some_iff.mp hread⟩
  · rintro ⟨hnames, hdirectory, hbudget⟩
    have hplaceDirectory : ∃ place,
        Fills directoryOfJson? none (valuesOf "cache_dir" members) place ∧
          place.getD none = directory := by
      rcases hdirectory with ⟨hnil, rfl⟩ | ⟨value, hone, hvalue⟩
      · exact ⟨none, Or.inl ⟨hnil, rfl⟩, rfl⟩
      · exact ⟨some directory,
          Or.inr ⟨value, directory, hone, rfl, directoryOfJson?_eq_some_iff.mpr hvalue, rfl⟩, rfl⟩
    have hplaceBudget : ∃ place,
        Fills budgetOfJson? none (valuesOf "max_size_bytes" members) place ∧
          place.getD defaultBudget = budget := by
      rcases hbudget with ⟨hnil, rfl⟩ | ⟨value, hone, hvalue⟩
      · exact ⟨none, Or.inl ⟨hnil, rfl⟩, rfl⟩
      · exact ⟨some budget,
          Or.inr ⟨value, budget, hone, rfl, budgetOfJson?_eq_some_iff.mpr hvalue, rfl⟩, rfl⟩
    obtain ⟨placeDirectory, hfillsDirectory, rfl⟩ := hplaceDirectory
    obtain ⟨placeBudget, hfillsBudget, rfl⟩ := hplaceBudget
    exact ⟨⟨placeDirectory, placeBudget⟩, ⟨hnames, hfillsDirectory, hfillsBudget⟩, rfl⟩

/-! ## What matters in an object -/

/-- The members that are not unknown. -/
def knownOf (members : List (Option String × Json)) : List (Option String × Json) :=
  members.filter fun member => !isUnknown member

/-- A number stands for no budget if it has a sign, a point or an exponent, or if it is too great.
Neither does `null`. -/
inductive Unfit : Json → Prop where
  /-- There is no number. -/
  | null : Unfit .null
  /-- There is something else but digits in the number. -/
  | signed {spelling : String} {c : Char} : c ∈ spelling.toList → Json.isDigit c = false →
      Unfit (.number spelling)
  /-- The number has more than 64 bits. -/
  | great {spelling : String} {n : Nat} : Numeral.Spells 10 n spelling.toList → 2 ^ 64 ≤ n →
      Unfit (.number spelling)

/-- A number that is spelled with digits alone has nothing else in it. -/
theorem isDigit_of_spells {n : Nat} {digits : List Char} (h : Numeral.Spells 10 n digits) :
    ∀ c ∈ digits, Json.isDigit c = true := by
  have hall : ∀ value < 10, Json.isDigit (Nat.digitChar value) = true ∧
      Json.isDigit (Nat.digitChar value).toUpper = true := by decide
  obtain ⟨values, -, hvalues, -⟩ := h
  intro c hmem
  obtain ⟨i, hi, rfl⟩ := List.getElem_of_mem hmem
  have hdigit := hvalues.get (hvalues.length_eq ▸ hi) hi
  rcases hdigit.char with hchar | hchar
  · rw [List.get_eq_getElem] at hchar
    rw [hchar]
    exact (hall _ hdigit.lt).1
  · rw [List.get_eq_getElem] at hchar
    rw [hchar]
    exact (hall _ hdigit.lt).2

/-- What is unfit for a budget describes none. -/
theorem Unfit.not_budgetOf (h : Unfit value) : ¬BudgetOf value budget := by
  rintro ⟨hspells⟩
  rcases h with _ | ⟨hmem, hdigit⟩ | ⟨hgreat, hle⟩
  · rw [isDigit_of_spells hspells _ hmem] at hdigit
    cases hdigit
  · have hn := (Numeral.digits?_eq_some_iff (by decide)).mpr hspells
    rw [(Numeral.digits?_eq_some_iff (by decide)).mpr hgreat, Option.some.injEq] at hn
    have := budget.toNat_lt
    omega

/-- Unknown members have no known name. -/
theorem valuesOf_knownOf (hname : name = "cache_dir" ∨ name = "max_size_bytes")
    (members : List (Option String × Json)) :
    valuesOf name (knownOf members) = valuesOf name members := by
  rw [valuesOf, knownOf, List.filter_filter, valuesOf]
  congr 1
  refine List.filter_congr fun member _ => ?_
  obtain ⟨label, value⟩ := member
  by_cases hlabel : label = some name
  · subst hlabel
    rcases hname with rfl | rfl <;> rfl
  · simp [hlabel]

/-- Which place is filled, and with what, does not depend on the order. -/
theorem slot_of_perm {values more : List Json} {missing : Prop} {found : Json → Prop}
    (hperm : values.Perm more)
    (h : values = [] ∧ missing ∨ ∃ value, values = [value] ∧ found value) :
    more = [] ∧ missing ∨ ∃ value, more = [value] ∧ found value := by
  rcases h with ⟨rfl, hmissing⟩ | ⟨value, rfl, hfound⟩
  · exact Or.inl ⟨hperm.nil_eq.symm, hmissing⟩
  · exact Or.inr ⟨value, List.perm_singleton.mp hperm.symm, hfound⟩

/-- What the members make up depends on the known ones alone, and not on their order. -/
theorem Describes.of_perm (hperm : (knownOf members).Perm (knownOf others))
    (h : Describes members config) : Describes others config := by
  have hvalues : ∀ {name}, name = "cache_dir" ∨ name = "max_size_bytes" →
      (valuesOf name members).Perm (valuesOf name others) := by
    intro name hname
    rw [← valuesOf_knownOf hname members, ← valuesOf_knownOf hname others]
    exact (hperm.filter _).map _
  refine ⟨fun member hmem hnone => ?_, slot_of_perm (hvalues (Or.inl rfl)) h.directory,
    slot_of_perm (hvalues (Or.inr rfl)) h.budget⟩
  have hknown : member ∈ knownOf others := by
    obtain ⟨label, value⟩ := member
    cases hnone
    exact List.mem_filter.mpr ⟨hmem, rfl⟩
  exact h.names member (List.mem_filter.mp (hperm.mem_iff.mpr hknown)).1 hnone

/-- A name that is there more than once leaves its place undecided. -/
theorem not_slot_of_two {values : List Json} {missing : Prop} {found : Json → Prop}
    (htwo : 2 ≤ values.length) :
    ¬(values = [] ∧ missing ∨ ∃ value, values = [value] ∧ found value) := by
  rintro (⟨rfl, -⟩ | ⟨value, rfl, -⟩)
  · simp at htwo
  · simp at htwo

/-! ## Texts -/

variable {text trail : String}

/-- A text that spells an object is decoded as this object. -/
theorem decode?_of_spelled (h : Json.Spelled (Json.object members).tokens text.toList) :
    decode? text = ofJson? (.object members) := by
  rw [decode?, Json.read?_eq_some_iff.mpr h, Option.bind_some]

/-- A text that describes no configuration is not decoded. -/
theorem decode?_eq_none (h : Json.Spelled (Json.object members).tokens text.toList)
    (hnone : ∀ config, ¬Describes members config) : decode? text = none := by
  rw [decode?_of_spelled h, Option.eq_none_iff_forall_ne_some]
  exact fun config hconfig => hnone config (ofJson?_object_iff.mp hconfig)

/-- A configuration is written as an object with two members. -/
theorem encode?_eq (directory : Option String) (budget : UInt64) :
    encode? ⟨directory.map Path.ofText, budget⟩ = some (Json.object
      [(some "cache_dir", Json.ofText? directory),
        (some "max_size_bytes", Json.ofNat budget.toNat)]).compact := by
  cases directory with
  | none => rfl
  | some text => simp [encode?, toJson?, Path.ofText, Json.ofMembers]

/-- The members that are written describe the configuration. -/
theorem describes_written (directory : Option String) (budget : UInt64) :
    Describes [(some "cache_dir", Json.ofText? directory),
      (some "max_size_bytes", Json.ofNat budget.toNat)] ⟨directory.map Path.ofText, budget⟩ := by
  refine ⟨by simp, Or.inr ⟨Json.ofText? directory, rfl, ?_⟩, Or.inr ⟨_, rfl, .digits ?_⟩⟩
  · cases directory with
    | none => exact .none
    | some text => exact .text text
  · rw [Nat.toString_eq_repr, Nat.repr, String.toList_ofList]
    exact Numeral.spells_toDigits budget.toNat

/-- The tokens that are written are well spelled. -/
theorem wellSpelled_written (directory : Option String) (budget : UInt64) :
    Json.WellSpelled (Json.object [(some "cache_dir", Json.ofText? directory),
      (some "max_size_bytes", Json.ofNat budget.toNat)]).tokens := by
  intro spelling hmem
  have hspelling : spelling = toString budget.toNat := by
    cases directory <;>
      simpa [Json.tokens, Json.memberTokens, Json.ofText?, Json.ofText, Json.ofNat] using hmem
  rw [hspelling]
  exact Json.isNumber_toString _

/-- A value that stands for a configuration is no number. -/
theorem ne_number_of_ofJson? (h : ofJson? value = some config) (spelling : String) :
    value ≠ .number spelling := by
  rintro rfl
  cases h

/-- Every configuration is read back from its text, if its directory is a text. An object is decoded
if and only if its members make up a configuration, whatever blanks and escapes it is written with:
the order of the members and the unknown ones among them do not matter, what is missing is none or
the default, and a name that is there twice, an unfit budget and anything but blanks behind the
object are refused. -/
theorem texts_exact :
    (∀ (directory : Option String) (budget : UInt64), ∃ text,
      encode? ⟨directory.map Path.ofText, budget⟩ = some text ∧
        decode? text = some ⟨directory.map Path.ofText, budget⟩) ∧
      (∀ (members : List (Option String × Json)) (text : String),
        Json.Spelled (Json.object members).tokens text.toList →
          (∀ config, decode? text = some config ↔ Describes members config) ∧
          (∀ (others : List (Option String × Json)) (other : String),
            Json.Spelled (Json.object others).tokens other.toList →
              (knownOf others).Perm (knownOf members) → decode? other = decode? text) ∧
          (∀ config, decode? text = some config →
            (valuesOf "cache_dir" members = [] → config.directory = none) ∧
              (valuesOf "max_size_bytes" members = [] → config.budget = 4294967296)) ∧
          (2 ≤ (valuesOf "cache_dir" members).length ∨
            2 ≤ (valuesOf "max_size_bytes" members).length ∨
            (∃ value ∈ valuesOf "max_size_bytes" members, Unfit value) → decode? text = none)) ∧
      ∀ (text trail : String) (config : Config), decode? text = some config →
        (∃ c ∈ trail.toList, Json.isBlank c = false) → decode? (text ++ trail) = none := by
  refine ⟨fun directory budget => ?_, fun members text hspelled => ⟨?_, ?_, ?_, ?_⟩, ?_⟩
  · refine ⟨_, encode?_eq directory budget, ?_⟩
    rw [decode?, Json.read?_compact (wellSpelled_written directory budget), Option.bind_some]
    exact ofJson?_object_iff.mpr (describes_written directory budget)
  · intro config
    rw [decode?_of_spelled hspelled, ofJson?_object_iff]
  · intro others other hother hperm
    rw [decode?_of_spelled hspelled, decode?_of_spelled hother]
    refine Option.ext fun config => ?_
    rw [ofJson?_object_iff, ofJson?_object_iff]
    exact ⟨.of_perm hperm, .of_perm hperm.symm⟩
  · intro config hconfig
    rw [decode?_of_spelled hspelled, ofJson?_object_iff] at hconfig
    refine ⟨fun hnil => ?_, fun hnil => ?_⟩
    · obtain ⟨-, h⟩ | ⟨value, hone, -⟩ := hconfig.directory
      · exact h
      · rw [hnil] at hone
        cases hone
    · obtain ⟨-, h⟩ | ⟨value, hone, -⟩ := hconfig.budget
      · exact h
      · rw [hnil] at hone
        cases hone
  · rintro (htwo | htwo | ⟨value, hmem, hunfit⟩) <;> refine decode?_eq_none hspelled ?_
    · exact fun config h => not_slot_of_two htwo h.directory
    · exact fun config h => not_slot_of_two htwo h.budget
    · rintro config h
      obtain ⟨hnil, -⟩ | ⟨only, hone, honly⟩ := h.budget
      · rw [hnil] at hmem
        cases hmem
      · rw [hone, List.mem_singleton] at hmem
        exact hunfit.not_budgetOf (hmem ▸ honly)
  · rintro text trail config hdecode ⟨c, hc, hsolid⟩
    obtain ⟨value, hread, hvalue⟩ := Option.bind_eq_some_iff.mp hdecode
    rw [decode?, Json.read?_append hread (ne_number_of_ofJson? hvalue), if_neg, Option.bind_none]
    intro hblank
    rw [List.all_eq_true.mp hblank c hc] at hsolid
    cases hsolid

/-- An object with blanks, escapes and an unknown member is decoded as the one without them that has
its known members the other way round. A text behind it is refused, and so is the first budget that
takes more than 64 bits. -/
theorem texts_exact_rearranged :
    let path := "a\"😀"
    let members := [(some "cache_dir", Json.string (some path)),
      (some "max_size_bytes", .number "18446744073709551615")]
    let others := [(some "x", Json.array [.object [(some "cache_dir", .number "-1e5")], .null]),
      (some "max_size_bytes", .number "18446744073709551615"),
      (some "cache_dir", .string (some path))]
    let text := "\x7b\"cache_dir\":\"a\\\"😀\",\"max_size_bytes\":18446744073709551615\x7d"
    let other := "\x7b\"x\" : [\x7b\"cache_dir\":-1e5\x7d, null],\n\"max_size_bytes\"" ++
      ":18446744073709551615,\"cach\\u0065_dir\":\"a\\u0022\\uD83D\\uDE00\"\x7d\t"
    let great := "\x7b\"max_size_bytes\":18446744073709551616\x7d"
    let config : Config := ⟨some (Path.ofText path), 18446744073709551615⟩
    Json.Spelled (Json.object members).tokens text.toList ∧
      Json.Spelled (Json.object others).tokens other.toList ∧
      (knownOf others).Perm (knownOf members) ∧ decode? text = some config ∧
      decode? other = decode? text ∧ decode? (text ++ "x") = none ∧ decode? great = none := by
  intro path members others text other great config
  have hspelled : Json.Spelled (Json.object members).tokens text.toList :=
    Json.spelled_of_tokens? (by decide +kernel)
  have hother : Json.Spelled (Json.object others).tokens other.toList :=
    Json.spelled_of_tokens? (by decide +kernel)
  have hgreat : Json.Spelled
      (Json.object [(some "max_size_bytes", .number "18446744073709551616")]).tokens great.toList :=
    Json.spelled_of_tokens? (by decide +kernel)
  have hperm : (knownOf others).Perm (knownOf members) := List.Perm.swap _ _ _
  have hspells : ∀ {n : Nat} {digits : List Char}, Numeral.digits? 10 digits = some n →
      Numeral.Spells 10 n digits := fun h => (Numeral.digits?_eq_some_iff (by decide)).mp h
  have hdecode : decode? text = some config := by
    refine ((texts_exact.2.1 members text hspelled).1 config).mpr
      ⟨by simp [members], Or.inr ⟨_, rfl, .text path⟩, Or.inr ⟨_, rfl, .digits ?_⟩⟩
    exact hspells (by decide +kernel)
  have hunfit : Unfit (.number "18446744073709551616") :=
    .great (hspells (n := 2 ^ 64) (by decide +kernel)) (Nat.le_refl _)
  exact ⟨hspelled, hother, hperm, hdecode,
    (texts_exact.2.1 members text hspelled).2.1 others other hother hperm,
    texts_exact.2.2 text "x" config hdecode ⟨'x', by decide, by decide⟩,
    (texts_exact.2.1 _ great hgreat).2.2.2 (Or.inr (Or.inr ⟨_, List.mem_cons_self, hunfit⟩))⟩

end BlobCache.Config
