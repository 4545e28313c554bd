import BlobCache.Config.Basic
import BlobCache.Json.Reader
import BlobCache.Json.Writer

/-!
# Configurations as JSON

A configuration is written as an object with the members `cache_dir` and `max_size_bytes`. A reader
takes them in any order, skips members it does not know, and lets each be missing: without a
directory there is no cache, and without a budget the default holds. A known member may not be
repeated. An array of the directory, or of the directory and the budget, is read too.
-/

namespace BlobCache.Config

/-! ## Writing -/

/-- The value of a configuration; a directory that is not UTF-8 has none. -/
def toJson? (config : Config) : Option Json := do
  let directory ← match config.directory with
    | none => some none
    | some path => (Utf8.decode? path).map some
  return .ofMembers
    [("cache_dir", .ofText? directory), ("max_size_bytes", .ofNat config.budget.toNat)]

/-- The text of a configuration. -/
def encode? (config : Config) : Option String := config.toJson?.map Json.compact

/-! ## Reading -/

/-- The directory that a value stands for. -/
def directoryOfJson? : Json → Option (Option Path)
  | .null => some none
  | .string (some text) => some (some (Path.ofText text))
  | _ => none

/-- The budget that a value stands for. -/
def budgetOfJson? (value : Json) : Option UInt64 :=
  (value.nat?.filter (· < Numeral.limit64)).map UInt64.ofNat

/-- The members of a configuration that have been read. -/
structure Members where
  /-- The directory, once it has been read. -/
  directory : Option (Option Path)
  /-- The budget, once it has been read. -/
  budget : Option UInt64

/-- Takes in one member. -/
def Members.add? (read : Members) (name : Option String) (value : Json) : Option Members := do
  let name ← name
  if name = "cache_dir" then
    if read.directory.isSome then none
    return { read with directory := some (← directoryOfJson? value) }
  else if name = "max_size_bytes" then
    if read.budget.isSome then none
    return { read with budget := some (← budgetOfJson? value) }
  else return read

/-- Takes in members in order. -/
def Members.addAll? (read : Members) : List (Option String × Json) → Option Members
  | [] => some read
  | (name, value) :: rest => do (← read.add? name value).addAll? rest

/-- The configuration that the members amount to. -/
def Members.toConfig (read : Members) : Config :=
  ⟨read.directory.getD none, read.budget.getD defaultBudget⟩

/-- The configuration that a value stands for. -/
def ofJson? : Json → Option Config
  | .object members => ((⟨none, none⟩ : Members).addAll? members).map Members.toConfig
  | .array [directory] => do return ⟨← directoryOfJson? directory, defaultBudget⟩
  | .array [directory, budget] => do
    return ⟨← directoryOfJson? directory, ← budgetOfJson? budget⟩
  | _ => none

/-- The configuration that a text stands for. -/
def decode? (text : String) : Option Config := (Json.read? text).bind ofJson?

end BlobCache.Config
