import BlobCache.Error

/-!
# Environments

What a process is given besides its arguments: variables, whose values are byte strings, and a
working directory, which may be missing.
-/

namespace BlobCache

/-- The surroundings that a configuration is taken from. -/
structure Environment where
  /-- The variables that are set, with their values. -/
  bindings : List (String × Bytes)
  /-- The working directory, or why there is none. -/
  workingDirectory : Except Cause Path

namespace Environment

/-- The value of a variable, if it is set. -/
def get? (env : Environment) (name : String) : Option Bytes := env.bindings.lookup name

/-- The value of a variable, if it is set and not empty. -/
def nonempty? (env : Environment) (name : String) : Option Bytes :=
  (env.get? name).filter fun value => !value.isEmpty

/-- The environment with a variable set. -/
def set (env : Environment) (name : String) (value : Bytes) : Environment :=
  { env with bindings := (name, value) :: env.bindings.filter fun row => row.1 != name }

end Environment

end BlobCache
