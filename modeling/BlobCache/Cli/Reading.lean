import BlobCache.Cli.Options

/-!
# Reading a command line

Words are read from left to right. `--name` and `-n` give an argument; its value follows after an
equals sign (`--name=value`, `-n=value`), at once (`-nvalue`) or as the next word, and letters for
arguments without a value can share a dash. After the word `--` nothing is a name any more. A word
that is no argument and no value is a command, or after the command its next positional argument.

* An argument is given at most once before the command and once after it; what is given after the
  command counts.
* The value that stands as a word of its own is checked only when the next argument begins or the
  words are at an end, so an unknown name in between is found first.
* What is missing is found last.
-/

namespace BlobCache.Cli

/-! ## Progress -/

/-- What has been read at one place of a command line. -/
structure Progress where
  /-- The arguments with their values, oldest first. -/
  settled : List (Argument × Value)
  /-- An argument whose value has not been checked, or not even been given. -/
  pending : Option (Argument × Option Bytes)
  /-- How many positional arguments have begun. -/
  position : Nat
  /-- Whether names are over. -/
  trailing : Bool

namespace Progress

/-- Nothing has been read. -/
def start : Progress := ⟨[], none, 0, false⟩

/-- The argument that waits for the next word as its value. -/
def awaiting (p : Progress) : Option Argument :=
  match p.pending with
  | some (argument, none) => some argument
  | _ => none

/-- Whether an argument has been given. -/
def has (p : Progress) (argument : Argument) : Bool :=
  p.settled.any fun row => row.1 == argument

/-- Checks a value and notes it. -/
def settle (p : Progress) (argument : Argument) (value : Bytes) : Except UsageError Progress := do
  if p.has argument then throw .plain
  return { p with settled := p.settled ++ [(argument, ← argument.check value)] }

/-- Checks the value that is pending. -/
def finishPending (p : Progress) : Except UsageError Progress :=
  match p.pending with
  | none => .ok p
  | some (_, none) => .error .plain
  | some (argument, some value) => { p with pending := none }.settle argument value

/-- Notes an argument whose value, if it takes one, is known. -/
def give (p : Progress) (argument : Argument) (value : Bytes) : Except UsageError Progress := do
  (← p.finishPending).settle argument value

/-- Begins an argument that takes the next word as its value. -/
def begin (p : Progress) (argument : Argument) : Except UsageError Progress := do
  return { ← p.finishPending with pending := some (argument, none) }

/-- Begins the next positional argument. -/
def place (p : Progress) (grammar : Grammar) (word : Bytes) : Except UsageError Progress :=
  match grammar.positional[p.position]? with
  | none => .error .plain
  | some argument => do
    return { ← p.finishPending with
      pending := some (argument, some word), position := p.position + 1 }

end Progress

/-! ## Words -/

/-- What a word leads to. -/
inductive Step where
  /-- Reading goes on. -/
  | next (p : Progress)
  /-- The word asks for help or for the version, whatever follows. -/
  | stop (invocation : Invocation)

/-- The byte of a dash. -/
def dash : UInt8 := 0x2D

/-- The byte of an equals sign. -/
def equals : UInt8 := 0x3D

/-- The word that asks for help in place of a command. -/
def helpWord : Bytes := Utf8.encode "help"

/-- Notes an argument without a value. -/
def giveFlag (p : Progress) (argument : Argument) : Except UsageError Step := do
  let p ← p.give argument []
  match argument with
  | .help => return .stop .help
  | .version => return .stop .version
  | _ => return .next p

/-- Reads a word after its two dashes. -/
def readLong (grammar : Grammar) (p : Progress) (word : Bytes) : Except UsageError Step := do
  let name := word.takeWhile (· != equals)
  let value? := (word.dropWhile (· != equals)).tail?
  match grammar.named.find? fun a => a.longName?.map Utf8.encode == some name with
  | none => throw .plain
  | some argument =>
    match argument.takesValue, value? with
    | true, some value => return .next (← p.give argument value)
    | true, none => return .next (← p.begin argument)
    | false, some _ => throw .plain
    | false, none => giveFlag p argument

/-- Reads the letters of a word after its dash. -/
def readShort (grammar : Grammar) : Progress → Bytes → Except UsageError Step
  | p, [] => .ok (.next p)
  | p, letter :: rest => do
    match grammar.named.find? fun a => a.shortName?.map (fun c => [c.toUInt8]) == some [letter] with
    | none => throw .plain
    | some argument =>
      if argument.takesValue then
        match rest with
        | [] => return .next (← p.begin argument)
        | first :: others =>
          return .next (← p.give argument (if first == equals then others else rest))
      else
        match ← giveFlag p argument with
        | .next p => readShort grammar p rest
        | stop => return stop

/-- Reads a word. -/
def readWord (grammar : Grammar) (p : Progress) (word : Bytes) : Except UsageError Step :=
  let plainWord : Except UsageError Step := do
    match p.trailing, p.awaiting with
    | false, some argument => return .next { p with pending := some (argument, some word) }
    | _, _ => return .next (← p.place grammar word)
  if p.trailing || (p.awaiting.map Argument.allowsDash).getD false then plainWord
  else match word with
    | [a, b] =>
      if a == dash && b == dash then .ok (.next { p with trailing := true })
      else if a == dash then readShort grammar p [b]
      else plainWord
    | a :: b :: rest =>
      if a == dash && b == dash then readLong grammar p rest
      else if a == dash then readShort grammar p (b :: rest)
      else plainWord
    | _ => plainWord

/-! ## Whole lines -/

/-- Reads the words after a command. -/
def readWords (grammar : Grammar) (p : Progress) : List Bytes → Except UsageError Step
  | [] => return .next (← p.finishPending)
  | word :: rest => do
    match ← readWord grammar p word with
    | .next p => readWords grammar p rest
    | stop => return stop

/-- The values of the arguments that were given. -/
structure Given where
  /-- The arguments with their values. -/
  values : List (Argument × Value)

namespace Given

/-- The value of an argument. -/
def get? (given : Given) (argument : Argument) : Option Value := given.values.lookup argument

/-- Whether an argument was given. -/
def has (given : Given) (argument : Argument) : Bool := (given.get? argument).isSome

/-- The path of an argument. -/
def path? (given : Given) (argument : Argument) : Option Path :=
  match given.get? argument with
  | some (.path path) => some path
  | _ => none

/-- The text of an argument. -/
def text? (given : Given) (argument : Argument) : Option String :=
  match given.get? argument with
  | some (.text text) => some text
  | _ => none

/-- The 32-bit number of an argument. -/
def word32? (given : Given) (argument : Argument) : Option UInt32 :=
  match given.get? argument with
  | some (.word32 n) => some n
  | _ => none

/-- The 64-bit number of an argument. -/
def word64? (given : Given) (argument : Argument) : Option UInt64 :=
  match given.get? argument with
  | some (.word64 n) => some n
  | _ => none

/-- The encoding that an argument names. -/
def format? (given : Given) (argument : Argument) : Option Format :=
  match given.get? argument with
  | some (.format format) => some format
  | _ => none

/-- The inputs of a key. -/
def keyOptions? (given : Given) : Option KeyOptions := do
  return {
    input := ← given.path? .inputFile
    format := (given.format? .format).getD .intermediate
    buildFlags := given.text? .buildFlags
    disableCaching := given.has .disableCaching
    profiling := given.has .profiling
    compilerId := given.text? .compilerId
    compilerVersion := (given.word32? .compilerVersion).getD 0
    opsets := (given.word64? .opsets).getD 0 }

/-- The command of a name, unless a positional argument is missing. -/
def command? (given : Given) : CommandName → Option Command
  | .info => some (.info (given.has .json))
  | .list => some (.list (given.has .json))
  | .verify => some (.verify (given.has .json))
  | .trim => some .trim
  | .clear => some .clear
  | .key => given.keyOptions?.map (Command.key · (given.has .json))
  | .get => (given.text? .entryKey).map (Command.get · (given.path? .output))
  | .put => do
    return .put (← given.text? .entryKey) (← given.path? .blobFile) (given.has .json)

/-- What holds for every command. -/
def globals (given : Given) : Globals where
  quiet := given.has .quiet
  verbose := given.has .verbose
  directory := given.path? .directory
  budget := given.word64? .budget

end Given

/-- Reads the words after a command, where `before` is what was read in front of it. -/
def readCommand (before : Progress) (name : CommandName) (words : List Bytes) :
    Except UsageError Invocation := do
  match ← readWords name.grammar .start words with
  | .stop invocation => return invocation
  | .next after =>
    match (⟨after.settled⟩ : Given).command? name with
    | none => throw .plain
    | some command =>
      let before ← before.finishPending
      return .run (⟨after.settled ++ before.settled⟩ : Given).globals command

/-- Reads the words after `help`: at most one, which names what help is wanted for. -/
def readHelp : List Bytes → Except UsageError Invocation
  | [] => .ok .help
  | [word] =>
    if word == helpWord || (CommandName.ofWord? word).isSome then .ok .help else .error .plain
  | _ => .error .plain

/-- Reads the words before a command, and the command with its words. -/
def readTop (p : Progress) : List Bytes → Except UsageError Invocation
  | [] => do
    let _ ← p.finishPending
    throw .plain
  | word :: rest => do
    let command? :=
      if p.trailing || p.awaiting.isSome then none else CommandName.ofWord? word
    match command? with
    | some name => readCommand p name rest
    | none =>
      if !p.trailing && p.awaiting.isNone && word == helpWord then readHelp rest
      else
        match ← readWord topGrammar p word with
        | .stop invocation => return invocation
        | .next p => readTop p rest

/-- Reads a command line. -/
def read (words : List Bytes) : Except UsageError Invocation := readTop .start words

end BlobCache.Cli
