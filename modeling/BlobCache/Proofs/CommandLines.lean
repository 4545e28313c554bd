import BlobCache.Cli.Reading
import BlobCache.Proofs.Numerals

/-!
# Command lines

What is asked of a command can be written in one word for each argument (`Argument.word`), in any
order. From such words the reader takes the values that they spell and nothing else
(`readWords_words`).

A `KeyLine` is what can be asked of the command for keys. The words for it, whatever the order of
the arguments, are read as that command with these options (`KeyLine.read_words`).
-/

namespace BlobCache.Cli

/-! ## Words for arguments -/

namespace Argument

/-- The arguments with a name after which reading goes on. -/
def options : List Argument :=
  [.quiet, .verbose, .directory, .budget, .json, .format, .buildFlags, .disableCaching, .profiling,
    .compilerId, .compilerVersion, .opsets, .output]

/-- The word that gives an argument, with its value if it takes one. -/
def word (argument : Argument) (value : Bytes) : Bytes :=
  dash :: dash :: (Utf8.encode (argument.longName?.getD "") ++
    if argument.takesValue then equals :: value else [])

/-- Every option has a name, which is not empty and has no equals sign in it. -/
theorem longName?_options : ∀ argument ∈ options, ∃ name, argument.longName? = some name ∧
    name ≠ "" ∧ equals ∉ Utf8.encode name := by
  have hall : ∀ argument ∈ options, ((argument.longName?.map fun name =>
      name != "" && !(Utf8.encode name).contains equals).getD false) = true := by decide +kernel
  intro argument hmem
  have h := hall argument hmem
  cases hname : argument.longName? with
  | none =>
      rw [hname] at h
      cases h
  | some name =>
      rw [hname] at h
      simpa using h

/-- Options with one name are one option. -/
theorem longName?_inj {a b : Argument} (h : a.longName? = b.longName?) (hb : b ∈ options) :
    a = b := by
  have hall : ∀ b ∈ options, a.longName? = b.longName? → a = b := by cases a <;> decide +kernel
  exact hall b hb h

/-- An argument is found by its name. -/
theorem find?_longName {named : List Argument} {argument : Argument} {name : String}
    (hmem : argument ∈ named) (hoption : argument ∈ options)
    (hname : argument.longName? = some name) :
    named.find? (fun a => a.longName?.map Utf8.encode == some (Utf8.encode name)) =
      some argument := by
  induction named with
  | nil => exact absurd hmem List.not_mem_nil
  | cons first rest ih =>
      by_cases hfirst : first = argument
      · subst hfirst
        rw [List.find?_cons_of_pos (by simp [hname])]
      · rw [List.find?_cons_of_neg, ih ((List.mem_cons.mp hmem).resolve_left (Ne.symm hfirst))]
        intro hfound
        obtain ⟨other, hother, hbytes⟩ := Option.map_eq_some_iff.mp (beq_iff_eq.mp hfound)
        rw [Utf8.encode_injective hbytes, ← hname] at hother
        exact hfirst (longName?_inj hother hoption)

end Argument

/-! ## Reading a word -/

section reading

variable {grammar : Grammar} {p : Progress} {argument : Argument}

namespace Progress

/-- What has been read once the value of an argument is known, too. -/
def noting (p : Progress) (argument : Argument) (value : Value) : Progress :=
  { p with settled := p.settled ++ [(argument, value)] }

/-- The next word is neither a value nor behind the end of the names. -/
structure Ready (p : Progress) : Prop where
  /-- No value is missing or unchecked. -/
  pending : p.pending = none
  /-- Names are not over. -/
  trailing : p.trailing = false

/-- What a value was noted in is as ready as before. -/
theorem Ready.noting (h : p.Ready) (argument : Argument) (value : Value) :
    (p.noting argument value).Ready := ⟨h.pending, h.trailing⟩

/-- What is ready awaits no value. -/
theorem Ready.awaiting (h : p.Ready) : p.awaiting = none := by
  unfold Progress.awaiting
  rw [h.pending]

/-- What is ready has nothing to finish. -/
theorem Ready.finishPending (h : p.Ready) : p.finishPending = .ok p := by
  unfold Progress.finishPending
  rw [h.pending]

/-- A new argument with a fitting value is noted. -/
theorem settle_eq {bytes : Bytes} {value : Value} (hfresh : p.has argument = false)
    (hcheck : argument.check bytes = .ok value) :
    p.settle argument bytes = .ok (p.noting argument value) := by
  unfold settle
  rw [hfresh, hcheck]
  rfl

/-- To give a fitting value to a new argument notes it. -/
theorem Ready.give {bytes : Bytes} {value : Value} (h : p.Ready)
    (hfresh : p.has argument = false) (hcheck : argument.check bytes = .ok value) :
    p.give argument bytes = .ok (p.noting argument value) := by
  unfold Progress.give
  rw [h.finishPending]
  exact settle_eq hfresh hcheck

/-- An argument was given after a value was noted if it was before, or if it is the one noted. -/
theorem has_noting {other : Argument} {value : Value} :
    (p.noting argument value).has other = (p.has other || argument == other) := by
  unfold has noting
  simp

end Progress

/-- A word with two dashes in front is the name of an argument. -/
theorem readWord_long (hready : p.Ready) {word : Bytes} (hne : word ≠ []) :
    readWord grammar p (dash :: dash :: word) = readLong grammar p word := by
  obtain ⟨first, rest, rfl⟩ := List.exists_cons_of_ne_nil hne
  unfold readWord
  simp [hready.trailing, hready.awaiting]

/-- An argument without a value is noted at once. -/
theorem giveFlag_eq {bytes : Bytes} {value : Value} (hready : p.Ready)
    (hoption : argument ∈ Argument.options) (htakes : argument.takesValue = false)
    (hfresh : p.has argument = false) (hcheck : argument.check bytes = .ok value) :
    giveFlag p argument = .ok (.next (p.noting argument value)) := by
  -- the value of such an argument does not depend on any bytes
  have hcheck' : argument.check [] = .ok value := by
    rw [← hcheck]
    revert htakes
    cases argument <;> intro htakes <;> first | rfl | cases htakes
  unfold giveFlag
  rw [hready.give hfresh hcheck']
  revert hoption
  cases argument <;> intro hoption <;> first | rfl | (exact absurd hoption (by decide))

/-- The word for an argument gives it the value that is spelled there. -/
theorem readWord_word {bytes : Bytes} {value : Value} (hready : p.Ready)
    (hmem : argument ∈ grammar.named) (hoption : argument ∈ Argument.options)
    (hfresh : p.has argument = false) (hcheck : argument.check bytes = .ok value) :
    readWord grammar p (argument.word bytes) = .ok (.next (p.noting argument value)) := by
  obtain ⟨name, hname, hne, hequals⟩ := Argument.longName?_options argument hoption
  have hbytes : Utf8.encode name ≠ [] := fun h =>
    hne (Utf8.encode_injective (h.trans (by decide +kernel : [] = Utf8.encode "")))
  have hother : ∀ b ∈ Utf8.encode name, (b != equals) = true := fun b hb =>
    bne_iff_ne.mpr fun h => hequals (h ▸ hb)
  have hfind := Argument.find?_longName hmem hoption hname
  unfold Argument.word
  rw [hname, Option.getD_some, readWord_long hready (by simp [hbytes])]
  unfold readLong
  cases htakes : argument.takesValue with
  | true =>
      simp only [if_true, List.takeWhile_append_of_pos hother,
        List.dropWhile_append_of_pos hother]
      simp [hfind, htakes, hready.give hfresh hcheck]
  | false =>
      simp only [Bool.false_eq_true, if_false, List.append_nil,
        List.takeWhile_eq_self_iff.mpr hother, List.dropWhile_eq_nil_iff.mpr hother]
      simp [hfind, htakes, giveFlag_eq hready hoption htakes hfresh hcheck]

/-! ## Reading the words of a command -/

/-- What is written for an argument is its value; where nothing is written it has none. -/
def Argument.Spells (argument : Argument) : Option Bytes → Option Value → Prop :=
  Option.Rel fun bytes value => argument.check bytes = .ok value

/-- The spelling of an optional value spells it, if the argument takes it for this value. -/
theorem Argument.spells_map {α : Type} {given : Option α} {spell : α → Bytes} {value : α → Value}
    (h : ∀ a, given = some a → argument.check (spell a) = .ok (value a)) :
    argument.Spells (given.map spell) (given.map value) := by
  cases given with
  | none => exact .none
  | some a => exact .some (h a rfl)

/-- A flag that is set is spelled by itself, and one that is not by nothing. -/
theorem Argument.spells_flag (h : argument.check [] = .ok .present) (flag : Bool) :
    argument.Spells (if flag then some [] else none) (if flag then some .present else none) := by
  cases flag
  · exact .none
  · exact .some h

/-- The words that give arguments, in some order, what is said of them. -/
def wordsOf (order : List Argument) (bytes? : Argument → Option Bytes) : List Bytes :=
  order.filterMap fun argument => (bytes? argument).map argument.word

/-- The values of arguments, in some order. -/
def valuesOf (order : List Argument) (value? : Argument → Option Value) :
    List (Argument × Value) :=
  order.filterMap fun argument => (value? argument).map (argument, ·)

variable {order : List Argument} {bytes? : Argument → Option Bytes}
  {value? : Argument → Option Value}

/-- Values given in some order are found whatever the order is. -/
theorem lookup_valuesOf (order : List Argument) (value? : Argument → Option Value)
    (argument : Argument) :
    (valuesOf order value?).lookup argument =
      if argument ∈ order then value? argument else none := by
  unfold valuesOf
  induction order with
  | nil => rfl
  | cons first rest ih =>
      rw [List.filterMap_cons]
      cases hvalue : value? first with
      | none =>
          rw [Option.map_none, ih]
          by_cases hfirst : argument = first
          · simp [hfirst, hvalue]
          · simp [hfirst]
      | some value =>
          rw [Option.map_some, List.lookup_cons]
          by_cases hfirst : argument = first
          · simp [hfirst, hvalue]
          · have hbeq : (argument == first) = false := by simpa using hfirst
            rw [hbeq, ih]
            simp [hfirst]

/-- Only arguments of the order have values in it. -/
theorem fst_mem_of_mem_valuesOf {row : Argument × Value} (h : row ∈ valuesOf order value?) :
    row.1 ∈ order := by
  obtain ⟨argument, hmem, hrow⟩ := List.mem_filterMap.mp h
  obtain ⟨value, -, rfl⟩ := Option.map_eq_some_iff.mp hrow
  exact hmem

/-- Words for different arguments are read as the values that they spell. -/
theorem readWords_words (hready : p.Ready) (hnodup : order.Nodup)
    (hnamed : ∀ argument ∈ order, argument ∈ grammar.named ∧ argument ∈ Argument.options)
    (hfresh : ∀ argument ∈ order, p.has argument = false)
    (hspelled : ∀ argument ∈ order, argument.Spells (bytes? argument) (value? argument))
    (rest : List Bytes) :
    readWords grammar p (wordsOf order bytes? ++ rest) =
      readWords grammar { p with settled := p.settled ++ valuesOf order value? } rest := by
  induction order generalizing p with
  | nil => simp [wordsOf, valuesOf]
  | cons first others ih =>
      obtain ⟨hnot, hnodup'⟩ := List.nodup_cons.mp hnodup
      obtain ⟨hfirst, hothers⟩ := List.forall_mem_cons.mp hspelled
      obtain ⟨hmem, hnamed'⟩ := List.forall_mem_cons.mp hnamed
      obtain ⟨hnew, hfresh'⟩ := List.forall_mem_cons.mp hfresh
      unfold wordsOf valuesOf
      rw [List.filterMap_cons, List.filterMap_cons]
      generalize bytes? first = given, value? first = taken at hfirst
      cases hfirst with
      | none => exact ih hready hnodup' hnamed' hfresh' hothers
      | @some bytes value hcheck =>
          -- the first argument is noted, and the others are still to be given
          have hstep := readWord_word hready hmem.1 hmem.2 hnew hcheck
          have hrest := ih (hready.noting first value) hnodup' hnamed' (fun other hother => by
            rw [Progress.has_noting, hfresh' other hother]
            simpa using fun h : first = other => hnot (h ▸ hother)) hothers
          unfold wordsOf valuesOf at hrest
          rw [Option.map_some, Option.map_some, List.cons_append, readWords, hstep]
          refine hrest.trans ?_
          simp [Progress.noting]

/-- The word after which names are over. -/
def lastWord : Bytes := [dash, dash]

/-- A word after the end of the names is what the command works on. -/
theorem readWords_operand {bytes : Bytes} {value : Value} (hready : p.Ready)
    (hposition : grammar.positional[p.position]? = some argument)
    (hfresh : p.has argument = false) (hcheck : argument.check bytes = .ok value) :
    readWords grammar p [lastWord, bytes] =
      .ok (.next { p with
        settled := p.settled ++ [(argument, value)]
        trailing := true
        position := p.position + 1 }) := by
  have hlast : readWord grammar p lastWord = .ok (.next { p with trailing := true }) := by
    unfold readWord lastWord
    simp [hready.trailing, hready.awaiting]
  have hoperand : readWord grammar { p with trailing := true } bytes =
      .ok (.next { p with
        trailing := true, pending := some (argument, some bytes)
        position := p.position + 1 }) := by
    unfold readWord Progress.place Progress.finishPending
    simp [hready.pending, hposition]
  have hfinished : Progress.finishPending
      ⟨p.settled, some (argument, some bytes), p.position + 1, true⟩ =
        .ok ⟨p.settled ++ [(argument, value)], none, p.position + 1, true⟩ :=
    Progress.settle_eq (p := ⟨p.settled, none, p.position + 1, true⟩) hfresh hcheck
  rw [readWords, hlast]
  show readWords grammar ⟨p.settled, p.pending, p.position, true⟩ [bytes] = _
  rw [readWords, hoperand]
  show readWords grammar ⟨p.settled, some (argument, some bytes), p.position + 1, true⟩ [] = _
  rw [readWords, hfinished, hready.pending]
  rfl

/-- What is read after a command counts for it, and what is read before it holds as well. -/
theorem readCommand_eq {before before' after : Progress} {name : CommandName} {words : List Bytes}
    {command : Command} (hwords : readWords name.grammar .start words = .ok (.next after))
    (hcommand : (⟨after.settled⟩ : Given).command? name = some command)
    (hbefore : before.finishPending = .ok before') :
    readCommand before name words =
      .ok (.run (⟨after.settled ++ before'.settled⟩ : Given).globals command) := by
  unfold readCommand
  simp only [hwords, bind, Except.bind, hcommand, hbefore]
  rfl

end reading

/-! ## The values of words -/

namespace Argument

/-- A printed version number is read back. -/
theorem versionNumber?_toString (n : UInt32) : versionNumber? (toString n.toNat) = some n := by
  unfold versionNumber?
  split
  · rename_i digits htext
    rw [Numeral.toList_toString] at htext
    exact absurd (htext ▸ Numeral.spells_toDigits n.toNat)
      (Numeral.not_spells_cons (by decide) digits)
  · exact Numeral.word32?_toString n

/-- The version of a compiler is read back. -/
theorem check_compilerVersion (n : UInt32) :
    compilerVersion.check (Utf8.encode (toString n.toNat)) = .ok (.word32 n) := by
  unfold check
  rw [Utf8.decode?_encode]
  show (Value.word32 <$> (versionNumber? (toString n.toNat)).elim (.error .plain) .ok :
    Except UsageError Value) = _
  rw [versionNumber?_toString]
  rfl

/-- A number of operation sets is read back. -/
theorem check_opsets (n : UInt64) :
    opsets.check (Utf8.encode (toString n.toNat)) = .ok (.word64 n) := by
  unfold check
  rw [Utf8.decode?_encode]
  show (Value.word64 <$> (Numeral.word64? (toString n.toNat)).elim (.error .plain) .ok :
    Except UsageError Value) = _
  rw [Numeral.word64?_toString]
  rfl

/-- The name of a format is taken for this format. -/
theorem check_format {text : String} {known : Format} (h : Format.ofText text = .ok known) :
    format.check (Utf8.encode text) = .ok (.format known) := by
  simp only [check, Utf8.decode?_encode, Option.elim_some, bind, Except.bind, h]
  rfl

/-- A path that is not empty is taken as it is. -/
theorem check_inputFile {path : Path} (h : path ≠ []) :
    inputFile.check path = .ok (.path path) := by
  simp [check, h]

end Argument

namespace Given

variable {given : Given} {argument : Argument}

/-- A text that was given is found. -/
theorem text?_eq {text : Option String} (h : given.get? argument = text.map .text) :
    given.text? argument = text := by
  unfold text?
  rw [h]
  cases text <;> rfl

/-- So is a word of 32 bits. -/
theorem word32?_eq {n : Option UInt32} (h : given.get? argument = n.map .word32) :
    given.word32? argument = n := by
  unfold word32?
  rw [h]
  cases n <;> rfl

/-- So is a word of 64 bits. -/
theorem word64?_eq {n : Option UInt64} (h : given.get? argument = n.map .word64) :
    given.word64? argument = n := by
  unfold word64?
  rw [h]
  cases n <;> rfl

/-- So is a flag. -/
theorem has_eq {flag : Bool} (h : given.get? argument = if flag then some .present else none) :
    given.has argument = flag := by
  unfold has
  rw [h]
  cases flag <;> rfl

end Given

/-! ## The command for keys -/

/-- What can be asked of the command for keys. -/
structure KeyLine where
  /-- The file with the graph. -/
  input : Path
  /-- A text for the encoding of the graph. -/
  format : Option String
  /-- Options for the compiler. -/
  buildFlags : Option String
  /-- Whether the flag to leave the cache alone is set. -/
  disableCaching : Bool
  /-- Whether the flag to compile for profiling is set. -/
  profiling : Bool
  /-- The name of the compiler. -/
  compilerId : Option String
  /-- The version of the compiler. -/
  compilerVersion : Option UInt32
  /-- The operation sets of the compiler. -/
  opsets : Option UInt64
  /-- Whether to report for programs. -/
  json : Bool

namespace KeyLine

/-- The arguments of the command that have names of their own. -/
def arguments : List Argument :=
  [.format, .buildFlags, .disableCaching, .profiling, .compilerId, .compilerVersion, .opsets,
    .json]

/-- What is written for an argument, if it is given. -/
def bytes? (line : KeyLine) : Argument → Option Bytes
  | .format => line.format.map Utf8.encode
  | .buildFlags => line.buildFlags.map Utf8.encode
  | .disableCaching => if line.disableCaching then some [] else none
  | .profiling => if line.profiling then some [] else none
  | .compilerId => line.compilerId.map Utf8.encode
  | .compilerVersion => line.compilerVersion.map fun n => Utf8.encode (toString n.toNat)
  | .opsets => line.opsets.map fun n => Utf8.encode (toString n.toNat)
  | .json => if line.json then some [] else none
  | _ => none

/-- The words of the line, with the arguments in some order. -/
def words (line : KeyLine) (order : List Argument) : List Bytes :=
  Utf8.encode "key" :: (wordsOf order line.bytes? ++ [lastWord, line.input])

/-- The encoding that the line names; if it names none, the graph is in an intermediate form. -/
def Names (line : KeyLine) (format : Format) : Prop :=
  Format.ofText (line.format.getD "intermediate") = .ok format

/-- The options that the line stands for. -/
def options (line : KeyLine) (format : Format) : KeyOptions where
  input := line.input
  format := format
  buildFlags := line.buildFlags
  disableCaching := line.disableCaching
  profiling := line.profiling
  compilerId := line.compilerId
  compilerVersion := line.compilerVersion.getD 0
  opsets := line.opsets.getD 0

/-- The value of an argument, where the encoding is known. -/
def value? (line : KeyLine) (format : Format) : Argument → Option Value
  | .format => line.format.map fun _ => .format format
  | .buildFlags => line.buildFlags.map .text
  | .disableCaching => if line.disableCaching then some .present else none
  | .profiling => if line.profiling then some .present else none
  | .compilerId => line.compilerId.map .text
  | .compilerVersion => line.compilerVersion.map .word32
  | .opsets => line.opsets.map .word64
  | .json => if line.json then some .present else none
  | _ => none

variable {line : KeyLine} {format : Format} {order : List Argument}

/-- What is written for an argument spells its value. -/
theorem spelled (h : line.Names format) (argument : Argument) :
    argument.Spells (line.bytes? argument) (line.value? format argument) := by
  cases argument
  case format =>
    refine Argument.spells_map fun text htext => Argument.check_format ?_
    rw [Names, htext] at h
    exact h
  case buildFlags => exact Argument.spells_map fun text _ => by simp [Argument.check]
  case compilerId => exact Argument.spells_map fun text _ => by simp [Argument.check]
  case compilerVersion =>
    exact Argument.spells_map fun n _ => Argument.check_compilerVersion n
  case opsets => exact Argument.spells_map fun n _ => Argument.check_opsets n
  case disableCaching => exact Argument.spells_flag rfl line.disableCaching
  case profiling => exact Argument.spells_flag rfl line.profiling
  case json => exact Argument.spells_flag rfl line.json
  all_goals exact .none

/-- The values of the line with what the command works on. -/
def given (line : KeyLine) (format : Format) (order : List Argument) : Given :=
  ⟨valuesOf order (line.value? format) ++ [(.inputFile, .path line.input)]⟩

/-- A line gives values to the arguments of a key only. -/
theorem value?_eq_none {argument : Argument} (h : argument ∉ arguments) :
    line.value? format argument = none := by
  revert h
  cases argument <;> intro h <;> first | rfl | exact absurd (by decide) h

/-- The order of the arguments does not matter. -/
theorem lookup_values (horder : order.Perm arguments) (argument : Argument) :
    (valuesOf order (line.value? format)).lookup argument = line.value? format argument := by
  rw [lookup_valuesOf]
  split
  · rfl
  · rename_i hnot
    exact (value?_eq_none fun h => hnot (horder.mem_iff.mpr h)).symm

/-- Whatever the order is, an option has the value that the line gives it. -/
theorem get?_given (horder : order.Perm arguments) {argument : Argument}
    (hne : argument ≠ .inputFile) :
    (line.given format order).get? argument = line.value? format argument := by
  have hother : [(Argument.inputFile, Value.path line.input)].lookup argument = none := by
    simp [hne]
  unfold Given.get? given
  rw [List.lookup_append, lookup_values horder, hother, Option.or_none]

/-- Whatever the order is, the input file is that of the line. -/
theorem get?_given_inputFile (horder : order.Perm arguments) :
    (line.given format order).get? .inputFile = some (.path line.input) := by
  unfold Given.get? given
  rw [List.lookup_append, lookup_values horder]
  rfl

/-- The values of the line are those of its options. -/
theorem keyOptions?_given (hnames : line.Names format) (horder : order.Perm arguments) :
    (line.given format order).keyOptions? = some (line.options format) := by
  have hget : ∀ {argument : Argument}, argument ≠ .inputFile →
      (line.given format order).get? argument = line.value? format argument := get?_given horder
  have hinput : (line.given format order).path? .inputFile = some line.input := by
    unfold Given.path?
    rw [get?_given_inputFile horder]
  have hformat : ((line.given format order).format? .format).getD .intermediate = format := by
    unfold Given.format?
    rw [hget (by decide), value?]
    unfold Names at hnames
    cases hline : line.format with
    | none =>
        rw [hline] at hnames
        exact Except.ok.inj hnames
    | some text => rfl
  have hbuildFlags : (line.given format order).text? .buildFlags = line.buildFlags :=
    Given.text?_eq (hget (by decide))
  have hcompilerId : (line.given format order).text? .compilerId = line.compilerId :=
    Given.text?_eq (hget (by decide))
  have hversion : (line.given format order).word32? .compilerVersion = line.compilerVersion :=
    Given.word32?_eq (hget (by decide))
  have hopsets : (line.given format order).word64? .opsets = line.opsets :=
    Given.word64?_eq (hget (by decide))
  have hcaching : (line.given format order).has .disableCaching = line.disableCaching :=
    Given.has_eq (hget (by decide))
  have hprofiling : (line.given format order).has .profiling = line.profiling :=
    Given.has_eq (hget (by decide))
  unfold Given.keyOptions?
  rw [hinput, hformat, hbuildFlags, hcompilerId, hversion, hopsets, hcaching, hprofiling]
  rfl

/-- Nothing is said for every command. -/
theorem globals_given (horder : order.Perm arguments) :
    (line.given format order).globals = ⟨false, false, none, none⟩ := by
  unfold Given.globals Given.has Given.path? Given.word64?
  rw [get?_given horder (by decide), get?_given horder (by decide), get?_given horder (by decide),
    get?_given horder (by decide)]
  rfl

/-- Words for the arguments in any order are read as the command with the options of the line. -/
theorem read_words (hnames : line.Names format) (hinput : line.input ≠ [])
    (horder : order.Perm arguments) :
    read (line.words order) = .ok (.run ⟨false, false, none, none⟩
      (.key (line.options format) line.json)) := by
  have hnamed : ∀ argument ∈ order, argument ∈ CommandName.key.grammar.named ∧
      argument ∈ Argument.options := by
    have hall : ∀ argument ∈ arguments, argument ∈ CommandName.key.grammar.named ∧
        argument ∈ Argument.options := by decide
    exact fun argument h => hall argument (horder.mem_iff.mp h)
  have hwords : readWords CommandName.key.grammar .start
      (wordsOf order line.bytes? ++ [lastWord, line.input]) =
        readWords CommandName.key.grammar
          ⟨valuesOf order (line.value? format), none, 0, false⟩ [lastWord, line.input] :=
    readWords_words ⟨rfl, rfl⟩ (horder.nodup_iff.mpr (by decide)) hnamed (fun _ _ => rfl)
      (fun argument _ => spelled hnames argument) _
  have hfresh : Progress.has ⟨valuesOf order (line.value? format), none, 0, false⟩
      .inputFile = false := by
    unfold Progress.has
    rw [List.any_eq_false]
    intro row hrow
    have hmem := horder.mem_iff.mp (fst_mem_of_mem_valuesOf hrow)
    rw [beq_iff_eq]
    intro h
    rw [h] at hmem
    exact absurd hmem (by decide)
  have hoperand : readWords CommandName.key.grammar
      ⟨valuesOf order (line.value? format), none, 0, false⟩ [lastWord, line.input] =
        .ok (.next ⟨(line.given format order).values, none, 1, true⟩) :=
    readWords_operand ⟨rfl, rfl⟩ rfl hfresh (Argument.check_inputFile hinput)
  have hcommand : (line.given format order).command? .key =
      some (.key (line.options format) line.json) := by
    have hjson : (line.given format order).has .json = line.json :=
      Given.has_eq (get?_given horder (by decide))
    rw [Given.command?, keyOptions?_given hnames horder, hjson]
    rfl
  have hword : CommandName.ofWord? (Utf8.encode "key") = some .key := by decide +kernel
  unfold words read readTop
  simp only [hword]
  show readCommand .start .key _ = _
  rw [readCommand_eq (hwords.trans hoperand) hcommand rfl, Progress.start, List.append_nil]
  exact congrArg (fun globals => Except.ok (Invocation.run globals _)) (globals_given horder)

end KeyLine

end BlobCache.Cli
