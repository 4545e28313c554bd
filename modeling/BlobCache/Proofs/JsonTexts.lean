import BlobCache.Json.Reader
import BlobCache.Json.Writer
import BlobCache.Proofs.JsonTokens
import Mathlib.Data.List.Chain

/-!
# The texts of JSON values

A value has one sequence of tokens (`Json.tokens`), and a text stands for the value if it spells
this sequence. The reader knows exactly these texts (`Json.read?_eq_some_iff`), whatever blanks and
escapes they are written with. Nothing but blanks may follow (`Json.read?_append`).

Both writers spell the value that they are given, so it is read back (`Json.read?_compact`,
`Json.read?_pretty`), provided that its numbers are numbers (`Json.WellSpelled`).
-/

namespace BlobCache.Json

/-! ## The tokens of a value -/

mutual

/-- The tokens of a value. -/
def tokens : Json → List Token
  | .null => [.null]
  | .bool value => [.bool value]
  | .number spelling => [.number spelling]
  | .string text => [.string text]
  | .array items => .openArray :: (itemTokens items ++ [.closeArray])
  | .object members => .openObject :: (memberTokens members ++ [.closeObject])

/-- The tokens of items with commas between them. -/
def itemTokens : List Json → List Token
  | [] => []
  | [item] => tokens item
  | item :: rest => tokens item ++ .comma :: itemTokens rest

/-- The tokens of members with commas between them. -/
def memberTokens : List (Option String × Json) → List Token
  | [] => []
  | [(name, value)] => .string name :: .colon :: tokens value
  | (name, value) :: rest =>
    .string name :: .colon :: (tokens value ++ .comma :: memberTokens rest)

end

variable {value other item : Json} {items : List Json} {name : Option String}
  {members : List (Option String × Json)} {read rest : List Token} {fuel : Nat}

/-- Items are set apart by commas. -/
theorem itemTokens_cons (hne : items ≠ []) :
    itemTokens (item :: items) = item.tokens ++ .comma :: itemTokens items := by
  obtain ⟨next, others, rfl⟩ := List.exists_cons_of_ne_nil hne
  rw [itemTokens]
  exact hne

/-- Members are set apart by commas. -/
theorem memberTokens_cons (hne : members ≠ []) :
    memberTokens ((name, value) :: members) =
      .string name :: .colon :: (value.tokens ++ .comma :: memberTokens members) := by
  obtain ⟨next, others, rfl⟩ := List.exists_cons_of_ne_nil hne
  rw [memberTokens]
  exact hne

/-- No value starts with the end of an array. -/
theorem tokens_head (value : Json) :
    ∃ token more, value.tokens = token :: more ∧ token ≠ .closeArray := by
  cases value <;> exact ⟨_, _, by rw [tokens], by simp⟩

/-- A token that is no number keeps what stands before it and after it apart. -/
theorem Apart.between {first second : List Token} {token : Token} (hfirst : Apart first)
    (hsecond : Apart second) (htoken : token.isNumber = false) :
    Apart (first ++ token :: second) := by
  refine List.isChain_append.mpr ⟨hfirst, List.isChain_cons.mpr ⟨?_, hsecond⟩, ?_⟩
  · exact fun _ _ => Or.inl htoken
  · intro last _ next hnext
    cases hnext
    exact Or.inr htoken

mutual

/-- Numbers of one value never stand side by side. -/
theorem tokens_apart : ∀ value : Json, Apart value.tokens
  | .null => by rw [tokens]; exact .singleton _
  | .bool _ => by rw [tokens]; exact .singleton _
  | .number _ => by rw [tokens]; exact .singleton _
  | .string _ => by rw [tokens]; exact .singleton _
  | .array items => by
    rw [tokens]
    exact Apart.between .nil ((itemTokens_apart items).between .nil rfl) rfl
  | .object members => by
    rw [tokens]
    exact Apart.between .nil ((memberTokens_apart members).between .nil rfl) rfl

/-- Nor do they in a list of items. -/
theorem itemTokens_apart : ∀ items : List Json, Apart (itemTokens items)
  | [] => by rw [itemTokens]; exact .nil
  | [item] => by rw [itemTokens]; exact tokens_apart item
  | item :: next :: rest => by
    rw [itemTokens_cons (List.cons_ne_nil _ _)]
    exact (tokens_apart item).between (itemTokens_apart (next :: rest)) rfl

/-- Nor do they in a list of members. -/
theorem memberTokens_apart : ∀ members : List (Option String × Json), Apart (memberTokens members)
  | [] => by rw [memberTokens]; exact .nil
  | [(name, value)] => by
    rw [memberTokens]
    exact Apart.between (.singleton _) (tokens_apart value) rfl
  | (name, value) :: next :: rest => by
    rw [memberTokens_cons (List.cons_ne_nil _ _)]
    exact Apart.between (.singleton _)
      ((tokens_apart value).between (memberTokens_apart (next :: rest)) rfl) rfl

end

/-! ## Reading tokens -/

/-- What is read with a bound is what the tokens in front spell. -/
structure Sound (fuel : Nat) : Prop where
  /-- A value is read from its tokens. -/
  value : ∀ {read value rest}, value? fuel read = some (value, rest) → read = value.tokens ++ rest
  /-- One or more items are read from their tokens and the end of their array. -/
  items : ∀ {read items rest}, items? fuel read = some (items, rest) →
    items ≠ [] ∧ read = itemTokens items ++ .closeArray :: rest
  /-- One or more members are read from their tokens and the end of their object. -/
  members : ∀ {read members rest}, members? fuel read = some (members, rest) →
    members ≠ [] ∧ read = memberTokens members ++ .closeObject :: rest

/-- A value that is read with one more step was spelled by the tokens that are gone. -/
theorem Sound.value?_succ (h : Sound fuel) (hread : value? (fuel + 1) read = some (value, rest)) :
    read = value.tokens ++ rest := by
  unfold value? at hread
  split at hread
  case h_6 =>
    obtain ⟨⟨items, after⟩, hitems, heq⟩ := Option.map_eq_some_iff.mp hread
    cases heq
    obtain ⟨-, rfl⟩ := h.items hitems
    rw [tokens]
    simp
  case h_8 =>
    obtain ⟨⟨members, after⟩, hmembers, heq⟩ := Option.map_eq_some_iff.mp hread
    cases heq
    obtain ⟨-, rfl⟩ := h.members hmembers
    rw [tokens]
    simp
  case h_9 => cases hread
  all_goals
    cases hread
    simp [tokens, itemTokens, memberTokens]

/-- So were items. -/
theorem Sound.items?_succ (h : Sound fuel) (hread : items? (fuel + 1) read = some (items, rest)) :
    items ≠ [] ∧ read = itemTokens items ++ .closeArray :: rest := by
  unfold items? at hread
  split at hread
  · rename_i hvalue
    obtain ⟨⟨others, after⟩, hothers, heq⟩ := Option.map_eq_some_iff.mp hread
    cases heq
    obtain ⟨hne, rfl⟩ := h.items hothers
    refine ⟨List.cons_ne_nil _ _, ?_⟩
    rw [h.value hvalue, itemTokens_cons hne]
    simp
  · rename_i hvalue
    cases hread
    exact ⟨List.cons_ne_nil _ _, by rw [h.value hvalue, itemTokens]⟩
  · cases hread

/-- So were members. -/
theorem Sound.members?_succ (h : Sound fuel)
    (hread : members? (fuel + 1) read = some (members, rest)) :
    members ≠ [] ∧ read = memberTokens members ++ .closeObject :: rest := by
  unfold members? at hread
  split at hread
  · split at hread
    · rename_i hvalue
      obtain ⟨⟨others, after⟩, hothers, heq⟩ := Option.map_eq_some_iff.mp hread
      cases heq
      obtain ⟨hne, rfl⟩ := h.members hothers
      refine ⟨List.cons_ne_nil _ _, ?_⟩
      rw [h.value hvalue, memberTokens_cons hne]
      simp
    · rename_i hvalue
      cases hread
      refine ⟨List.cons_ne_nil _ _, ?_⟩
      rw [h.value hvalue, memberTokens]
      rfl
    · cases hread
  · cases hread

/-- Whatever the bound is, what is read was spelled by the tokens that are gone. -/
theorem sound (fuel : Nat) : Sound fuel := by
  induction fuel with
  | zero => constructor <;> intro _ _ _ h <;> cases h
  | succ fuel ih => exact ⟨ih.value?_succ, ih.items?_succ, ih.members?_succ⟩

/-- A bound suffices for all values with few enough tokens. Each token takes two calls at most. -/
structure Complete (fuel : Nat) : Prop where
  /-- A value is read, whatever stands behind it. -/
  value : ∀ (value : Json) (rest : List Token), 2 * value.tokens.length ≤ fuel + 1 →
    value? fuel (value.tokens ++ rest) = some (value, rest)
  /-- One or more items are read up to the end of their array. -/
  items : ∀ (items : List Json) (rest : List Token), items ≠ [] →
    2 * (itemTokens items).length ≤ fuel →
      items? fuel (itemTokens items ++ .closeArray :: rest) = some (items, rest)
  /-- One or more members are read up to the end of their object. -/
  members : ∀ (members : List (Option String × Json)) (rest : List Token), members ≠ [] →
    2 * (memberTokens members).length ≤ fuel →
      members? fuel (memberTokens members ++ .closeObject :: rest) = some (members, rest)

/-- Every value has a token. -/
theorem length_tokens_pos (value : Json) : 0 < value.tokens.length := by
  obtain ⟨token, more, htokens, -⟩ := tokens_head value
  rw [htokens]
  exact Nat.succ_pos _

/-- So have items, where there are any. -/
theorem length_itemTokens_pos (hne : items ≠ []) : 0 < (itemTokens items).length := by
  obtain ⟨item, others, rfl⟩ := List.exists_cons_of_ne_nil hne
  have hitem := length_tokens_pos item
  cases others with
  | nil => rwa [itemTokens]
  | cons next others =>
      rw [itemTokens_cons (List.cons_ne_nil _ _), List.length_append]
      omega

/-- So have members, where there are any. -/
theorem length_memberTokens_pos (hne : members ≠ []) : 0 < (memberTokens members).length := by
  obtain ⟨⟨name, value⟩, others, rfl⟩ := List.exists_cons_of_ne_nil hne
  cases others with
  | nil => rw [memberTokens]; exact Nat.succ_pos _
  | cons next others =>
      rw [memberTokens_cons (List.cons_ne_nil _ _)]
      exact Nat.succ_pos _

/-- Behind the start of an array with items, these are read. -/
theorem value?_items (hne : items ≠ []) (rest : List Token) :
    value? (fuel + 1) (.openArray :: (itemTokens items ++ rest)) =
      (items? fuel (itemTokens items ++ rest)).map fun (items, rest) => (.array items, rest) := by
  obtain ⟨item, others, rfl⟩ := List.exists_cons_of_ne_nil hne
  obtain ⟨token, more, htokens, hclose⟩ := tokens_head item
  have hhead : ∃ more, itemTokens (item :: others) = token :: more := by
    cases others with
    | nil => exact ⟨more, by rw [itemTokens, htokens]⟩
    | cons next others =>
        exact ⟨_, by rw [itemTokens_cons (List.cons_ne_nil _ _), htokens, List.cons_append]⟩
  obtain ⟨tail, htail⟩ := hhead
  rw [htail, List.cons_append, value?]
  exact fun _ heq => hclose (List.cons.inj heq).1

/-- Behind the start of an object with members, these are read. -/
theorem value?_members (hne : members ≠ []) (rest : List Token) :
    value? (fuel + 1) (.openObject :: (memberTokens members ++ rest)) =
      (members? fuel (memberTokens members ++ rest)).map fun (members, rest) =>
        (.object members, rest) := by
  obtain ⟨⟨name, value⟩, others, rfl⟩ := List.exists_cons_of_ne_nil hne
  have hhead : ∃ more, memberTokens ((name, value) :: others) = .string name :: more := by
    cases others with
    | nil => exact ⟨_, by rw [memberTokens]⟩
    | cons next others => exact ⟨_, by rw [memberTokens_cons (List.cons_ne_nil _ _)]⟩
  obtain ⟨tail, htail⟩ := hhead
  rw [htail, List.cons_append, value?]
  exact fun _ heq => by cases heq

/-- A value is read from its tokens with one more step. -/
theorem Complete.value?_succ (h : Complete fuel) (value : Json) (rest : List Token)
    (hfuel : 2 * value.tokens.length ≤ fuel + 1 + 1) :
    value? (fuel + 1) (value.tokens ++ rest) = some (value, rest) := by
  cases value with
  | array items =>
      by_cases hne : items = []
      · subst hne
        simp [tokens, itemTokens, value?]
      · simp only [tokens, List.length_cons, List.length_append, List.length_nil] at hfuel
        rw [tokens, List.cons_append, List.append_assoc, value?_items hne, List.singleton_append,
          h.items items rest hne (by omega)]
        rfl
  | object members =>
      by_cases hne : members = []
      · subst hne
        simp [tokens, memberTokens, value?]
      · simp only [tokens, List.length_cons, List.length_append, List.length_nil] at hfuel
        rw [tokens, List.cons_append, List.append_assoc, value?_members hne,
          List.singleton_append, h.members members rest hne (by omega)]
        rfl
  | _ => simp [tokens, value?]

/-- So are items, up to the end of their array. -/
theorem Complete.items?_succ (h : Complete fuel) (items : List Json) (rest : List Token)
    (hne : items ≠ []) (hfuel : 2 * (itemTokens items).length ≤ fuel + 1) :
    items? (fuel + 1) (itemTokens items ++ .closeArray :: rest) = some (items, rest) := by
  obtain ⟨item, others, rfl⟩ := List.exists_cons_of_ne_nil hne
  by_cases hothers : others = []
  · subst hothers
    rw [itemTokens] at hfuel ⊢
    rw [items?, h.value item _ hfuel]
  · have hpos := length_itemTokens_pos hothers
    rw [itemTokens_cons hothers, List.length_append, List.length_cons] at hfuel
    rw [itemTokens_cons hothers, List.append_assoc, items?, h.value item _ (by omega),
      List.cons_append]
    simp only
    rw [h.items others rest hothers (by omega)]
    rfl

/-- So are members, up to the end of their object. -/
theorem Complete.members?_succ (h : Complete fuel) (members : List (Option String × Json))
    (rest : List Token) (hne : members ≠ [])
    (hfuel : 2 * (memberTokens members).length ≤ fuel + 1) :
    members? (fuel + 1) (memberTokens members ++ .closeObject :: rest) = some (members, rest) := by
  obtain ⟨⟨name, value⟩, others, rfl⟩ := List.exists_cons_of_ne_nil hne
  by_cases hothers : others = []
  · subst hothers
    rw [memberTokens, List.length_cons, List.length_cons] at hfuel
    rw [memberTokens, List.cons_append, List.cons_append, members?, h.value value _ (by omega)]
  · have hpos := length_memberTokens_pos hothers
    rw [memberTokens_cons hothers, List.length_cons, List.length_cons, List.length_append,
      List.length_cons] at hfuel
    rw [memberTokens_cons hothers, List.cons_append, List.cons_append, List.append_assoc, members?,
      h.value value _ (by omega), List.cons_append]
    simp only
    rw [h.members others rest hothers (by omega)]
    rfl

/-- Whatever the bound is, it is enough for all that is short enough. -/
theorem complete (fuel : Nat) : Complete fuel := by
  induction fuel with
  | zero =>
      refine ⟨fun value _ hfuel => ?_, fun items _ hne hfuel => ?_, fun members _ hne hfuel => ?_⟩
      · have := length_tokens_pos value
        omega
      · have := length_itemTokens_pos hne
        omega
      · have := length_memberTokens_pos hne
        omega
  | succ fuel ih => exact ⟨ih.value?_succ, ih.items?_succ, ih.members?_succ⟩

/-- What stands in front of other tokens is the value that they start with. -/
theorem tokens_append_eq (h : value.tokens ++ read = other.tokens) : value = other ∧ read = [] := by
  have hlength := congrArg List.length h
  rw [List.length_append] at hlength
  have hvalue := (complete (2 * other.tokens.length)).value value read (by omega)
  have hother := (complete (2 * other.tokens.length)).value other [] (by omega)
  rw [List.append_nil] at hother
  rw [h, hother] at hvalue
  cases hvalue
  exact ⟨rfl, rfl⟩

/-- A sequence of tokens is read as the value whose tokens they are. -/
theorem ofTokens?_eq_some_iff : ofTokens? read = some value ↔ read = value.tokens := by
  unfold ofTokens?
  constructor
  · intro h
    split at h
    · rename_i hread
      cases h
      rw [(sound _).value hread, List.append_nil]
    · cases h
  · rintro rfl
    have hread := (complete (2 * value.tokens.length + 1)).value value [] (by omega)
    rw [List.append_nil] at hread
    rw [hread]

/-! ## Reading texts -/

/-- A text is read as the value whose tokens it spells. -/
theorem read?_eq_some_iff {text : String} :
    read? text = some value ↔ Spelled value.tokens text.toList := by
  rw [← tokens?_eq_some_iff (tokens_apart value), read?, Option.bind_eq_some_iff]
  constructor
  · rintro ⟨read, hread, hvalue⟩
    rwa [← ofTokens?_eq_some_iff.mp hvalue]
  · exact fun h => ⟨_, h, ofTokens?_eq_some_iff.mpr rfl⟩

/-- Only the tokens of a number end with one. -/
theorem getLast?_tokens (h : ∀ spelling, value ≠ .number spelling) :
    ∀ token ∈ value.tokens.getLast?, token.isNumber = false := by
  intro token htoken
  cases value with
  | number spelling => exact absurd rfl (h spelling)
  | array items =>
      rw [tokens, ← List.cons_append, List.getLast?_concat] at htoken
      cases htoken
      rfl
  | object members =>
      rw [tokens, ← List.cons_append, List.getLast?_concat] at htoken
      cases htoken
      rfl
  | _ =>
      rw [tokens] at htoken
      cases htoken
      rfl

/-- Blanks behind a value mean nothing, and nothing else may stand there. A number is no such value,
since it may go on with what stands behind it. -/
theorem read?_append {text : String} (h : read? text = some value)
    (hnumber : ∀ spelling, value ≠ .number spelling) (trail : String) :
    read? (text ++ trail) = if trail.toList.all isBlank then some value else none := by
  have htokens : tokens? (text ++ trail).toList =
      (tokens? trail.toList).map (value.tokens ++ ·) := by
    rw [String.toList_append]
    refine tokens?_append (read?_eq_some_iff.mp h) (tokens_apart _) fun token htoken hlast => ?_
    rw [getLast?_tokens hnumber token htoken] at hlast
    cases hlast
  split
  · rename_i hblank
    have htrail : tokens? trail.toList = some [] :=
      (tokens?_eq_some_iff .nil).mpr (spelled_nil_iff.mpr (List.all_eq_true.mp hblank))
    rw [read?, htokens, htrail, Option.map_some, List.append_nil, Option.bind_some]
    exact ofTokens?_eq_some_iff.mpr rfl
  · rename_i hblank
    rw [Option.eq_none_iff_forall_ne_some]
    intro other hother
    rw [read?, htokens, Option.bind_map] at hother
    obtain ⟨more, hmore, hread⟩ := Option.bind_eq_some_iff.mp hother
    obtain ⟨-, rfl⟩ := tokens_append_eq (ofTokens?_eq_some_iff.mp hread)
    exact hblank (List.all_eq_true.mpr (spelled_nil_iff.mp (spelled_of_tokens? hmore)))

/-! ## Writing -/

/-- Every number among tokens is spelled as one. -/
def WellSpelled (tokens : List Token) : Prop :=
  ∀ spelling, .number spelling ∈ tokens → IsNumber spelling.toList

variable {text : String} {level : Nat}

/-- What comes first in a well spelled text is well spelled. -/
theorem WellSpelled.left {first second : List Token} (h : WellSpelled (first ++ second)) :
    WellSpelled first := fun spelling hmem => h spelling (List.mem_append_left _ hmem)

/-- So is what comes last. -/
theorem WellSpelled.right {first second : List Token} (h : WellSpelled (first ++ second)) :
    WellSpelled second := fun spelling hmem => h spelling (List.mem_append_right _ hmem)

/-- So is all but the first token. -/
theorem WellSpelled.tail {token : Token} (h : WellSpelled (token :: rest)) : WellSpelled rest :=
  fun spelling hmem => h spelling (List.mem_cons_of_mem _ hmem)

/-- A control character is named by its code, and two zeros fill it up to four digits. -/
theorem spells_control {c : Char} (h : c < ' ') :
    Numeral.Spells 16 c.toNat
      ['0', '0', Nat.digitChar (c.toNat / 16), Nat.digitChar (c.toNat % 16)] := by
  have hlt : c.toNat < 32 := h
  have hdigit : ∀ {value : Nat}, value < 16 →
      Numeral.IsDigit 16 value (Nat.digitChar value) := fun hlt => ⟨hlt, hlt, Or.inl rfl⟩
  refine ⟨[0, 0, c.toNat / 16, c.toNat % 16], List.cons_ne_nil _ _, ?_, ?_⟩
  · exact .cons (hdigit (by decide)) (.cons (hdigit (by decide))
      (.cons (hdigit (by omega)) (.cons (hdigit (by omega)) .nil)))
  · simp only [List.reverse_cons, List.reverse_nil, List.nil_append, List.cons_append,
      Nat.ofDigits_cons, Nat.ofDigits_nil]
    omega

/-- A character is escaped as one element that stands for it. -/
theorem IsLiteral.escape {elements : List Element} {body : List Char}
    (h : IsLiteral elements body) (c : Char) :
    IsLiteral (.char c :: elements) (escape c ++ body) := by
  have hmem : ∀ {letter c : Char}, (letter, c) ∈ shortEscapes →
      IsLiteral (.char c :: elements) (['\\', letter] ++ body) := fun hmem => .short hmem h
  unfold Json.escape
  split
  case h_8 hquote hbackslash _ _ _ _ _ =>
    split
    · rename_i hcontrol
      have hchar : elementOfUnit c.toNat = .char c := by
        have hlt : c.toNat < 32 := hcontrol
        rw [elementOfUnit, if_neg (by simp; omega), Char.ofNat_toNat]
      rw [← hchar]
      exact .unit (spells_control hcontrol) h
    · rename_i hcontrol
      exact .plain hquote hbackslash (Char.not_lt.mp hcontrol) h
  all_goals
    exact hmem (by decide)

/-- The literal of a text stands for it. -/
theorem spelled_quote (text : String) :
    (Token.string (some text)).Spelled (quote text).toList := by
  have hliteral : ∀ chars : List Char, IsLiteral (chars.map .char) (chars.flatMap escape) := by
    intro chars
    induction chars with
    | nil => exact .nil
    | cons c chars ih => exact ih.escape c
  have htext : ∀ chars : List Char, textOf? (chars.map .char) = some chars := by
    intro chars
    induction chars with
    | nil => rfl
    | cons c chars ih => rw [List.map_cons, textOf?, ih, Option.map_some]
  refine ⟨_, _, String.toList_ofList, hliteral text.toList, ?_⟩
  rw [htext, Option.map_some, String.ofList_toList]

/-- A text is spelled by the literal that quotes it. -/
theorem spelled_quote? (text : Option String) :
    (Token.string text).Spelled (quote? text).toList := by
  cases text with
  | some text => exact spelled_quote text
  | none =>
      have hunit : Numeral.Spells 16 0xD800 ['d', '8', '0', '0'] :=
        (Numeral.digits?_eq_some_iff (by decide)).mp (by decide)
      exact ⟨[.half 0xD800], "\\ud800".toList, rfl, .unit hunit .nil, rfl⟩

/-- One token on its own. -/
theorem spelled_one {token : Token} {word : List Char} (h : token.Spelled word) :
    Spelled [token] word := by
  have hspelled := Spelled.token h .nil
  rwa [List.append_nil] at hspelled

mutual

/-- The compact form of a value spells it. -/
theorem spelled_compact :
    ∀ value : Json, WellSpelled value.tokens → Spelled value.tokens value.compact.toList
  | .null, _ => by rw [tokens, compact]; exact spelled_one rfl
  | .bool true, _ => by rw [tokens, compact]; exact spelled_one rfl
  | .bool false, _ => by rw [tokens, compact]; exact spelled_one rfl
  | .number spelling, h => by
    rw [tokens] at h ⊢
    rw [compact]
    exact spelled_one ⟨rfl, h spelling List.mem_cons_self⟩
  | .string text, _ => by rw [tokens, compact]; exact spelled_one (spelled_quote? text)
  | .array items, h => by
    rw [tokens] at h ⊢
    rw [compact, String.toList_append, String.toList_append, List.append_assoc]
    exact .token rfl ((spelled_compactItems items h.tail.left).append (spelled_one rfl))
  | .object members, h => by
    rw [tokens] at h ⊢
    rw [compact, String.toList_append, String.toList_append, List.append_assoc]
    exact .token rfl ((spelled_compactMembers members h.tail.left).append (spelled_one rfl))

/-- Items are spelled by their compact text. -/
theorem spelled_compactItems : ∀ items : List Json, WellSpelled (itemTokens items) →
    Spelled (itemTokens items) (compactItems items).toList
  | [], _ => by rw [itemTokens, compactItems]; exact .nil
  | [item], h => by
    rw [itemTokens] at h ⊢
    rw [compactItems]
    exact spelled_compact item h
  | item :: next :: rest, h => by
    rw [itemTokens_cons (List.cons_ne_nil _ _)] at h ⊢
    rw [compactItems, String.toList_append, String.toList_append, List.append_assoc]
    · exact (spelled_compact item h.left).append
        (.token rfl (spelled_compactItems (next :: rest) h.right.tail))
    · simp

/-- Members are spelled by their compact text. -/
theorem spelled_compactMembers : ∀ members : List (Option String × Json),
    WellSpelled (memberTokens members) →
      Spelled (memberTokens members) (compactMembers members).toList
  | [], _ => by rw [memberTokens, compactMembers]; exact .nil
  | [(name, value)], h => by
    rw [memberTokens] at h ⊢
    rw [compactMembers, String.toList_append, String.toList_append, List.append_assoc]
    exact .token (spelled_quote? name) (.token rfl (spelled_compact value h.tail.tail))
  | (name, value) :: next :: rest, h => by
    rw [memberTokens_cons (List.cons_ne_nil _ _)] at h ⊢
    rw [compactMembers]
    · simp only [String.toList_append, List.append_assoc]
      exact .token (spelled_quote? name) (.token rfl
        ((spelled_compact value h.tail.tail.left).append
          (.token rfl (spelled_compactMembers (next :: rest) h.tail.tail.right.tail))))
    · simp

end

/-- A line break and the spaces behind it are blanks. -/
theorem Spelled.indent (level : Nat) {chars : List Char} (h : Spelled read chars) :
    Spelled read ((indent level).toList ++ chars) := by
  have hblank : Spelled [] (Json.indent level).toList := by
    rw [spelled_nil_iff, Json.indent, String.toList_append, List.forall_mem_append]
    constructor
    · exact List.forall_mem_singleton.mpr (by decide)
    · intro c hc
      rw [String.toList_ofList] at hc
      rw [(List.mem_replicate.mp hc).2]
      rfl
  exact hblank.append h

/-- A colon with a space behind it. -/
theorem Spelled.colon {chars : List Char} (h : Spelled read chars) :
    Spelled (.colon :: read) (": ".toList ++ chars) := by
  have hcolon : Spelled [.colon] ": ".toList :=
    (tokens?_eq_some_iff (.singleton _)).mp (by decide)
  exact hcolon.append h

mutual

/-- The form over several lines spells the value too. -/
theorem spelled_prettyAt : ∀ (value : Json) (level : Nat), WellSpelled value.tokens →
    Spelled value.tokens (prettyAt level value).toList
  | .null, _, _ => by rw [tokens, prettyAt]; exact spelled_one rfl
  | .bool true, _, _ => by rw [tokens, prettyAt]; exact spelled_one rfl
  | .bool false, _, _ => by rw [tokens, prettyAt]; exact spelled_one rfl
  | .number spelling, _, h => by
    rw [tokens] at h ⊢
    rw [prettyAt]
    exact spelled_one ⟨rfl, h spelling List.mem_cons_self⟩
  | .string text, _, _ => by rw [tokens, prettyAt]; exact spelled_one (spelled_quote? text)
  | .array [], _, _ => by
    rw [tokens, itemTokens, prettyAt]
    exact .token (show Token.openArray.Spelled ['['] from rfl) (spelled_one rfl)
  | .object [], _, _ => by
    rw [tokens, memberTokens, prettyAt]
    exact .token (show Token.openObject.Spelled ['\x7b'] from rfl) (spelled_one rfl)
  | .array (item :: items), level, h => by
    rw [tokens] at h ⊢
    rw [prettyAt]
    · simp only [String.toList_append, List.append_assoc]
      exact .token rfl ((spelled_prettyItems (item :: items) (level + 1) h.tail.left).append
        (.indent level (spelled_one rfl)))
    · simp
  | .object (member :: members), level, h => by
    rw [tokens] at h ⊢
    rw [prettyAt]
    · simp only [String.toList_append, List.append_assoc]
      exact .token rfl ((spelled_prettyMembers (member :: members) (level + 1) h.tail.left).append
        (.indent level (spelled_one rfl)))
    · simp

/-- Items are spelled by their indented text. -/
theorem spelled_prettyItems : ∀ (items : List Json) (level : Nat), WellSpelled (itemTokens items) →
    Spelled (itemTokens items) (prettyItems level items).toList
  | [], _, _ => by rw [itemTokens, prettyItems]; exact .nil
  | [item], level, h => by
    rw [itemTokens] at h ⊢
    rw [prettyItems, String.toList_append]
    exact .indent level (spelled_prettyAt item level h)
  | item :: next :: rest, level, h => by
    rw [itemTokens_cons (List.cons_ne_nil _ _)] at h ⊢
    rw [prettyItems]
    · simp only [String.toList_append, List.append_assoc]
      exact .indent level ((spelled_prettyAt item level h.left).append
        (.token rfl (spelled_prettyItems (next :: rest) level h.right.tail)))
    · simp

/-- Members are spelled by their indented text. -/
theorem spelled_prettyMembers : ∀ (members : List (Option String × Json)) (level : Nat),
    WellSpelled (memberTokens members) →
      Spelled (memberTokens members) (prettyMembers level members).toList
  | [], _, _ => by rw [memberTokens, prettyMembers]; exact .nil
  | [(name, value)], level, h => by
    rw [memberTokens] at h ⊢
    rw [prettyMembers]
    simp only [String.toList_append, List.append_assoc]
    exact .indent level (.token (spelled_quote? name)
      (.colon (spelled_prettyAt value level h.tail.tail)))
  | (name, value) :: next :: rest, level, h => by
    rw [memberTokens_cons (List.cons_ne_nil _ _)] at h ⊢
    rw [prettyMembers]
    · simp only [String.toList_append, List.append_assoc]
      exact .indent level (.token (spelled_quote? name)
        (.colon ((spelled_prettyAt value level h.tail.tail.left).append
          (.token rfl (spelled_prettyMembers (next :: rest) level h.tail.tail.right.tail)))))
    · simp

end

/-- What is written compactly is read back. -/
theorem read?_compact (h : WellSpelled value.tokens) : read? value.compact = some value :=
  read?_eq_some_iff.mpr (spelled_compact value h)

/-- What is written over several lines is read back. -/
theorem read?_pretty (h : WellSpelled value.tokens) : read? value.pretty = some value :=
  read?_eq_some_iff.mpr (spelled_prettyAt value 0 h)

/-! ## Natural numbers -/

/-- The digits of a positive number do not start with zero. -/
theorem isDigits_toDigits (n : Nat) (hpos : 0 < n) :
    IsDigits (Nat.toDigits 10 n) ∧ (Nat.toDigits 10 n).head? ≠ some '0' := by
  have hdigit : ∀ value < 10, isDigit (Nat.digitChar value) = true := by decide
  induction n using Nat.strong_induction_on with
  | _ n ih =>
    rw [Nat.toDigits_eq_if (by decide)]
    split
    · rename_i hlt
      have hzero : ∀ value < 10, 0 < value → Nat.digitChar value ≠ '0' := by decide
      refine ⟨⟨List.cons_ne_nil _ _, by simpa using hdigit n hlt⟩, ?_⟩
      simpa using hzero n hlt hpos
    · obtain ⟨⟨hne, hdigits⟩, hhead⟩ := ih (n / 10) (by omega) (by omega)
      refine ⟨⟨by simp, ?_⟩, ?_⟩
      · rw [List.forall_mem_append]
        exact ⟨hdigits, by simpa using hdigit (n % 10) (Nat.mod_lt _ (by decide))⟩
      · rwa [List.head?_append_of_ne_nil _ hne]

/-- A natural number is printed as a number. -/
theorem isNumber_toString (n : Nat) : IsNumber (toString n).toList := by
  have hwhole : IsWhole (Nat.toDigits 10 n) := by
    rcases Nat.eq_zero_or_pos n with rfl | hpos
    · exact .zero
    · obtain ⟨hdigits, hhead⟩ := isDigits_toDigits n hpos
      exact .digits hdigits hhead
  have hnumber := IsNumber.parts (Or.inl rfl) hwhole .none .none
  rw [List.nil_append, List.append_nil, List.append_nil] at hnumber
  rwa [Nat.toString_eq_repr, Nat.repr, String.toList_ofList]

/-- A natural number is read off its value. -/
theorem nat?_ofNat (n : Nat) : (ofNat n).nat? = some n := by
  rw [ofNat, nat?, Numeral.toList_toString]
  exact (Numeral.digits?_eq_some_iff (by decide)).mpr (Numeral.spells_toDigits n)

/-- Different numbers are different values. -/
theorem ofNat_inj {n n' : Nat} : ofNat n = ofNat n' ↔ n = n' := by
  constructor
  · intro h
    have hread := congrArg nat? h
    rw [nat?_ofNat, nat?_ofNat] at hread
    exact Option.some.inj hread
  · rintro rfl
    rfl

/-! ## Reports -/

/-- A printed number is spelled as a number has to be. -/
theorem wellSpelled_ofNat (n : Nat) : WellSpelled (ofNat n).tokens := by
  intro spelling hmem
  have hspelling : spelling = toString n := by simpa [ofNat, tokens] using hmem
  rw [hspelling]
  exact isNumber_toString n

/-- A text has no number to spell. -/
theorem wellSpelled_ofText (text : String) : WellSpelled (ofText text).tokens := by
  intro spelling hmem
  simp [ofText, tokens] at hmem

/-- Nor has a text that may be missing. -/
theorem wellSpelled_ofText? (text : Option String) : WellSpelled (ofText? text).tokens := by
  cases text with
  | none => exact fun spelling hmem => by simp [ofText?, tokens] at hmem
  | some text => exact wellSpelled_ofText text

/-- Members are well spelled if their values are. -/
theorem wellSpelled_ofMembers {members : List (String × Json)}
    (h : ∀ member ∈ members, WellSpelled member.2.tokens) :
    WellSpelled (ofMembers members).tokens := by
  have hmembers : WellSpelled (memberTokens (members.map fun member =>
      (some member.1, member.2))) := by
    induction members with
    | nil => exact fun spelling hmem => by simp [memberTokens] at hmem
    | cons member rest ih =>
        have hfirst := h member List.mem_cons_self
        have hrest := ih fun other hmem => h other (List.mem_cons_of_mem _ hmem)
        rcases rest with _ | ⟨next, others⟩
        · intro spelling hmem
          exact hfirst spelling (by simpa [memberTokens] using hmem)
        · intro spelling hmem
          rw [List.map_cons, memberTokens_cons (by simp)] at hmem
          simp only [List.mem_cons, reduceCtorEq, false_or, List.mem_append] at hmem
          exact hmem.elim (hfirst spelling) (hrest spelling)
  intro spelling hmem
  rw [ofMembers, tokens] at hmem
  simp only [List.mem_cons, reduceCtorEq, false_or, List.mem_append, List.not_mem_nil,
    or_false] at hmem
  exact hmembers spelling hmem

/-- A line with a value is read back. -/
theorem read?_line (h : WellSpelled value.tokens) (hnumber : ∀ spelling, value ≠ .number spelling) :
    read? (value.compact ++ "\n") = some value ∧ read? (value.pretty ++ "\n") = some value := by
  have hblank : "\n".toList.all isBlank = true := by decide
  constructor
  · rw [read?_append (read?_compact h) hnumber, if_pos hblank]
  · rw [read?_append (read?_pretty h) hnumber, if_pos hblank]

end BlobCache.Json
