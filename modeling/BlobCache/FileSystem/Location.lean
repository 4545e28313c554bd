import BlobCache.Path

/-!
# Places in the tree

A location is given by the names that lead to it from the top. Their number stands beside them, so
that locations of different depth are told apart at once, however long they are.

* `child` goes one name further in and `parent` one name back; the top is its own parent.
* `isBelow` holds of a directory and whatever is inside it, at any depth: `isBelow_iff`.
-/

namespace BlobCache

/-- A place in the tree. -/
structure Location where
  /-- How many names lead to it from the top. -/
  depth : Nat
  /-- These names, innermost first. -/
  names : List Bytes
  /-- They are as many as that. -/
  depth_eq : depth = names.length
  deriving DecidableEq

namespace Location

/-- The top of the tree. -/
def top : Location := ⟨0, [], rfl⟩

/-- The location of a name in a directory. -/
def child (directory : Location) (name : Bytes) : Location :=
  ⟨directory.depth + 1, name :: directory.names, by rw [directory.depth_eq, List.length_cons]⟩

/-- The directory that holds a location; the top stands in itself. -/
def parent (location : Location) : Location :=
  ⟨location.depth - 1, location.names.tail, by rw [location.depth_eq, List.length_tail]⟩

/-- The name of a location in a directory, if it stands in it. -/
def nameIn? (location directory : Location) : Option Bytes :=
  if location.parent = directory then location.names.head? else none

/-- Whether a location is strictly below a directory. -/
def isBelow (directory location : Location) : Bool :=
  directory.depth < location.depth &&
    location.names.drop (location.depth - directory.depth) == directory.names

/-- The names that lead from a directory to a location below it, innermost first. -/
def namesFrom (directory location : Location) : List Bytes :=
  location.names.take (location.depth - directory.depth)

/-! ## Laws -/

/-- Locations with the same names are the same. -/
theorem eq_of_names {a b : Location} (h : a.names = b.names) : a = b := by
  obtain ⟨_, _, rfl⟩ := a
  obtain ⟨_, _, rfl⟩ := b
  cases h
  rfl

/-- The directory of a child is the one that it is the child of. -/
@[simp] theorem parent_child (directory : Location) (name : Bytes) :
    (directory.child name).parent = directory := rfl

/-- A child has its own name in its directory. -/
@[simp] theorem nameIn?_child (directory : Location) (name : Bytes) :
    (directory.child name).nameIn? directory = some name := by
  rw [nameIn?, parent_child, if_pos rfl]
  rfl

/-- Different names, or names in different directories, are different locations. -/
theorem child_inj {a b : Location} {x y : Bytes} : a.child x = b.child y ↔ a = b ∧ x = y := by
  constructor
  · intro h
    have hab : (a.child x).parent = (b.child y).parent := congrArg parent h
    have hxy : (a.child x).names = (b.child y).names := congrArg names h
    exact ⟨hab, (List.cons.inj hxy).1⟩
  · rintro ⟨rfl, rfl⟩
    rfl

/-- What is below a directory is reached from it by one name or more. -/
theorem isBelow_iff {directory location : Location} :
    isBelow directory location = true ↔
      ∃ names, names ≠ [] ∧ location.names = names ++ directory.names := by
  simp only [isBelow, Bool.and_eq_true, decide_eq_true_eq, beq_iff_eq]
  constructor
  · rintro ⟨hlt, hdrop⟩
    refine ⟨location.names.take (location.depth - directory.depth), ?_, ?_⟩
    · intro h
      have hlen := congrArg List.length h
      simp only [List.length_take, List.length_nil, ← location.depth_eq] at hlen
      omega
    · exact hdrop ▸ (List.take_append_drop _ _).symm
  · rintro ⟨names, hne, hnames⟩
    have hpos : 0 < names.length := List.length_pos_iff.mpr hne
    have hdepth : location.depth = names.length + directory.depth := by
      rw [location.depth_eq, directory.depth_eq, hnames, List.length_append]
    refine ⟨by omega, ?_⟩
    rw [hnames, hdepth, Nat.add_sub_cancel, List.drop_left]

end Location

end BlobCache
