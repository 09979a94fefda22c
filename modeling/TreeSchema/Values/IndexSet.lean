/-!
Sets of indices packed into 64-bit words. A set grows to the word that an
inserted index falls into; indices beyond the last word are absent.
-/

namespace TreeSchema

structure IndexSet where
  words : Array UInt64
deriving DecidableEq, Repr

namespace IndexSet

def mask (index : Nat) : UInt64 :=
  1 <<< UInt64.ofNat (index % 64)

def empty : IndexSet := ⟨#[]⟩

/-- The empty set with room for the indices below `size`. -/
def withSize (size : Nat) : IndexSet :=
  ⟨Array.replicate ((size + 63) / 64) 0⟩

def contains (set : IndexSet) (index : Nat) : Bool :=
  match set.words[index / 64]? with
  | some word => word &&& mask index != 0
  | none => false

/-- The same members in at least `count` words. -/
def grow (set : IndexSet) (count : Nat) : IndexSet :=
  ⟨set.words ++ Array.replicate (count - set.words.size) 0⟩

/-- The set with `index` in it, and whether the index is new. -/
def insert (set : IndexSet) (index : Nat) : IndexSet × Bool :=
  let grown := set.grow (index / 64 + 1)
  (⟨grown.words.modify (index / 64) (· ||| mask index)⟩, !set.contains index)

end IndexSet

end TreeSchema
