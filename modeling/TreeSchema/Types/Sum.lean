import TreeSchema.Types.Record

/-!
The base type of a compound sum, with a record type per constructor, and its
table of tags.
-/

namespace TreeSchema

/-- Constructor names and their tags, in declaration order. -/
structure TagTable where
  name : String
  entries : List (String × UInt32)
deriving DecidableEq, Repr

instance : Named TagTable := ⟨TagTable.name⟩

namespace TagTable

def size (table : TagTable) : Nat := table.entries.length

def isEmpty (table : TagTable) : Bool := table.entries.isEmpty

/-- Tag of the first entry of that name. -/
def get? (table : TagTable) (constructor : String) : Option UInt32 :=
  (table.entries.find? fun entry => entry.1 = constructor).map Prod.snd

end TagTable

structure SumType (κ : Type) where
  sum : Sum
  constructors : List (RecordType κ)
deriving DecidableEq, Repr

namespace SumType

variable {κ : Type}

def name (type : SumType κ) : String := type.sum.name

def constructor? (type : SumType κ) (constructor : String) : Option (RecordType κ) :=
  Named.lookup constructor type.constructors

/-- The name under which the tags of a sum are bound. -/
def tagsName (sum : String) : String := sum ++ "_e"

def tags (type : SumType κ) : TagTable where
  name := tagsName type.name
  entries := type.constructors.filterMap fun constructor =>
    constructor.tag?.map fun tag => (constructor.name, tag)

/-- The record type belongs to a constructor of this very sum. -/
def hasVariant (type : SumType κ) (variant : RecordType κ) : Bool :=
  variant.origin.isConstructorOf type.sum

end SumType

/-- A type that synthesis binds under a name. -/
inductive GeneratedType (κ : Type) where
  | enum (type : EnumType)
  | sum (type : SumType κ)
  | record (type : RecordType κ)
deriving DecidableEq, Repr

namespace GeneratedType

variable {κ : Type}

def name : GeneratedType κ → String
  | .enum type => type.name
  | .sum type => type.name
  | .record type => type.name

end GeneratedType

instance {κ : Type} : Named (GeneratedType κ) := ⟨GeneratedType.name⟩

end TreeSchema
