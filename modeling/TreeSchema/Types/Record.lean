import TreeSchema.Types.Enum
import TreeSchema.Text.Quoted

/-!
Record types: what a product or one constructor of a compound sum becomes
once the types of its fields are resolved.
-/

namespace TreeSchema

/-- How assigned values are checked. A custom check is a name `κ`; what it
accepts is told by the instance of `FieldCheck` for these names. -/
inductive Checking (κ : Type) where
  | off
  | descriptor
  | custom (check : κ)
deriving DecidableEq, Repr

/-- The declaration that a record type was made from. -/
inductive Origin where
  | product (declared : Product)
  | constructor (sum : Sum) (tag : UInt32)
deriving DecidableEq, Repr

namespace Origin

def tag? : Origin → Option UInt32
  | .product _ => none
  | .constructor _ tag => some tag

def isConstructorOf (sum : Sum) : Origin → Bool
  | .product _ => false
  | .constructor declared _ => declared == sum

end Origin

structure TypedField where
  name : String
  desc : Desc
deriving DecidableEq, Repr

instance : Named TypedField := ⟨TypedField.name⟩

/-- Two record types are the same type when all of this agrees; the
generation numbers the synthesis that made the type. -/
structure RecordType (κ : Type) where
  generation : Nat
  name : String
  origin : Origin
  fields : List TypedField
  checking : Checking κ
deriving DecidableEq, Repr

instance {κ : Type} : Named (RecordType κ) := ⟨RecordType.name⟩

namespace RecordType

variable {κ : Type}

def size (type : RecordType κ) : Nat := type.fields.length

def isEmpty (type : RecordType κ) : Bool := type.fields.isEmpty

/-- Only the record types of constructors have a tag. -/
def tag? (type : RecordType κ) : Option UInt32 := type.origin.tag?

def fieldNames (type : RecordType κ) : List String := Named.names type.fields

def fieldIndex? (type : RecordType κ) (field : String) : Option Nat :=
  (Named.locate field type.fields).map Prod.fst

def fieldDesc? (type : RecordType κ) (field : String) : Option Desc :=
  (Named.locate field type.fields).map fun found => found.2.desc

def isChecked (type : RecordType κ) : Bool :=
  match type.checking with
  | .off => false
  | _ => true

def inspect (type : RecordType κ) : String :=
  let tag := match type.tag? with
    | none => "None"
    | some tag => "Some(" ++ toString tag.toNat ++ ")"
  "CompoundType \x7b name: " ++ Text.quoted type.name ++ ", tag: " ++ tag ++
    ", fields: [" ++ String.intercalate ", " (type.fieldNames.map Text.quoted) ++
    "], checked: " ++ (if type.isChecked then "true" else "false") ++ ", .. \x7d"

end RecordType

end TreeSchema
