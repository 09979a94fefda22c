import TreeSchema.Named

/-!
Schema-level types. A sum or a product is nominal: the serial number given to
it when it is declared tells it apart from another one written alike, so two
descriptors are equal exactly when they refer to the very same declarations.
-/

namespace TreeSchema

/-- A field as declared; the type name is resolved later. Declaring a field
both optional and repeated is possible and refused on resolution. -/
structure Field where
  name : String
  typeName : String
  optional : Bool := false
  repeated : Bool := false
deriving DecidableEq, Repr

structure Constructor where
  name : String
  fields : List Field
deriving DecidableEq, Repr

/-- A record type: fields without alternatives. -/
structure Product where
  serial : Nat
  name : String
  fields : List Field
deriving DecidableEq, Repr

/-- A tagged union of constructors. -/
structure Sum where
  serial : Nat
  name : String
  constructors : List Constructor
deriving DecidableEq, Repr

instance : Named Field := ⟨Field.name⟩
instance : Named Constructor := ⟨Constructor.name⟩

namespace Constructor

def unit (name : String) : Constructor := ⟨name, []⟩

end Constructor

namespace Sum

/-- No constructor has fields, so the values are plain names. The empty sum
is simple. -/
def isSimple (sum : Sum) : Bool :=
  sum.constructors.all fun constructor => constructor.fields.isEmpty

/-- Position of the first constructor of that name. -/
def position? (sum : Sum) (constructor : String) : Option Nat :=
  (Named.locate constructor sum.constructors).map Prod.fst

end Sum

inductive Desc where
  | int
  | string
  | array (element : Desc)
  | maybe (inner : Desc)
  | product (declared : Product)
  | sum (declared : Sum)
deriving DecidableEq, Repr

namespace Desc

/-- The descriptors that need no declaration. -/
def primitive? : String → Option Desc
  | "int" => some .int
  | "string" => some .string
  | _ => none

/-- A field of this type holds a value before any is assigned. -/
def hasDefault : Desc → Bool
  | .array _ | .maybe _ => true
  | _ => false

def isSimpleSum : Desc → Bool
  | .sum declared => declared.isSimple
  | _ => false

def inner? : Desc → Option Desc
  | .array inner | .maybe inner => some inner
  | _ => none

/-- Schema notation: `T*` for arrays, `T?` for maybes. -/
def text : Desc → String
  | .int => "int"
  | .string => "string"
  | .array element => element.text ++ "*"
  | .maybe inner => inner.text ++ "?"
  | .product declared => declared.name
  | .sum declared => declared.name

/-- The descriptor under any number of maybes: what a present value meets. -/
def present : Desc → Desc
  | .maybe inner => inner.present
  | desc => desc

theorem inner?_isSome (desc : Desc) : desc.inner?.isSome = desc.hasDefault := by
  cases desc <;> rfl

theorem present_ne_maybe (desc inner : Desc) : desc.present ≠ maybe inner := by
  induction desc with
  | maybe _ ih => simpa [present] using ih
  | _ => simp [present]

end Desc

end TreeSchema
