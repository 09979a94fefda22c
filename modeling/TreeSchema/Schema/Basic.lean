import TreeSchema.Schema.Desc

/-!
A schema is an ordered list of named definitions. A definition usually
carries the name of its own sum or product, but need not: the same
declaration may be defined again under a second name.
-/

namespace TreeSchema

inductive TypeDef where
  | product (declared : Product)
  | sum (declared : Sum)
deriving DecidableEq, Repr

/-- The descriptor of a field that names this definition. -/
def TypeDef.desc : TypeDef → Desc
  | .product declared => .product declared
  | .sum declared => .sum declared

structure Definition where
  name : String
  body : TypeDef
deriving DecidableEq, Repr

instance : Named Definition := ⟨Definition.name⟩

structure Schema where
  name : String
  definitions : List Definition
deriving DecidableEq, Repr

/-- A type as written, before it has a serial number. -/
inductive Declaration where
  | product (name : String) (fields : List Field)
  | sum (name : String) (constructors : List Constructor)
deriving DecidableEq, Repr

namespace Declaration

/-- A sum of constructors without fields. -/
def enumeration (name : String) (constructors : List String) : Declaration :=
  .sum name (constructors.map Constructor.unit)

def name : Declaration → String
  | .product name _ | .sum name _ => name

def body (serial : Nat) : Declaration → TypeDef
  | .product name fields => .product ⟨serial, name, fields⟩
  | .sum name constructors => .sum ⟨serial, name, constructors⟩

end Declaration

namespace Schema

/-- The first definition of a name; a later one of the same name is hidden. -/
def find? (schema : Schema) (name : String) : Option TypeDef :=
  (Named.lookup name schema.definitions).map Definition.body

/-- Every declaration is defined under its own name, with serial numbers
counted on from `serial`. -/
def declare (serial : Nat) (name : String) (declarations : List Declaration) : Schema where
  name := name
  definitions := declarations.mapIdx fun offset declaration =>
    ⟨declaration.name, declaration.body (serial + offset)⟩

/-- What a field's type name stands for: a primitive, or else a definition
of the schema. -/
def resolve? (schema : Schema) (typeName : String) : Option Desc :=
  (Desc.primitive? typeName).or ((schema.find? typeName).map TypeDef.desc)

end Schema

end TreeSchema
