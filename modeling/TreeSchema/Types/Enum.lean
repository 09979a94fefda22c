import TreeSchema.Schema.Desc

/-!
The closed enumeration made from a simple sum. Each constructor is one shared
value, reached by its name or by its tag.
-/

namespace TreeSchema

/-- Tag of the constructor at a position. Tags count from one, in one machine
word of 32 bits. -/
def tagAt (position : Nat) : UInt32 :=
  UInt32.ofNat (position + 1)

/-- A constructor of a simple sum. The generation numbers the synthesis that
made it, so equality as data tells apart the values of two syntheses. -/
structure EnumValue where
  generation : Nat
  sum : Sum
  tag : UInt32
  name : String
deriving DecidableEq, Repr

namespace EnumValue

/-- Equality as values: the same tag of the same declared sum, whichever
synthesis made them. -/
def alike (left right : EnumValue) : Bool :=
  left.tag == right.tag && left.sum == right.sum

def text (value : EnumValue) : String := value.name

def inspect (value : EnumValue) : String :=
  "<" ++ value.sum.name ++ " " ++ value.name ++ " " ++ toString value.tag.toNat ++ ">"

end EnumValue

instance : Named EnumValue := ⟨EnumValue.name⟩

structure EnumType where
  generation : Nat
  sum : Sum
deriving DecidableEq, Repr

namespace EnumType

def name (type : EnumType) : String := type.sum.name

/-- All values, in declaration order. -/
def values (type : EnumType) : List EnumValue :=
  type.sum.constructors.mapIdx fun position constructor =>
    ⟨type.generation, type.sum, tagAt position, constructor.name⟩

def value? (type : EnumType) (constructor : String) : Option EnumValue :=
  Named.lookup constructor type.values

def byTag? (type : EnumType) (tag : UInt32) : Option EnumValue :=
  if tag = 0 then none else type.values[tag.toNat - 1]?

end EnumType

end TreeSchema
