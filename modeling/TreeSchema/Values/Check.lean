import TreeSchema.Values.Basic

/-!
Which values a field accepts. The standard check compares a value with the
descriptor of the field; it looks at the type of a nested record, but not
into its fields.
-/

namespace TreeSchema

variable {κ : Type}

/-- A product takes records of that very product, a compound sum records of
its constructors, a simple sum its own values and bare tags in range. -/
def Value.conforms (value : Value κ) : Desc → Bool
  | .int => value.int?.isSome
  | .string => value.string?.isSome
  | .maybe inner =>
      match value with
      | .absent => true
      | _ => value.conforms inner
  | .array element =>
      match value with
      | .array elements => elements.all fun part => part.conforms element
      | _ => false
  | .product declared =>
      match value with
      | .record given => given.type.origin == .product declared
      | _ => false
  | .sum declared =>
      match value with
      | .enum constant => declared.isSimple && declared == constant.sum
      | .int tag => declared.isSimple && 1 ≤ tag && tag ≤ declared.constructors.length
      | .record given => !declared.isSimple && given.type.origin.isConstructorOf declared
      | _ => false

/-- What each custom check accepts. -/
class FieldCheck (κ : Type) where
  accepts : κ → Value κ → Desc → Bool

/-- Without names for them there are no custom checks. -/
instance : FieldCheck Empty := ⟨fun check => check.elim⟩

def Checking.accepts [FieldCheck κ] (checking : Checking κ) (value : Value κ) (desc : Desc) :
    Bool :=
  match checking with
  | .off => true
  | .descriptor => value.conforms desc
  | .custom check => FieldCheck.accepts check value desc

end TreeSchema
