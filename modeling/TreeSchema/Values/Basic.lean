import TreeSchema.Types.Sum
import TreeSchema.Values.IndexSet

/-!
Records and the values in their fields. A record keeps one slot per field of
its type and the set of the fields that were assigned; a slot without an
assigned value may still hold a default.
-/

namespace TreeSchema

mutual

structure Record (κ : Type) where
  type : RecordType κ
  slots : List (Option (Value κ))
  assigned : IndexSet

/-- A present maybe is stored as the value it holds. -/
inductive Value (κ : Type) where
  | int (value : Int)
  | string (value : String)
  | enum (value : EnumValue)
  | record (value : Record κ)
  | array (elements : List (Value κ))
  | absent

end

variable {κ : Type}

namespace Value

/-- The value of an optional value: nothing is absent, the rest is itself. -/
def ofOption : Option (Value κ) → Value κ
  | none => .absent
  | some value => value

def int? : Value κ → Option Int
  | .int value => some value
  | _ => none

def string? : Value κ → Option String
  | .string value => some value
  | _ => none

def array? : Value κ → Option (List (Value κ))
  | .array elements => some elements
  | _ => none

def record? : Value κ → Option (Record κ)
  | .record value => some value
  | _ => none

end Value

mutual

/-- Records are alike when they have the same type and alike slots; which
fields were assigned does not matter. -/
def Record.alike [DecidableEq κ] : Record κ → Record κ → Bool
  | ⟨leftType, leftSlots, _⟩, ⟨rightType, rightSlots, _⟩ =>
      leftType == rightType && Value.alikeSlots leftSlots rightSlots
termination_by structural left => left

def Value.alike [DecidableEq κ] : Value κ → Value κ → Bool
  | .int left, .int right => left == right
  | .string left, .string right => left == right
  | .enum left, .enum right => left.alike right
  | .record left, .record right => Record.alike left right
  | .array left, .array right => Value.alikeAll left right
  | .absent, .absent => true
  | _, _ => false
termination_by structural left => left

def Value.alikeAll [DecidableEq κ] : List (Value κ) → List (Value κ) → Bool
  | [], [] => true
  | left :: lefts, right :: rights =>
      Value.alike left right && Value.alikeAll lefts rights
  | _, _ => false
termination_by structural lefts => lefts

def Value.alikeSlots [DecidableEq κ] :
    List (Option (Value κ)) → List (Option (Value κ)) → Bool
  | [], [] => true
  | none :: lefts, none :: rights => Value.alikeSlots lefts rights
  | some left :: lefts, some right :: rights =>
      Value.alike left right && Value.alikeSlots lefts rights
  | _, _ => false
termination_by structural lefts => lefts

end

instance [DecidableEq κ] : BEq (Value κ) := ⟨Value.alike⟩

instance [DecidableEq κ] : BEq (Record κ) := ⟨Record.alike⟩

end TreeSchema
