import TreeSchema.Values.Basic

/-!
Values as data: induction over a value and the values in its slots and
elements, and the list of all records in a value.
-/

namespace TreeSchema

variable {κ : Type}

@[elab_as_elim, induction_eliminator]
theorem Value.induct {motive : Value κ → Prop}
    (int : ∀ value, motive (.int value))
    (string : ∀ value, motive (.string value))
    (enum : ∀ value, motive (.enum value))
    (record : ∀ type slots assigned, (∀ value, some value ∈ slots → motive value) →
      motive (.record ⟨type, slots, assigned⟩))
    (array : ∀ elements, (∀ element ∈ elements, motive element) → motive (.array elements))
    (absent : motive .absent) :
    ∀ value, motive value
  | .int value => int value
  | .string value => string value
  | .enum value => enum value
  | .record ⟨type, slots, assigned⟩ => record type slots assigned fun value _ =>
      induct int string enum record array absent value
  | .array elements => array elements fun element _ =>
      induct int string enum record array absent element
  | .absent => absent
termination_by value => sizeOf value
decreasing_by
  · have hless := List.sizeOf_lt_of_mem ‹some value ∈ slots›
    rw [Option.some.sizeOf_spec] at hless
    simp only [Value.record.sizeOf_spec, Record.mk.sizeOf_spec]
    omega
  · decreasing_tactic

mutual

/-- The record itself and every record inside it, through fields and arrays. -/
def Record.records : Record κ → List (Record κ)
  | ⟨type, slots, assigned⟩ => ⟨type, slots, assigned⟩ :: Value.recordsOfSlots slots
termination_by structural record => record

def Value.records : Value κ → List (Record κ)
  | .record given => given.records
  | .array elements => Value.recordsOfAll elements
  | _ => []
termination_by structural value => value

def Value.recordsOfAll : List (Value κ) → List (Record κ)
  | [] => []
  | element :: rest => element.records ++ Value.recordsOfAll rest
termination_by structural elements => elements

def Value.recordsOfSlots : List (Option (Value κ)) → List (Record κ)
  | [] => []
  | none :: rest => Value.recordsOfSlots rest
  | some value :: rest => value.records ++ Value.recordsOfSlots rest
termination_by structural slots => slots

end

theorem Value.mem_recordsOfAll {nested : Record κ} {elements : List (Value κ)} :
    nested ∈ Value.recordsOfAll elements ↔ ∃ element ∈ elements, nested ∈ element.records := by
  induction elements with
  | nil => simp [Value.recordsOfAll]
  | cons element rest ih => simp [Value.recordsOfAll, ih]

theorem Value.mem_recordsOfSlots {nested : Record κ} {slots : List (Option (Value κ))} :
    nested ∈ Value.recordsOfSlots slots ↔
      ∃ value, some value ∈ slots ∧ nested ∈ value.records := by
  induction slots with
  | nil => simp [Value.recordsOfSlots]
  | cons slot rest ih =>
      cases slot with
      | none => simp [Value.recordsOfSlots, ih]
      | some value => simp [Value.recordsOfSlots, ih, or_and_right, exists_or]

theorem Record.mem_records {nested record : Record κ} :
    nested ∈ record.records ↔
      nested = record ∨ ∃ value, some value ∈ record.slots ∧ nested ∈ value.records := by
  cases record
  rw [Record.records, List.mem_cons, Value.mem_recordsOfSlots]

end TreeSchema
