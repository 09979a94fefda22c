import TreeSchema.Proofs.Synthesis.Bindings
import TreeSchema.Proofs.Values.Assignments
import TreeSchema.Proofs.Values.Nesting

/-!
Records of standard types hold what their fields accept. The check of a value
looks at the type of a nested record only, but every record that was built from
checked values is checked at every depth, because each step of a construction
keeps all of its records checked.
-/

namespace TreeSchema

variable {κ : Type}

/-- A type from a schema that was synthesized with the standard check. -/
def RecordType.Standard (type : RecordType κ) : Prop :=
  ∃ (synthesis : Synthesis κ) (space : Namespace κ),
    synthesis.checking = .descriptor ∧ synthesis.run = .ok space ∧ space.Holds type

namespace RecordType.Standard

variable {type : RecordType κ}

theorem checking (h : type.Standard) : type.checking = .descriptor := by
  obtain ⟨synthesis, space, hchecking, hrun, hholds⟩ := h
  exact (Synthesis.shared_of_holds hrun hholds).2.trans hchecking

theorem distinct (h : type.Standard) : type.fieldNames.Nodup := by
  obtain ⟨synthesis, space, -, hrun, hholds⟩ := h
  exact Synthesis.fieldNames_nodup hrun hholds

end RecordType.Standard

/-- Every stored value conforms to the type of its field. -/
structure Record.Checked (record : Record κ) : Prop where
  checking : record.type.checking = .descriptor
  distinct : record.type.fieldNames.Nodup
  length : record.slots.length = record.type.fields.length
  conforms : ∀ (index : Nat) (field : TypedField) (value : Value κ),
    record.type.fields[index]? = some field → record.slots[index]? = some (some value) →
    value.conforms field.desc = true

def Value.DeeplyChecked (value : Value κ) : Prop :=
  ∀ nested ∈ value.records, nested.Checked

def Record.DeeplyChecked (record : Record κ) : Prop :=
  ∀ nested ∈ record.records, nested.Checked

namespace Record.DeeplyChecked

variable {record : Record κ}

theorem intro (hchecked : record.Checked)
    (hslots : ∀ value, some value ∈ record.slots → value.DeeplyChecked) :
    record.DeeplyChecked := by
  intro nested hnested
  rcases mem_records.mp hnested with rfl | ⟨value, hslot, hnested⟩
  · exact hchecked
  · exact hslots value hslot nested hnested

theorem checked (h : record.DeeplyChecked) : record.Checked :=
  h record (mem_records.mpr (.inl rfl))

theorem slot (h : record.DeeplyChecked) {value : Value κ} (hslot : some value ∈ record.slots) :
    value.DeeplyChecked := by
  intro nested hnested
  exact h nested (mem_records.mpr (.inr ⟨value, hslot, hnested⟩))

end Record.DeeplyChecked

theorem Value.deeplyChecked_record {given : Record κ} :
    (Value.record given).DeeplyChecked ↔ given.DeeplyChecked := by
  rw [Value.DeeplyChecked, Value.records]
  rfl

theorem Value.DeeplyChecked.element {elements : List (Value κ)} {element : Value κ}
    (h : (Value.array elements).DeeplyChecked) (hmem : element ∈ elements) :
    element.DeeplyChecked := by
  intro nested hnested
  apply h
  rw [Value.records, Value.mem_recordsOfAll]
  exact ⟨element, hmem, hnested⟩

/-- A default is a value of its type without records in it. -/
theorem Desc.default?_checked {desc : Desc} {value : Value κ} (h : desc.default? = some value) :
    value.conforms desc = true ∧ value.DeeplyChecked := by
  cases desc with
  | maybe inner =>
      cases h
      exact ⟨by rw [Value.conforms], by simp [Value.DeeplyChecked, Value.records]⟩
  | array element =>
      cases h
      exact ⟨by simp [Value.conforms], by
        simp [Value.DeeplyChecked, Value.records, Value.mem_recordsOfAll]⟩
  | _ => cases h

namespace Record

theorem blank_deeplyChecked {type : RecordType κ} (htype : type.Standard) :
    (blank type).DeeplyChecked := by
  refine .intro ⟨htype.checking, htype.distinct, List.length_map _, ?_⟩ ?_
  · intro index field value (hfield : type.fields[index]? = some field) hslot
    simp only [blank, List.getElem?_map, hfield, Option.map_some, Option.some.injEq] at hslot
    exact (Desc.default?_checked hslot).1
  · intro value hslot
    obtain ⟨field, -, hdefault⟩ := List.mem_map.mp hslot
    exact (Desc.default?_checked hdefault).2

variable [FieldCheck κ]

/-- One assignment keeps every record checked. -/
theorem deeplyChecked_kept : Kept (κ := κ) DeeplyChecked Value.DeeplyChecked := by
  intro record next index field value h hvalue hfield hassign
  obtain ⟨haccepted, htype, hslots⟩ := assign_ok hassign
  have hchecked := h.checked
  have hconforms : value.conforms field.desc = true := by
    rw [hchecked.checking] at haccepted
    exact haccepted
  refine .intro ⟨?_, ?_, ?_, ?_⟩ ?_
  · rw [htype]
    exact hchecked.checking
  · rw [htype]
    exact hchecked.distinct
  · rw [htype, hslots, List.length_set]
    exact hchecked.length
  · intro position found stored hfound hstored
    rw [htype] at hfound
    rw [hslots, List.getElem?_set] at hstored
    split at hstored
    case isTrue hsame =>
      obtain rfl : field = found := Option.some.inj (hfield.symm.trans (hsame ▸ hfound))
      split at hstored
      · obtain rfl : value = stored := by simpa using hstored
        exact hconforms
      · cases hstored
    case isFalse => exact hchecked.conforms position found stored hfound hstored
  · intro stored hstored
    rw [hslots] at hstored
    rcases List.mem_or_eq_of_mem_set hstored with hold | hnew
    · exact h.slot hold
    · cases hnew
      exact hvalue

end Record

variable [FieldCheck κ]

mutual

/-- Records of standard types as a caller can make them: from nothing, from
arguments, through a builder, and by further assignments. -/
inductive Record.Built : Record κ → Prop
  | blank {type : RecordType κ} : type.Standard → Record.Built (Record.blank type)
  | construct {type : RecordType κ} {positional : List (Value κ)}
      {named : List (String × Value κ)} {record : Record κ} : type.Standard →
      (∀ value ∈ positional, Value.Built value) → (∀ binding ∈ named, Value.Built binding.2) →
      Record.construct type positional named = .ok record → Record.Built record
  | build {builder : RecordBuilder κ} {record : Record κ} : builder.type.Standard →
      (∀ value ∈ builder.positional, Value.Built value) →
      (∀ binding ∈ builder.named, Value.Built binding.2) →
      builder.build = .ok record → Record.Built record
  | set {record next : Record κ} {field : String} {value : Value κ} : Record.Built record →
      Value.Built value → record.set field value = .ok next → Record.Built next

/-- Values with only such records in them. -/
inductive Value.Built : Value κ → Prop
  | int (value : Int) : Value.Built (.int value)
  | string (value : String) : Value.Built (.string value)
  | enum (value : EnumValue) : Value.Built (.enum value)
  | record {value : Record κ} : Record.Built value → Value.Built (.record value)
  | array {elements : List (Value κ)} : (∀ element ∈ elements, Value.Built element) →
      Value.Built (.array elements)
  | absent : Value.Built .absent

end

mutual

theorem Record.Built.deeplyChecked {record : Record κ} : record.Built → record.DeeplyChecked
  | .blank htype => Record.blank_deeplyChecked htype
  | .construct htype hpositional hnamed hrecord =>
      Record.deeplyChecked_kept.construct (Record.blank_deeplyChecked htype)
        (fun value hmem => (hpositional value hmem).deeplyChecked)
        (fun binding hmem => (hnamed binding hmem).deeplyChecked) hrecord
  | .build htype hpositional hnamed hrecord =>
      Record.deeplyChecked_kept.construct (Record.blank_deeplyChecked htype)
        (fun value hmem => (hpositional value hmem).deeplyChecked)
        (fun binding hmem => (hnamed binding hmem).deeplyChecked) hrecord
  | .set hrecord hvalue hset =>
      Record.deeplyChecked_kept.set hrecord.deeplyChecked hvalue.deeplyChecked hset

theorem Value.Built.deeplyChecked {value : Value κ} : value.Built → value.DeeplyChecked
  | .int _ | .string _ | .enum _ | .absent => by simp [Value.DeeplyChecked, Value.records]
  | .record hrecord => Value.deeplyChecked_record.mpr hrecord.deeplyChecked
  | .array helements => by
      intro nested hnested
      rw [Value.records, Value.mem_recordsOfAll] at hnested
      obtain ⟨element, hmem, hnested⟩ := hnested
      exact (helements element hmem).deeplyChecked nested hnested

end

end TreeSchema
