import TreeSchema.Proofs.Synthesis.Bindings
import TreeSchema.Proofs.Values.Assignments

/-!
Values that a caller can have. Record types and constants come from the
namespaces of any number of synthesized schemas, whatever their check, and
records are filled in every way there is. Each assignment keeps a record in
shape: as many slots as fields, with nothing but such values in them.
-/

namespace TreeSchema

variable {κ : Type}

/-- A record type of a namespace that one of the syntheses made. -/
def RecordType.MadeBy (sources : Synthesis κ → Prop) (type : RecordType κ) : Prop :=
  ∃ synthesis space, sources synthesis ∧ synthesis.run = .ok space ∧ space.Holds type

/-- A constant of an enumeration that one of the syntheses made. -/
def EnumValue.MadeBy (sources : Synthesis κ → Prop) (value : EnumValue) : Prop :=
  ∃ synthesis space type, sources synthesis ∧ synthesis.run = .ok space ∧
    .enum type ∈ space.types ∧ value ∈ type.values

theorem RecordType.MadeBy.distinct {sources : Synthesis κ → Prop} {type : RecordType κ}
    (h : type.MadeBy sources) : type.fieldNames.Nodup := by
  obtain ⟨synthesis, space, -, hrun, hholds⟩ := h
  exact Synthesis.fieldNames_nodup hrun hholds

variable [FieldCheck κ]

mutual

/-- Records of such types: with nothing assigned, from arguments, through a
builder, and by further assignments. -/
inductive Record.Reachable (sources : Synthesis κ → Prop) : Record κ → Prop
  | blank {type : RecordType κ} : type.MadeBy sources →
      Record.Reachable sources (Record.blank type)
  | construct {type : RecordType κ} {positional : List (Value κ)}
      {named : List (String × Value κ)} {record : Record κ} : type.MadeBy sources →
      (∀ value ∈ positional, Value.Reachable sources value) →
      (∀ binding ∈ named, Value.Reachable sources binding.2) →
      Record.construct type positional named = .ok record → Record.Reachable sources record
  | build {builder : RecordBuilder κ} {record : Record κ} : builder.type.MadeBy sources →
      (∀ value ∈ builder.positional, Value.Reachable sources value) →
      (∀ binding ∈ builder.named, Value.Reachable sources binding.2) →
      builder.build = .ok record → Record.Reachable sources record
  | set {record next : Record κ} {field : String} {value : Value κ} :
      Record.Reachable sources record → Value.Reachable sources value →
      record.set field value = .ok next → Record.Reachable sources next

/-- Values with only such records and such constants in them. -/
inductive Value.Reachable (sources : Synthesis κ → Prop) : Value κ → Prop
  | int (value : Int) : Value.Reachable sources (.int value)
  | string (value : String) : Value.Reachable sources (.string value)
  | enum {value : EnumValue} : value.MadeBy sources → Value.Reachable sources (.enum value)
  | record {value : Record κ} : Record.Reachable sources value →
      Value.Reachable sources (.record value)
  | array {elements : List (Value κ)} : (∀ element ∈ elements, Value.Reachable sources element) →
      Value.Reachable sources (.array elements)
  | absent : Value.Reachable sources .absent

end

/-- A record with a slot per field of a synthesized type. -/
structure Record.InShape (sources : Synthesis κ → Prop) (record : Record κ) : Prop where
  made : record.type.MadeBy sources
  length : record.slots.length = record.type.fields.length
  slot : ∀ value, some value ∈ record.slots → value.Reachable sources

variable {sources : Synthesis κ → Prop}

theorem Desc.default?_reachable {desc : Desc} {value : Value κ} (h : desc.default? = some value) :
    value.Reachable sources := by
  cases desc with
  | maybe inner =>
      cases h
      exact .absent
  | array element =>
      cases h
      exact .array nofun
  | _ => cases h

namespace Record

theorem blank_inShape {type : RecordType κ} (htype : type.MadeBy sources) :
    (blank type).InShape sources where
  made := htype
  length := List.length_map _
  slot value hslot := by
    obtain ⟨field, -, hdefault⟩ := List.mem_map.mp hslot
    exact Desc.default?_reachable hdefault

theorem inShape_kept : Kept (InShape sources) (Value.Reachable sources) := by
  intro record next index field value h hvalue _ hassign
  obtain ⟨-, htype, hslots⟩ := assign_ok hassign
  refine ⟨htype ▸ h.made, ?_, ?_⟩
  · rw [htype, hslots, List.length_set]
    exact h.length
  · intro stored hstored
    rw [hslots] at hstored
    rcases List.mem_or_eq_of_mem_set hstored with hold | hnew
    · exact h.slot stored hold
    · cases hnew
      exact hvalue

theorem Reachable.inShape {record : Record κ} : record.Reachable sources → record.InShape sources
  | .blank htype => blank_inShape htype
  | .construct htype hpositional hnamed hrecord | .build htype hpositional hnamed hrecord =>
      inShape_kept.construct (blank_inShape htype) hpositional hnamed hrecord
  | .set hrecord hvalue hset => inShape_kept.set hrecord.inShape hvalue hset

end Record

end TreeSchema
