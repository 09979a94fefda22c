import TreeSchema.Values.Assign
import TreeSchema.Proofs.Values.IndexSet

/-!
What a record stores. The slots, the set of assigned indices, the name index
and the defaults of a record agree on one table of given values; assigning a
field adds to the table what the field had not been given yet.
-/

namespace TreeSchema

variable {κ : Type}

theorem Desc.default?_isSome (desc : Desc) :
    (desc.default? : Option (Value κ)).isSome = desc.hasDefault := by
  cases desc <;> rfl

theorem RecordType.fieldIndex?_name {type : RecordType κ} (hdistinct : type.fieldNames.Nodup)
    {index : Nat} {field : TypedField} (hindex : type.fields[index]? = some field) :
    type.fieldIndex? field.name = some index := by
  have hlocate : Named.locate field.name type.fields = some (index, field) :=
    Named.locate_name hdistinct hindex
  rw [fieldIndex?, hlocate]
  rfl

theorem RecordType.index_ne {type : RecordType κ} {index other : Nat} {field : TypedField}
    (hindex : type.fields[index]? = some field) (hbeyond : type.fields[other]? = none) :
    index ≠ other := by
  rintro rfl
  rw [hindex] at hbeyond
  cases hbeyond

/-- Only the field at its own position has the name of a field. -/
theorem RecordType.name_eq_iff {type : RecordType κ} (hdistinct : type.fieldNames.Nodup)
    {index other : Nat} {field found : TypedField} (hindex : type.fields[index]? = some field)
    (hother : type.fields[other]? = some found) : found.name = field.name ↔ index = other := by
  constructor
  · intro hname
    have hfirst := fieldIndex?_name hdistinct hindex
    rw [← hname, fieldIndex?_name hdistinct hother] at hfirst
    exact (Option.some.inj hfirst).symm
  · rintro rfl
    rw [Option.some.inj (hother.symm.trans hindex)]

theorem RecordType.field_unique {type : RecordType κ} (hdistinct : type.fieldNames.Nodup)
    {field other : TypedField} (hmem : field ∈ type.fields) (hother : other ∈ type.fields)
    (hname : other.name = field.name) : other = field := by
  obtain ⟨index, hindex⟩ := List.mem_iff_getElem?.mp hmem
  obtain ⟨position, hposition⟩ := List.mem_iff_getElem?.mp hother
  obtain rfl := (name_eq_iff hdistinct hindex hposition).mp hname
  exact Option.some.inj (hposition.symm.trans hindex)

namespace Record

/-- An assignment that goes through has an accepted value, and what it changes. -/
theorem assign_eq_ok [FieldCheck κ] {record next : Record κ} {index : Nat} {field : TypedField}
    {value : Value κ} (h : record.assign index field value = .ok next) :
    record.type.checking.accepts value field.desc = true ∧
      next = { record with
        slots := record.slots.set index (some value)
        assigned := (record.assigned.insert index).1 } := by
  unfold assign at h
  split at h
  · cases h
  · split at h
    case isTrue haccepted =>
      cases h
      exact ⟨haccepted, rfl⟩
    case isFalse => cases h

/-- A field is assigned by name at its position. -/
theorem set_name [FieldCheck κ] {record : Record κ} {type : RecordType κ}
    (hdistinct : type.fieldNames.Nodup) (htype : record.type = type) {index : Nat}
    {field : TypedField} (hindex : type.fields[index]? = some field) (value : Value κ) :
    record.set field.name value = record.assign index field value := by
  have hlocate : Named.locate field.name type.fields = some (index, field) :=
    Named.locate_name hdistinct hindex
  unfold set
  rw [htype, hlocate]

/-- The record holds the values that its fields were given, a default where
there is none, and has exactly the fields with a given value assigned. -/
structure Stores (record : Record κ) (type : RecordType κ)
    (given : TypedField → Option (Value κ)) : Prop where
  ofType : record.type = type
  slots : record.slots = type.fields.map fun field => (given field).or field.desc.default?
  assigned : ∀ index, record.assigned.contains index =
    type.fields[index]?.any fun field => (given field).isSome

theorem blank_stores (type : RecordType κ) : (blank type).Stores type fun _ => none where
  ofType := rfl
  slots := rfl
  assigned index := by
    simp only [blank, IndexSet.contains_withSize]
    cases type.fields[index]? <;> rfl

namespace Stores

variable {record : Record κ} {type : RecordType κ} {given : TypedField → Option (Value κ)}

/-- Only the values given to fields of the type matter. -/
theorem congr (h : record.Stores type given) {other : TypedField → Option (Value κ)}
    (hsame : ∀ field ∈ type.fields, given field = other field) : record.Stores type other where
  ofType := h.ofType
  slots := by
    rw [h.slots]
    apply List.map_congr_left
    intro field hmem
    rw [hsame field hmem]
  assigned index := by
    rw [h.assigned]
    cases hfield : type.fields[index]? with
    | none => rfl
    | some field => simp [hsame field (List.mem_of_getElem? hfield)]

theorem unassigned_eq (h : record.Stores type given) :
    record.unassigned =
      (type.fields.filter fun field => !field.desc.hasDefault && !(given field).isSome).map
        TypedField.name := by
  have hslot (field : TypedField) : ((given field).or field.desc.default?).isNone =
      (!field.desc.hasDefault && !(given field).isSome) := by
    rw [← Desc.default?_isSome (κ := κ)]
    cases given field <;> cases (field.desc.default? : Option (Value κ)) <;> rfl
  unfold unassigned
  rw [h.ofType, h.slots]
  induction type.fields with
  | nil => rfl
  | cons field rest ih =>
      simp only [List.map_cons, List.zip_cons_cons, List.filterMap_cons, List.filter_cons, hslot,
        ih]
      cases !field.desc.hasDefault && !(given field).isSome <;> rfl

theorem set_unknown [FieldCheck κ] (h : record.Stores type given) {name : String}
    (hunknown : name ∉ type.fieldNames) (value : Value κ) :
    record.set name value = .error (.unknownField type.name name) := by
  unfold set typeName
  rw [h.ofType, Named.locate_eq_none_iff.mpr hunknown]

theorem assign_ne_unknown [FieldCheck κ] (record : Record κ) (index : Nat) (field : TypedField)
    (value : Value κ) (typeName name : String) :
    record.assign index field value ≠ .error (.unknownField typeName name) := by
  unfold assign
  split
  · exact nofun
  · split <;> exact nofun

theorem set_unknown_iff [FieldCheck κ] (h : record.Stores type given) (name : String)
    (value : Value κ) :
    record.set name value = .error (.unknownField type.name name) ↔ name ∉ type.fieldNames := by
  constructor
  · intro hset hknown
    unfold set at hset
    rw [h.ofType] at hset
    split at hset
    case h_1 hnone => exact Named.locate_eq_none_iff.mp hnone hknown
    case h_2 => exact assign_ne_unknown _ _ _ _ _ _ hset
  · intro hunknown
    exact h.set_unknown hunknown value

theorem contains_ungiven (h : record.Stores type given) {index : Nat} {field : TypedField}
    (hindex : type.fields[index]? = some field) (hgiven : given field = none) :
    ¬ record.assigned.contains index = true := by
  rw [h.assigned, hindex]
  simp [hgiven]

variable (hdistinct : type.fieldNames.Nodup)
include hdistinct

theorem get?_field (h : record.Stores type given) {field : TypedField}
    (hmem : field ∈ type.fields) :
    record.get? field.name = (given field).or field.desc.default? := by
  obtain ⟨index, hindex⟩ := List.mem_iff_getElem?.mp hmem
  unfold get?
  rw [h.ofType, RecordType.fieldIndex?_name hdistinct hindex, h.slots]
  simp [hindex]

theorem isAssigned_field (h : record.Stores type given) {field : TypedField}
    (hmem : field ∈ type.fields) : record.isAssigned field.name = (given field).isSome := by
  obtain ⟨index, hindex⟩ := List.mem_iff_getElem?.mp hmem
  unfold isAssigned
  rw [h.ofType, RecordType.fieldIndex?_name hdistinct hindex]
  simp [h.assigned, hindex]

theorem store (h : record.Stores type given) {index : Nat} {field : TypedField}
    (hindex : type.fields[index]? = some field) (value : Value κ) :
    Stores { record with
      slots := record.slots.set index (some value)
      assigned := (record.assigned.insert index).1 } type
      fun other => if other.name = field.name then some value else given other where
  ofType := h.ofType
  slots := by
    apply List.ext_getElem?
    intro position
    have hlength : index < (type.fields.map fun field =>
        (given field).or field.desc.default?).length := by
      rw [List.length_map]
      exact (List.getElem?_eq_some_iff.mp hindex).1
    simp only [h.slots, List.getElem?_set, hlength, List.getElem?_map, if_true]
    cases hfound : type.fields[position]? with
    | none =>
        have hother : index ≠ position := RecordType.index_ne hindex hfound
        rw [if_neg hother]
        rfl
    | some found =>
        simp only [Option.map_some, RecordType.name_eq_iff hdistinct hindex hfound]
        split <;> rfl
  assigned position := by
    rw [IndexSet.contains_insert, h.assigned]
    cases hfound : type.fields[position]? with
    | none =>
        have hother : index ≠ position := RecordType.index_ne hindex hfound
        simp [hother]
    | some found =>
        have hname := RecordType.name_eq_iff hdistinct hindex hfound
        by_cases hsame : index = position <;> simp [hname, hsame]

variable [FieldCheck κ]

theorem set_again (h : record.Stores type given) {field : TypedField}
    (hmem : field ∈ type.fields) (hgiven : (given field).isSome) (value : Value κ) :
    record.set field.name value = .error (.assignedTwice type.name field.name) := by
  obtain ⟨index, hindex⟩ := List.mem_iff_getElem?.mp hmem
  have hcontains : record.assigned.contains index = true := by
    rw [h.assigned, hindex]
    exact hgiven
  rw [set_name hdistinct h.ofType hindex, assign, if_pos hcontains, typeName, h.ofType]

theorem set_refused (h : record.Stores type given) {field : TypedField}
    (hmem : field ∈ type.fields) (hgiven : given field = none) {value : Value κ}
    (hrefused : type.checking.accepts value field.desc = false) :
    record.set field.name value = .error (.mismatch type.name field.name field.desc) := by
  obtain ⟨index, hindex⟩ := List.mem_iff_getElem?.mp hmem
  rw [set_name hdistinct h.ofType hindex, assign, if_neg (h.contains_ungiven hindex hgiven),
    typeName, h.ofType, hrefused]
  rfl

/-- An accepted value is given to its field and to no other. -/
theorem set_accepted (h : record.Stores type given) {field : TypedField}
    (hmem : field ∈ type.fields) (hgiven : given field = none) {value : Value κ}
    (haccepted : type.checking.accepts value field.desc = true) :
    ∃ next, record.set field.name value = .ok next ∧
      next.Stores type fun other =>
        if other.name = field.name then some value else given other := by
  obtain ⟨index, hindex⟩ := List.mem_iff_getElem?.mp hmem
  refine ⟨_, ?_, h.store hdistinct hindex value⟩
  rw [set_name hdistinct h.ofType hindex, assign, if_neg (h.contains_ungiven hindex hgiven),
    h.ofType, if_pos haccepted]

/-- The three ways in which a call on a field of a stored record can end. -/
theorem set_field_iff (h : record.Stores type given) {field : TypedField}
    (hmem : field ∈ type.fields) (value : Value κ) :
    (record.set field.name value = .error (.assignedTwice type.name field.name) ↔
        (given field).isSome) ∧
      (record.set field.name value = .error (.mismatch type.name field.name field.desc) ↔
        ¬ (given field).isSome ∧ type.checking.accepts value field.desc = false) ∧
      ((∃ next, record.set field.name value = .ok next) ↔
        ¬ (given field).isSome ∧ type.checking.accepts value field.desc = true) := by
  cases hgiven : given field with
  | some earlier =>
      rw [h.set_again hdistinct hmem (by rw [hgiven]; rfl)]
      simp
  | none =>
      cases hcheck : type.checking.accepts value field.desc with
      | false =>
          rw [h.set_refused hdistinct hmem hgiven hcheck]
          simp
      | true =>
          obtain ⟨next, hset, -⟩ := h.set_accepted hdistinct hmem hgiven hcheck
          rw [hset]
          simp

end Stores

end Record

end TreeSchema
