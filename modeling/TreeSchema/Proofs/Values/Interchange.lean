import TreeSchema.Proofs.Synthesis.Constants
import TreeSchema.Proofs.Values.Canonical
import TreeSchema.Proofs.Values.Reachable
import TreeSchema.Proofs.Values.Rendering

/-!
Equal values do as well in each other's place. The check, the fields without a
value and an assignment see of a value only what its canonical form keeps. A
rendering also shows the names of constants, which equality does not compare; but
a constant that a caller can have carries the name that its sum declares for its
tag, as long as the tags of the sum do not run out.
-/

namespace TreeSchema

variable {κ : Type}

/-! ### Names of constants -/

/-- Every sum of the schema has fewer constructors than there are tags. -/
def Synthesis.TagsSuffice (synthesis : Synthesis κ) : Prop :=
  ∀ definition ∈ synthesis.schema.definitions, ∀ sum, definition.body = .sum sum →
    sum.constructors.length < UInt32.size

/-- An enumeration of a synthesized namespace is of a sum that is defined. -/
theorem Synthesis.enum_of_run {synthesis : Synthesis κ} {space : Namespace κ}
    (hrun : synthesis.run = .ok space) {type : EnumType} (htype : .enum type ∈ space.types) :
    ∃ definition ∈ synthesis.schema.definitions, definition.body = .sum type.sum := by
  obtain ⟨definition, hdefinition, types, hgives, hmem, -⟩ := gives_of_run hrun htype
  refine ⟨definition, hdefinition, ?_⟩
  cases hgives with
  | product => simp at hmem
  | enumeration =>
      obtain rfl : type = _ := by simpa using hmem
      rfl
  | compound => simp at hmem

theorem EnumType.name_of_values {type : EnumType}
    (hsize : type.sum.constructors.length < UInt32.size) {value : EnumValue}
    (hmem : value ∈ type.values) :
    value.name = EnumValue.declaredName value.sum value.tag := by
  obtain ⟨position, hposition⟩ := List.mem_iff_getElem?.mp hmem
  have htag := toNat_tag hsize hposition
  obtain ⟨constructor, hconstructor, rfl⟩ := eq_of_values hposition
  rw [EnumValue.declaredName, htag, Nat.add_sub_cancel, hconstructor]
  rfl

theorem EnumValue.MadeBy.name_eq {sources : Synthesis κ → Prop}
    (hsizes : ∀ synthesis, sources synthesis → synthesis.TagsSuffice) {value : EnumValue}
    (h : value.MadeBy sources) : value.name = declaredName value.sum value.tag := by
  obtain ⟨synthesis, space, type, hsource, hrun, htype, hmem⟩ := h
  obtain ⟨definition, hdefinition, hbody⟩ := Synthesis.enum_of_run hrun htype
  exact EnumType.name_of_values (hsizes synthesis hsource definition hdefinition _ hbody) hmem

/-! ### What is seen of a value -/

theorem Value.views_eq (elements : List (Value κ)) : views elements = elements.map view := by
  induction elements with
  | nil => rfl
  | cons element rest ih => rw [views, ih, List.map_cons]

/-- A value looks like its canonical form. -/
theorem Value.Reachable.view_canonical [FieldCheck κ] {sources : Synthesis κ → Prop}
    (hsizes : ∀ synthesis, sources synthesis → synthesis.TagsSuffice) {value : Value κ}
    (h : value.Reachable sources) : value.canonical.view = value.view := by
  induction value with
  | int | string | absent => rfl
  | enum constant =>
      cases h with
      | enum hmade =>
          -- equality does not compare names, so the name has to be the declared one
          rw [Value.canonical, Value.view, Value.view, hmade.name_eq hsizes]
          rfl
  | array elements ih =>
      cases h with
      | array helements =>
          have hviews : (elements.map Value.canonical).map Value.view = elements.map Value.view := by
            rw [List.map_map]
            exact List.map_congr_left fun element hmem => ih element hmem (helements element hmem)
          rw [Value.canonical, Value.canonicalAll_eq, Value.view, Value.view, Value.views_eq,
            Value.views_eq, hviews]
  | record type slots assigned ih =>
      cases h with
      | record hrecord =>
          have hslots : (slots.map (Option.map Value.canonical)).map Value.slotView =
              slots.map Value.slotView := by
            rw [List.map_map]
            apply List.map_congr_left
            intro slot hmem
            cases slot with
            | none => rfl
            | some stored => exact ih stored hmem (hrecord.inShape.slot stored hmem)
          rw [Value.canonical, Record.canonical_eq, Value.view, Value.view, Record.view,
            Record.view, Value.slotViews_eq, Value.slotViews_eq, hslots]

theorem Value.conforms_canonical (value : Value κ) (desc : Desc) :
    value.canonical.conforms desc = value.conforms desc := by
  induction desc generalizing value with
  | int => cases value <;> rfl
  | string => cases value <;> rfl
  | maybe inner ih =>
      cases value with
      | absent => rfl
      | _ => exact ih _
  | array element ih =>
      cases value with
      | array elements =>
          rw [canonical, canonicalAll_eq, conforms, conforms, List.all_map]
          congr 1
          exact funext ih
      | _ => rfl
  | product declared =>
      cases value with
      | record given =>
          rw [canonical, Record.canonical_eq]
          rfl
      | _ => rfl
  | sum declared =>
      cases value with
      | record given =>
          rw [canonical, Record.canonical_eq]
          rfl
      | _ => rfl

theorem Record.unassigned_canonical (record : Record κ) :
    record.canonical.unassigned = record.unassigned := by
  rw [canonical_eq, unassigned, unassigned, List.zip_map_right, List.filterMap_map]
  apply List.filterMap_congr
  intro entry _
  obtain ⟨field, slot⟩ := entry
  cases slot <;> rfl

/-! ### Equal values -/

section

variable [DecidableEq κ] {value other : Value κ} {left right : Record κ}

theorem Value.conforms_of_beq (h : (value == other) = true) (desc : Desc) :
    value.conforms desc = other.conforms desc := by
  rw [← conforms_canonical value, beq_iff.mp h, conforms_canonical]

theorem Record.unassigned_of_beq (h : (left == right) = true) :
    left.unassigned = right.unassigned := by
  obtain ⟨htype, hslots⟩ := beq_iff.mp h
  rw [← unassigned_canonical left, canonical_eq, htype, hslots, ← canonical_eq,
    unassigned_canonical]

variable [FieldCheck κ] {sources : Synthesis κ → Prop}

theorem Value.view_of_beq
    (hsizes : ∀ synthesis, sources synthesis → synthesis.TagsSuffice)
    (hvalue : value.Reachable sources) (hother : other.Reachable sources)
    (h : (value == other) = true) : value.view = other.view := by
  rw [← hvalue.view_canonical hsizes, beq_iff.mp h, hother.view_canonical hsizes]

/-- Calls with equal values on equal records fail alike or leave equal records. -/
def Record.SameOutcome (first second : Except AssignError (Record κ)) : Prop :=
  (∃ error, first = .error error ∧ second = .error error) ∨
    ∃ next after, first = .ok next ∧ second = .ok after ∧ (next == after) = true

namespace Record

/-- An assignment at one position, of equal values to equal records. -/
theorem assign_sameOutcome (hrecords : (left == right) = true)
    (hchecking : left.type.checking = .descriptor) (hvalues : (value == other) = true) {index : Nat}
    (hassigned : left.assigned.contains index = right.assigned.contains index)
    (field : TypedField) :
    SameOutcome (left.assign index field value) (right.assign index field other) := by
  obtain ⟨htype, hslots⟩ := beq_iff.mp hrecords
  have haccepts : right.type.checking.accepts other field.desc =
      left.type.checking.accepts value field.desc := by
    rw [← htype, hchecking]
    exact (Value.conforms_of_beq hvalues field.desc).symm
  unfold assign typeName
  rw [← hassigned, haccepts, ← htype]
  split
  · exact .inl ⟨_, rfl, rfl⟩
  split
  · refine .inr ⟨_, _, rfl, rfl, beq_iff.mpr ⟨rfl, ?_⟩⟩
    simp only [List.map_set, hslots, Option.map_some, Value.beq_iff.mp hvalues]
  · exact .inl ⟨_, rfl, rfl⟩

theorem set_sameOutcome (hrecords : (left == right) = true)
    (hchecking : left.type.checking = .descriptor)
    (hassigned : ∀ name, left.isAssigned name = right.isAssigned name)
    (hvalues : (value == other) = true) (name : String) :
    SameOutcome (left.set name value) (right.set name other) := by
  have htype := (beq_iff.mp hrecords).1
  have hname := hassigned name
  unfold isAssigned RecordType.fieldIndex? at hname
  unfold set typeName
  rw [← htype] at hname ⊢
  cases hfound : Named.locate name left.type.fields with
  | none => exact .inl ⟨_, rfl, rfl⟩
  | some found =>
      rw [hfound] at hname
      exact assign_sameOutcome hrecords hchecking hvalues hname found.2

end Record

end

/-- Equal values that a caller can have are interchangeable when tags suffice. They
render alike in every style and conform to the same types; equal records lack the
same fields. Where the standard check applies and the same fields are assigned,
assigning either of them to a field of either of two equal records fails with the
same error or leaves equal records. -/
theorem Value.equal_interchangeable [DecidableEq κ] [FieldCheck κ]
    {sources : Synthesis κ → Prop}
    (hsizes : ∀ synthesis, sources synthesis → synthesis.TagsSuffice) {value other : Value κ}
    (hvalue : value.Reachable sources) (hother : other.Reachable sources)
    (hequal : (value == other) = true) :
    (∀ style, value.render style = other.render style) ∧
      (∀ desc, value.conforms desc = other.conforms desc) ∧
      (∀ left right : Record κ, value = .record left → other = .record right →
        left.unassigned = right.unassigned ∧ ∀ style, left.render style = right.render style) ∧
      ∀ left right : Record κ, (left == right) = true → left.type.checking = .descriptor →
        (∀ name, left.isAssigned name = right.isAssigned name) → ∀ field,
        (∃ error, left.set field value = .error error ∧ right.set field other = .error error) ∨
          ∃ next after, left.set field value = .ok next ∧ right.set field other = .ok after ∧
            (next == after) = true := by
  have hview := view_of_beq hsizes hvalue hother hequal
  refine ⟨?_, conforms_of_beq hequal, ?_, ?_⟩
  · intro style
    rw [render, render, hview]
  · rintro left right rfl rfl
    have hrecords : left.view = right.view := by simpa [view] using hview
    refine ⟨Record.unassigned_of_beq hequal, ?_⟩
    intro style
    rw [Record.render, Record.render, hrecords]
  · intro left right hrecords hchecking hassigned field
    exact Record.set_sameOutcome hrecords hchecking hassigned hequal field

/-- A constant of one synthesis in place of the same constant of another. -/
theorem Value.equal_interchangeable_constants :
    let op : Sum := ⟨0, "op", [.unit "Plus", .unit "Minus"]⟩
    let unary : Product := ⟨1, "unary", [⟨"op", "op", false, false⟩]⟩
    let schema : Schema := ⟨"lang", [⟨"op", .sum op⟩, ⟨"unary", .product unary⟩]⟩
    let synthesis : Nat → Synthesis Empty := fun generation => ⟨generation, schema, .descriptor⟩
    let type : Nat → RecordType Empty := fun generation =>
      ⟨generation, "unary", .product unary, [⟨"op", .sum op⟩], .descriptor⟩
    let plus : Nat → EnumValue := fun generation => ⟨generation, op, 1, "Plus"⟩
    let value : Nat → Value Empty := fun generation => .enum (plus generation)
    (∀ generation, plus generation ∈ (⟨generation, op⟩ : EnumType).values ∧
      (synthesis generation).run =
        .ok ⟨[.enum ⟨generation, op⟩, .record (type generation)], []⟩) ∧
      plus 0 ≠ plus 1 ∧ (∀ style, (value 0).render style = (value 1).render style) ∧
      ∃ next after, (Record.blank (type 0)).set "op" (value 0) = .ok next ∧
        (Record.blank (type 0)).set "op" (value 1) = .ok after ∧ (next == after) = true := by
  intro op unary schema synthesis type plus value
  have hreachable (generation : Nat) :
      (value generation).Reachable fun given : Synthesis Empty => given.schema = schema :=
    .enum ⟨synthesis generation, _, ⟨generation, op⟩, rfl, rfl, List.mem_cons_self,
      List.mem_cons_self⟩
  have hsizes : ∀ given : Synthesis Empty, given.schema = schema → given.TagsSuffice := by
    intro given hschema definition hdefinition sum hbody
    rw [hschema] at hdefinition
    rcases List.mem_pair.mp hdefinition with rfl | rfl
    · cases hbody
      decide
    · cases hbody
  have hequal : (value 0 == value 1) = true := by decide
  obtain ⟨hrender, -, -, hset⟩ :=
    Value.equal_interchangeable hsizes (hreachable 0) (hreachable 1) hequal
  have hplaced : (Record.blank (type 0)).set "op" (value 0) =
      .ok ⟨type 0, [some (value 0)], ((IndexSet.withSize 1).insert 0).1⟩ := by
    simp only [type, value, plus, unary, op]
    rfl
  refine ⟨fun _ => ⟨List.mem_cons_self, rfl⟩, by decide, hrender, ?_⟩
  refine (hset _ (.blank (type 0)) BEq.rfl rfl (fun _ => rfl) "op").resolve_left ?_
  rintro ⟨error, herror, -⟩
  rw [hplaced] at herror
  cases herror

end TreeSchema
