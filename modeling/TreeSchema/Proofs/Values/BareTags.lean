import TreeSchema.Proofs.Values.Interchange

/-!
Bare tags in the place of constants. A simple sum accepts an integer just when it
is the tag of one of its constants, and a field of a checked record that holds a
constant has a simple sum for its type. So the constants in a checked record can be
replaced by their tags, any of them and at any depth: the record still holds what
its fields accept, and with constants written by tag nothing shows the difference.
-/

namespace TreeSchema

open Render

variable {κ : Type}

/-! ### Tags of constants -/

namespace EnumType

variable {type : EnumType}

theorem exists_position_of_byTag? {tag : UInt32} {value : EnumValue} (h : type.byTag? tag = some value) :
    ∃ position, type.values[position]? = some value ∧ tag.toNat = position + 1 := by
  unfold byTag? at h
  split at h
  case isTrue => cases h
  case isFalse hnonzero =>
    have hpositive : tag.toNat ≠ 0 := fun hzero => hnonzero (UInt32.toNat_inj.mp hzero)
    refine ⟨tag.toNat - 1, h, ?_⟩
    omega

theorem sum_of_values {value : EnumValue} (h : value ∈ type.values) : value.sum = type.sum := by
  obtain ⟨position, hposition⟩ := List.mem_iff_getElem?.mp h
  obtain ⟨constructor, -, rfl⟩ := eq_of_values hposition
  rfl

/-- The tag of a constant is the number of a constructor, counted from one. -/
theorem tag_of_values (hsize : type.sum.constructors.length < UInt32.size) {value : EnumValue}
    (h : value ∈ type.values) :
    1 ≤ value.tag.toNat ∧ value.tag.toNat ≤ value.sum.constructors.length := by
  obtain ⟨position, hposition⟩ := List.mem_iff_getElem?.mp h
  have hbound : position < type.values.length := (List.getElem?_eq_some_iff.mp hposition).1
  rw [length_values] at hbound
  rw [toNat_tag hsize hposition, sum_of_values h]
  omega

end EnumType

theorem Value.int_conforms_sum_iff {declared : Sum} {k : Int} :
    (Value.int k : Value κ).conforms (.sum declared) = true ↔
      declared.isSimple = true ∧ 1 ≤ k ∧ k ≤ declared.constructors.length := by
  simp [conforms, and_assoc]

/-- An integer conforms to a simple sum when it is a tag that leads to a constant. -/
theorem EnumType.int_conforms_iff {type : EnumType} (hsimple : type.sum.isSimple = true)
    (hsize : type.sum.constructors.length < UInt32.size) (k : Int) :
    (Value.int k : Value κ).conforms (.sum type.sum) = true ↔
      ∃ tag value, (tag.toNat : Int) = k ∧ type.byTag? tag = some value := by
  rw [Value.int_conforms_sum_iff]
  constructor
  · rintro ⟨-, hpositive, hbound⟩
    have hsmall : k.toNat < UInt32.size := by omega
    have htag : (UInt32.ofNat k.toNat).toNat = k.toNat := UInt32.toNat_ofNat_of_lt' hsmall
    cases hfound : type.byTag? (UInt32.ofNat k.toNat) with
    | none =>
        rw [byTag?_eq_none_iff, htag] at hfound
        omega
    | some value =>
        refine ⟨UInt32.ofNat k.toNat, value, ?_, hfound⟩
        omega
  · rintro ⟨tag, value, rfl, hfound⟩
    have hsome : type.byTag? tag ≠ none := by
      rw [hfound]
      exact nofun
    rw [Ne, byTag?_eq_none_iff] at hsome
    exact ⟨hsimple, by omega, by omega⟩

/-- A constant that a tag leads to has this tag, and is of the sum. -/
theorem EnumType.byTag?_conforms {type : EnumType} (hsimple : type.sum.isSimple = true)
    (hsize : type.sum.constructors.length < UInt32.size) {tag : UInt32} {value : EnumValue}
    (h : type.byTag? tag = some value) :
    value.tag = tag ∧ (Value.enum value : Value κ).conforms (.sum type.sum) = true := by
  obtain ⟨position, hposition, htag⟩ := exists_position_of_byTag? h
  constructor
  · apply UInt32.toNat_inj.mp
    rw [toNat_tag hsize hposition, htag]
  · have hsum := sum_of_values (List.mem_of_getElem? hposition)
    simp [Value.conforms, hsimple, hsum]

/-- The tag of a constant that a caller can have is in range for its sum. -/
theorem EnumValue.MadeBy.tag_range {sources : Synthesis κ → Prop}
    (hsizes : ∀ synthesis, sources synthesis → synthesis.TagsSuffice) {value : EnumValue}
    (h : value.MadeBy sources) :
    1 ≤ value.tag.toNat ∧ value.tag.toNat ≤ value.sum.constructors.length := by
  obtain ⟨synthesis, space, type, hsource, hrun, htype, hmem⟩ := h
  obtain ⟨definition, hdefinition, hbody⟩ := Synthesis.enum_of_run hrun htype
  exact EnumType.tag_of_values (hsizes synthesis hsource definition hdefinition _ hbody) hmem

/-! ### Values with tags for constants -/

/-- The second value is the first one with some of its constants, at any depth,
replaced by their tags. -/
inductive Value.Retagged : Value κ → Value κ → Prop
  | same (value : Value κ) : Retagged value value
  | tag (constant : EnumValue) : Retagged (.enum constant) (.int constant.tag.toNat)
  | array {elements others : List (Value κ)} : List.Forall₂ Retagged elements others →
      Retagged (.array elements) (.array others)
  | record {type : RecordType κ} {slots others : List (Option (Value κ))} {assigned : IndexSet} :
      List.Forall₂ (Option.Rel Retagged) slots others →
      Retagged (.record ⟨type, slots, assigned⟩) (.record ⟨type, others, assigned⟩)

def Record.Retagged (record other : Record κ) : Prop :=
  (Value.record record).Retagged (.record other)

namespace Value.Retagged

theorem of_array {elements : List (Value κ)} {other : Value κ}
    (h : (Value.array elements).Retagged other) :
    ∃ others, other = .array others ∧ List.Forall₂ Retagged elements others := by
  cases h with
  | same => exact ⟨elements, rfl, List.forall₂_same.mpr fun element _ => .same element⟩
  | array hall => exact ⟨_, rfl, hall⟩

theorem of_record {record : Record κ} {other : Value κ}
    (h : (Value.record record).Retagged other) :
    ∃ given, other = .record given ∧ record.Retagged given := by
  cases h with
  | same => exact ⟨record, rfl, .same _⟩
  | record hall => exact ⟨_, rfl, .record hall⟩

end Value.Retagged

namespace Record.Retagged

variable {record other : Record κ}

theorem type_eq (h : record.Retagged other) : other.type = record.type := by
  cases h <;> rfl

theorem slots (h : record.Retagged other) :
    List.Forall₂ (Option.Rel Value.Retagged) record.slots other.slots := by
  cases h with
  | same =>
      refine List.forall₂_same.mpr fun slot _ => ?_
      cases slot with
      | none => exact .none
      | some value => exact .some (.same value)
  | record hall => exact hall

theorem get? (h : record.Retagged other) (field : String) :
    Option.Rel Value.Retagged (record.get? field) (other.get? field) := by
  unfold Record.get?
  rw [h.type_eq]
  cases record.type.fieldIndex? field with
  | none => exact .none
  | some index =>
      rw [Option.bind_some, Option.bind_some]
      rcases forall₂_getElem? h.slots index with
        ⟨hnone, hothers⟩ | ⟨slot, replaced, hslot, hothers, hretagged⟩
      · rw [hnone, hothers]
        exact .none
      · rw [hslot, hothers]
        exact hretagged

theorem slot (h : record.Retagged other) {index : Nat} {replaced : Value κ}
    (hslot : other.slots[index]? = some (some replaced)) :
    ∃ stored, record.slots[index]? = some (some stored) ∧ stored.Retagged replaced := by
  rcases forall₂_getElem? h.slots index with
    ⟨-, hnone⟩ | ⟨slot, found, hstored, hfound, hretagged⟩
  · rw [hslot] at hnone
    cases hnone
  · obtain rfl : some replaced = found := Option.some.inj (hslot.symm.trans hfound)
    cases hretagged with
    | some hretagged => exact ⟨_, hstored, hretagged⟩

end Record.Retagged

/-! ### What fields accept -/

/-- A field looks at no more of a record than its type. -/
theorem Value.conforms_record_congr {left right : Record κ} (htype : right.type = left.type)
    (desc : Desc) : (Value.record right).conforms desc = (Value.record left).conforms desc := by
  induction desc with
  | int | string | array => rfl
  | maybe inner ih => exact ih
  | product | sum => simp only [conforms, htype]

section

variable [FieldCheck κ] {sources : Synthesis κ → Prop}
  (hsizes : ∀ synthesis, sources synthesis → synthesis.TagsSuffice)

include hsizes

/-- A field that accepts a constant accepts its tag in its place, at any depth. The
induction is on the type: a check looks into arrays, but not into records. -/
theorem Value.Retagged.conforms {value other : Value κ} (h : value.Retagged other)
    (hvalue : value.Reachable sources) {desc : Desc} (hconforms : value.conforms desc = true) :
    other.conforms desc = true := by
  induction desc generalizing value other with
  | int | string =>
      cases h with
      | same => exact hconforms
      | _ => cases hconforms
  | maybe inner ih =>
      cases h with
      | same => exact hconforms
      | tag constant => exact ih (.tag constant) hvalue hconforms
      | array hall => exact ih (.array hall) hvalue hconforms
      | record hall => exact ih (.record hall) hvalue hconforms
  | array element ih =>
      cases h with
      | same => exact hconforms
      | array hall =>
          cases hvalue with
          | array hreachable =>
              simp only [Value.conforms, List.all_eq_true] at hconforms ⊢
              intro other hother
              obtain ⟨part, hpart, hretagged⟩ := forall₂_mem_right hall hother
              exact ih hretagged (hreachable part hpart) (hconforms part hpart)
      | _ => cases hconforms
  | product declared =>
      cases h with
      | same | record => exact hconforms
      | _ => cases hconforms
  | sum declared =>
      cases h with
      | same | record => exact hconforms
      | array => cases hconforms
      | tag constant =>
          -- a constant conforms by its sum alone; that its tag is one of this sum
          -- is known from where a caller has the constant from
          cases hvalue with
          | enum hmade =>
              obtain ⟨hsimple, rfl⟩ : declared.isSimple = true ∧ declared = constant.sum := by
                simpa [Value.conforms] using hconforms
              have hrange := hmade.tag_range hsizes
              exact int_conforms_sum_iff.mpr ⟨hsimple, by omega, by omega⟩

theorem Record.Retagged.checked {record other : Record κ} (h : record.Retagged other)
    (hslots : ∀ value, some value ∈ record.slots → value.Reachable sources)
    (hchecked : record.Checked) : other.Checked where
  checking := h.type_eq ▸ hchecked.checking
  distinct := h.type_eq ▸ hchecked.distinct
  length := by
    rw [h.type_eq, ← h.slots.length_eq]
    exact hchecked.length
  conforms index field replaced hfield hreplaced := by
    rw [h.type_eq] at hfield
    obtain ⟨stored, hstored, hretagged⟩ := h.slot hreplaced
    exact hretagged.conforms hsizes (hslots stored (List.mem_of_getElem? hstored))
      (hchecked.conforms index field stored hfield hstored)

/-- The records in a value stay checked when constants are replaced by their tags. -/
theorem Value.Retagged.deeplyChecked {value other : Value κ} (h : value.Retagged other)
    (hvalue : value.Reachable sources) (hdeep : value.DeeplyChecked) : other.DeeplyChecked := by
  induction value generalizing other with
  | int | string | absent =>
      cases h
      exact hdeep
  | enum constant =>
      cases h with
      | same => exact hdeep
      | tag => simp [DeeplyChecked, records]
  | array elements ih =>
      obtain ⟨others, rfl, hall⟩ := h.of_array
      cases hvalue with
      | array hreachable =>
          intro nested hnested
          rw [records, mem_recordsOfAll] at hnested
          obtain ⟨other, hother, hnested⟩ := hnested
          obtain ⟨part, hpart, hretagged⟩ := forall₂_mem_right hall hother
          exact ih part hpart hretagged (hreachable part hpart) (hdeep.element hpart) nested hnested
  | record type slots assigned ih =>
      obtain ⟨given, rfl, hgiven⟩ := h.of_record
      have hrecord := deeplyChecked_record.mp hdeep
      cases hvalue with
      | record hreachable =>
          have hslots := hreachable.inShape.slot
          refine deeplyChecked_record.mpr (.intro (hgiven.checked hsizes hslots hrecord.checked) ?_)
          intro replaced hreplaced
          obtain ⟨index, hreplaced⟩ := List.mem_iff_getElem?.mp hreplaced
          obtain ⟨stored, hstored, hretagged⟩ := hgiven.slot hreplaced
          have hmem : some stored ∈ slots := List.mem_of_getElem? hstored
          exact ih stored hmem hretagged (hslots stored hmem) (hrecord.slot hmem)

end

/-! ### Rendering with constants by tag -/

theorem Record.Checked.conforms_get? {record : Record κ} (h : record.Checked) {field : String}
    {desc : Desc} {value : Value κ} (hdesc : record.type.fieldDesc? field = some desc)
    (hvalue : record.get? field = some value) :
    some value ∈ record.slots ∧ value.conforms desc = true := by
  obtain ⟨⟨index, found⟩, hfound, rfl⟩ := Option.map_eq_some_iff.mp hdesc
  have hslot : record.slots[index]? = some (some value) := by
    simpa [Record.get?, RecordType.fieldIndex?, hfound, Option.join_eq_some_iff] using hvalue
  exact ⟨List.mem_of_getElem? hslot,
    h.conforms index found value (Named.locate_eq_some hfound).1 hslot⟩

/-- Two records of one type have the same tree when the values in their slots come
to the same children, each under the type of its field. -/
theorem Record.Checked.tree_retagged {record other : Record κ} (h : record.Checked)
    (hretagged : record.Retagged other) {style : Style}
    (hslots : ∀ value, some value ∈ record.slots → ∀ replaced, value.Retagged replaced →
      ∀ site desc, value.conforms desc = true →
      FieldView.children style site value.view desc =
        FieldView.children style site replaced.view desc) :
    record.view.tree style = other.view.tree style := by
  have hfields : record.view.fieldChildren style = other.view.fieldChildren style := by
    funext field
    simp only [NodeView.fieldChildren, record.view_eq, other.view_eq, hretagged.type_eq]
    cases hdesc : record.type.fieldDesc? field with
    | none => rfl
    | some desc =>
        have hget := hretagged.get? field
        have hstored : ∀ value, record.get? field = some value →
            some value ∈ record.slots ∧ value.conforms desc = true :=
          fun _ => h.conforms_get? hdesc
        generalize record.get? field = shown at hget hstored ⊢
        generalize other.get? field = replacedShown at hget ⊢
        cases hget with
        | none => rfl
        | some hvalue =>
            obtain ⟨hslot, hconforms⟩ := hstored _ rfl
            exact hslots _ hslot _ hvalue _ desc hconforms
  rw [NodeView.tree_eq, NodeView.tree_eq, hfields, record.view_eq, other.view_eq,
    hretagged.type_eq]

/-- A constant that conforms to a type comes to the same children as its tag, at any
depth. -/
theorem Value.Retagged.children_eq {value other : Value κ} (h : value.Retagged other)
    (hdeep : value.DeeplyChecked) {style : Style} (henums : style.enums = .tag) (site : Site)
    {desc : Desc} (hconforms : value.conforms desc = true) :
    FieldView.children style site value.view desc =
      FieldView.children style site other.view desc := by
  induction value generalizing other site desc with
  | int | string | absent =>
      cases h
      rfl
  | enum constant =>
      cases h with
      | same => rfl
      | tag =>
          have hfits := fits_of_conforms hconforms (by simp)
          rw [view, view, FieldView.children, FieldView.children]
          cases hform : Form.ofDesc desc with
          | name =>
              rw [Style.enumText, henums]
              rfl
          | _ => exact (hform ▸ hfits).elim
  | array elements ih =>
      obtain ⟨others, rfl, hall⟩ := h.of_array
      have hfits := fits_of_conforms hconforms (by simp)
      rw [view, view, FieldView.children, FieldView.children]
      cases hform : Form.ofDesc desc with
      | sequence element =>
          rw [hform] at hfits
          simp only [views_eq, FieldView.childrenOfAll_eq, List.mapM_map]
          congr 1
          refine mapM_congr_forall₂ ?_
          refine ((List.forall₂_and_left _ _).mpr ⟨fun _ hpart => hpart, hall⟩).imp ?_
          rintro part other ⟨hpart, hretagged⟩
          exact ih part hpart hretagged (hdeep.element hpart) site (hfits part hpart)
      | _ => exact (hform ▸ hfits).elim
  | record type slots assigned ih =>
      obtain ⟨given, rfl, hgiven⟩ := h.of_record
      have hrecord := deeplyChecked_record.mp hdeep
      have hfits := fits_of_conforms hconforms (by simp)
      rw [view, view, FieldView.children, FieldView.children]
      cases hform : Form.ofDesc desc with
      | record =>
          have htree : (Record.mk type slots assigned).view.tree style = given.view.tree style := by
            refine hrecord.checked.tree_retagged hgiven ?_
            intro stored hslot replaced hretagged inner expected hstored
            exact ih stored hslot hretagged (hrecord.slot hslot) inner hstored
          simp only [htree]
      | _ => exact (hform ▸ hfits).elim

theorem Record.Retagged.render_eq {record other : Record κ} (h : record.Retagged other)
    (hdeep : record.DeeplyChecked) {style : Style} (henums : style.enums = .tag) :
    record.render style = other.render style := by
  have htree : record.view.tree style = other.view.tree style := by
    refine hdeep.checked.tree_retagged h ?_
    intro stored hslot replaced hretagged site desc hconforms
    exact hretagged.children_eq (hdeep.slot hslot) henums site hconforms
  rw [render, render, NodeView.render, NodeView.render, htree]

/-- A simple sum accepts an integer when it is a tag that leads to a constant, which
then has this tag and is accepted as well. A record that was built from standard
types keeps its place when constants in it are replaced by their tags, any of them
and at any depth: the same fields accept it, it renders the same with constants
written by tag, and where tags suffice its own fields accept what they then hold. -/
theorem Value.tags_for_constants [FieldCheck κ] :
    (∀ type : EnumType, type.sum.isSimple = true →
      type.sum.constructors.length < UInt32.size →
      (∀ k : Int, (Value.int k : Value κ).conforms (.sum type.sum) = true ↔
        ∃ tag value, (tag.toNat : Int) = k ∧ type.byTag? tag = some value) ∧
      ∀ tag value, type.byTag? tag = some value →
        value.tag = tag ∧ (Value.enum value : Value κ).conforms (.sum type.sum) = true) ∧
    ∀ record other : Record κ, record.Built → record.Retagged other →
      (∀ desc, (Value.record other).conforms desc = (Value.record record).conforms desc) ∧
      (∀ style : Style, style.enums = .tag → other.render style = record.render style) ∧
      ∀ sources : Synthesis κ → Prop, (∀ synthesis, sources synthesis → synthesis.TagsSuffice) →
        record.Reachable sources → other.DeeplyChecked := by
  refine ⟨?_, ?_⟩
  · intro type hsimple hsize
    exact ⟨EnumType.int_conforms_iff hsimple hsize,
      fun _ _ => EnumType.byTag?_conforms hsimple hsize⟩
  · intro record other hbuilt hretagged
    have hdeep := hbuilt.deeplyChecked
    refine ⟨conforms_record_congr hretagged.type_eq, ?_, ?_⟩
    · intro style henums
      exact (hretagged.render_eq hdeep henums).symm
    · intro sources hsizes hreachable
      exact deeplyChecked_record.mp (Retagged.deeplyChecked hsizes hretagged (.record hreachable)
        (deeplyChecked_record.mpr hdeep))

/-- A nested record with a tag for a constant in a maybe and in an array. -/
theorem Value.tags_for_constants_nested :
    let op : Sum := ⟨0, "op", [.unit "Plus", .unit "Minus"]⟩
    let chain : Product := ⟨1, "chain", [⟨"first", "op", true, false⟩, ⟨"rest", "op", false, true⟩]⟩
    let outer : Product := ⟨2, "outer", [⟨"ops", "chain", false, false⟩]⟩
    let synthesis : Synthesis Empty := ⟨0, ⟨"lang",
      [⟨"op", .sum op⟩, ⟨"chain", .product chain⟩, ⟨"outer", .product outer⟩]⟩, .descriptor⟩
    let type : EnumType := ⟨0, op⟩
    let inner : RecordType Empty := ⟨0, "chain", .product chain,
      [⟨"first", .maybe (.sum op)⟩, ⟨"rest", .array (.sum op)⟩], .descriptor⟩
    let around : RecordType Empty :=
      ⟨0, "outer", .product outer, [⟨"ops", .product chain⟩], .descriptor⟩
    let space : Namespace Empty := ⟨[.enum type, .record inner, .record around], []⟩
    let plus : EnumValue := ⟨0, op, 1, "Plus"⟩
    let minus : EnumValue := ⟨0, op, 2, "Minus"⟩
    let ops : Value Empty → Value Empty → Record Empty := fun first second =>
      ⟨inner, [some first, some (.array [second, .enum minus])],
        (((IndexSet.withSize 2).insert 0).1.insert 1).1⟩
    let record : Value Empty → Value Empty → Record Empty := fun first second =>
      ⟨around, [some (.record (ops first second))], ((IndexSet.withSize 1).insert 0).1⟩
    synthesis.run = .ok space ∧
      (∃ tag value, (tag.toNat : Int) = 2 ∧ type.byTag? tag = some value) ∧
      type.byTag? 2 = some minus ∧ (Value.enum minus : Value Empty).conforms (.sum op) = true ∧
      (record (.enum minus) (.enum plus)).Built ∧
      (record (.int 2) (.int 1)).DeeplyChecked ∧
      (record (.int 2) (.int 1)).render ({} : Style).rawTags =
        (record (.enum minus) (.enum plus)).render ({} : Style).rawTags := by
  intro op chain outer synthesis type inner around space plus minus ops record
  have hrun : synthesis.run = .ok space := rfl
  have hinner : space.Holds inner := .inl (List.mem_cons_of_mem _ List.mem_cons_self)
  have haround : space.Holds around :=
    .inl (List.mem_cons_of_mem _ (List.mem_cons_of_mem _ List.mem_cons_self))
  have hops : Record.construct inner [.enum minus, .array [.enum plus, .enum minus]] [] =
      .ok (ops (.enum minus) (.enum plus)) := by
    simp only [ops, inner, plus, minus, op, chain]
    rfl
  have hrecord : Record.construct around [.record (ops (.enum minus) (.enum plus))] [] =
      .ok (record (.enum minus) (.enum plus)) := by
    simp only [record, around, ops, inner, outer, chain, op]
    rfl
  have hboth {holds : Value Empty → Prop} {first second : Value Empty} (hfirst : holds first)
      (hsecond : holds second) : ∀ value ∈ [first, second], holds value :=
    List.forall_mem_cons.mpr ⟨hfirst, List.forall_mem_singleton.mpr hsecond⟩
  have hbuilt : (record (.enum minus) (.enum plus)).Built := by
    refine .construct ⟨synthesis, space, rfl, hrun, haround⟩ ?_ (List.forall_mem_nil _) hrecord
    refine List.forall_mem_singleton.mpr (.record ?_)
    refine .construct ⟨synthesis, space, rfl, hrun, hinner⟩ ?_ (List.forall_mem_nil _) hops
    exact hboth (.enum minus) (.array (hboth (.enum plus) (.enum minus)))
  have hconstant {value : EnumValue} (hmem : value ∈ type.values) :
      (Value.enum value : Value Empty).Reachable (· = synthesis) :=
    .enum ⟨synthesis, space, type, rfl, hrun, List.mem_cons_self, hmem⟩
  have hplus : (Value.enum plus : Value Empty).Reachable (· = synthesis) :=
    hconstant List.mem_cons_self
  have hminus : (Value.enum minus : Value Empty).Reachable (· = synthesis) :=
    hconstant (List.mem_cons_of_mem _ List.mem_cons_self)
  have hreachable : (record (.enum minus) (.enum plus)).Reachable (· = synthesis) := by
    refine .construct ⟨synthesis, space, rfl, hrun, haround⟩ ?_ (List.forall_mem_nil _) hrecord
    refine List.forall_mem_singleton.mpr (.record ?_)
    refine .construct ⟨synthesis, space, rfl, hrun, hinner⟩ ?_ (List.forall_mem_nil _) hops
    exact hboth hminus (.array (hboth hplus hminus))
  have hsizes : ∀ given, given = synthesis → given.TagsSuffice := by
    rintro _ rfl definition hdefinition sum hbody
    rcases List.mem_cons.mp hdefinition with rfl | hdefinition
    · cases hbody
      decide
    · rcases List.mem_pair.mp hdefinition with rfl | rfl <;> cases hbody
  have hretagged : (record (.enum minus) (.enum plus)).Retagged (record (.int 2) (.int 1)) := by
    refine .record (.cons (.some (.record ?_)) .nil)
    refine .cons (.some (.tag minus)) (.cons (.some (.array ?_)) .nil)
    exact .cons (.tag plus) (.cons (.same _) .nil)
  obtain ⟨htags, hplaces⟩ := Value.tags_for_constants (κ := Empty)
  obtain ⟨hint, hconstants⟩ := htags type rfl (by decide)
  obtain ⟨-, hrender, hchecked⟩ := hplaces _ _ hbuilt hretagged
  exact ⟨hrun, (hint 2).mp rfl, rfl, (hconstants 2 minus rfl).2, hbuilt,
    hchecked _ hsizes hreachable, hrender _ rfl⟩

end TreeSchema
