import Mathlib.Data.List.Nodup
import TreeSchema.Proofs.Synthesis.Contents

/-!
Constants of enumerations. A tag leads to the constant at its position, whatever
the constructors are called, while a name leads to the first constant that has
it. A simple sum binds none of its constructors, so synthesis does not notice a
name that it declares twice, and the later constant is found by its tag only.
-/

namespace TreeSchema

namespace EnumType

variable (type : EnumType)

theorem length_values : type.values.length = type.sum.constructors.length :=
  List.length_mapIdx

/-- The constant that a constructor at a position gives. -/
theorem values_eq_some {type : EnumType} {position : Nat} {constructor : Constructor}
    (h : type.sum.constructors[position]? = some constructor) :
    type.values[position]? =
      some ⟨type.generation, type.sum, tagAt position, constructor.name⟩ := by
  rw [values, List.getElem?_mapIdx, h]
  rfl

theorem eq_of_values {type : EnumType} {position : Nat} {value : EnumValue}
    (h : type.values[position]? = some value) :
    ∃ constructor, type.sum.constructors[position]? = some constructor ∧
      value = ⟨type.generation, type.sum, tagAt position, constructor.name⟩ := by
  rw [values, List.getElem?_mapIdx, Option.map_eq_some_iff] at h
  obtain ⟨constructor, hconstructor, hvalue⟩ := h
  exact ⟨constructor, hconstructor, hvalue.symm⟩

theorem names_values : Named.names type.values = Named.names type.sum.constructors := by
  apply List.ext_getElem?
  intro position
  simp only [Named.names, values, List.getElem?_map, List.getElem?_mapIdx, Option.map_map]
  rfl

/-- A name leads to the constant of the first constructor with that name. -/
theorem value?_eq (name : String) :
    type.value? name =
      (type.sum.position? name).bind fun position => type.values[position]? :=
  Named.lookup_eq_getElem? type.names_values name

theorem value?_eq_none_iff {name : String} :
    type.value? name = none ↔ name ∉ Named.names type.sum.constructors := by
  rw [← names_values, value?, ← Option.not_isSome_iff_eq_none, Named.lookup_isSome,
    Named.bound_iff]

section

variable {type} (hsize : type.sum.constructors.length < UInt32.size)
include hsize

theorem toNat_tag {position : Nat} {value : EnumValue}
    (h : type.values[position]? = some value) : value.tag.toNat = position + 1 := by
  obtain ⟨constructor, hconstructor, rfl⟩ := eq_of_values h
  obtain ⟨hposition, -⟩ := List.getElem?_eq_some_iff.mp hconstructor
  have hsmall : position + 1 < UInt32.size := by omega
  exact toNat_tagAt hsmall

theorem byTag?_tag {position : Nat} {value : EnumValue}
    (h : type.values[position]? = some value) : type.byTag? value.tag = some value := by
  have htag := toNat_tag hsize h
  have hnonzero : value.tag ≠ 0 := by
    intro hzero
    rw [hzero] at htag
    cases htag
  rw [byTag?, if_neg hnonzero, htag, Nat.add_sub_cancel, h]

theorem position_eq_of_tag {position other : Nat} {value constant : EnumValue}
    (h : type.values[position]? = some value) (hother : type.values[other]? = some constant)
    (htag : value.tag = constant.tag) : position = other := by
  have hsame : value.tag.toNat = constant.tag.toNat := congrArg UInt32.toNat htag
  rw [toNat_tag hsize h, toNat_tag hsize hother] at hsame
  exact Nat.succ.inj hsame

theorem values_nodup : type.values.Nodup := by
  rw [List.nodup_iff_pairwise_ne, List.pairwise_iff_getElem]
  intro position other hposition hother hless hequal
  have hsame := position_eq_of_tag hsize (List.getElem?_eq_getElem hposition)
    (List.getElem?_eq_getElem hother) (congrArg EnumValue.tag hequal)
  omega

end

theorem byTag?_eq_none_iff {tag : UInt32} :
    type.byTag? tag = none ↔ tag.toNat = 0 ∨ type.sum.constructors.length < tag.toNat := by
  have hzero : tag = 0 ↔ tag.toNat = 0 := UInt32.toNat_inj.symm
  unfold byTag?
  split
  case isTrue h => simp [hzero.mp h]
  case isFalse h =>
    rw [List.getElem?_eq_none_iff, length_values]
    have hpositive := mt hzero.mpr h
    omega

/-- The name of a constant leads back to it when no constructor before its own
has that name. -/
theorem value?_name_iff {type : EnumType} {position : Nat} {constructor : Constructor}
    (hconstructor : type.sum.constructors[position]? = some constructor)
    (hsize : type.sum.constructors.length < UInt32.size) :
    type.value? constructor.name = type.values[position]? ↔
      type.sum.position? constructor.name = some position := by
  have hvalue := values_eq_some hconstructor
  rw [value?_eq]
  constructor
  · intro h
    rw [hvalue, Option.bind_eq_some_iff] at h
    obtain ⟨first, hfirst, hfound⟩ := h
    rw [hfirst, position_eq_of_tag hsize hfound hvalue rfl]
  · intro h
    rw [h]
    rfl

/-- Names lead back to all constants when they are distinct, and only then. -/
theorem value?_name_forall_iff {type : EnumType}
    (hsize : type.sum.constructors.length < UInt32.size) :
    (∀ value ∈ type.values, type.value? value.name = some value) ↔
      (Named.names type.sum.constructors).Nodup := by
  rw [← names_values]
  constructor
  · intro hfound
    refine List.Nodup.map_on ?_ (values_nodup hsize)
    intro value hvalue other hother (hname : value.name = other.name)
    have hsame := hfound value hvalue
    rw [hname, hfound other hother] at hsame
    exact (Option.some.inj hsame).symm
  · intro hdistinct value hvalue
    exact Named.lookup_name hdistinct hvalue

end EnumType

namespace Synthesis

variable {κ : Type} {synthesis : Synthesis κ} {space : Namespace κ}

theorem enum?_of_run (hrun : synthesis.run = .ok space) {definition : Definition}
    (hmem : definition ∈ synthesis.schema.definitions) {sum : Sum}
    (hbody : definition.body = .sum sum) (hsimple : sum.isSimple = true) :
    space.enum? sum.name = some ⟨synthesis.generation, sum⟩ := by
  obtain ⟨types, htypes, hfound⟩ := get?_of_typesOf hrun hmem
  have hgives : types = [.enum ⟨synthesis.generation, sum⟩] := by
    rw [typesOf, hbody] at htypes
    simp only [hsimple, if_true] at htypes
    exact (Except.ok.inj htypes).symm
  subst hgives
  have hget : space.get? sum.name = some (.enum ⟨synthesis.generation, sum⟩) :=
    hfound _ List.mem_cons_self
  rw [Namespace.enum?, hget]

/-- The enumeration of a simple sum has one constant per constructor, in order,
with tags that count from one, and no two of them are alike. A tag leads to the
constant that has it. A name leads to the first constant that has it, so every
constant is found under its own name just when the names are distinct. Any other
tag or name leads to nothing. -/
theorem constants_found (hrun : synthesis.run = .ok space) {definition : Definition}
    (hmem : definition ∈ synthesis.schema.definitions) {sum : Sum}
    (hbody : definition.body = .sum sum) (hsimple : sum.isSimple = true)
    (hsize : sum.constructors.length < UInt32.size) :
    ∃ type, space.enum? sum.name = some type ∧
      type.values.length = sum.constructors.length ∧
      (∀ position constructor, sum.constructors[position]? = some constructor →
        ∃ value, type.values[position]? = some value ∧
          value.tag.toNat = position + 1 ∧ value.name = constructor.name ∧
          type.byTag? (UInt32.ofNat (position + 1)) = some value ∧
          (type.value? constructor.name = some value ↔
            sum.position? constructor.name = some position)) ∧
      ((∀ value ∈ type.values, type.value? value.name = some value) ↔
        (Named.names sum.constructors).Nodup) ∧
      (∀ (position other : Nat) (value constant : EnumValue), position ≠ other →
        type.values[position]? = some value → type.values[other]? = some constant →
        value.alike constant = false) ∧
      (∀ tag, type.byTag? tag = none ↔
        tag.toNat = 0 ∨ sum.constructors.length < tag.toNat) ∧
      ∀ name, type.value? name = none ↔ name ∉ Named.names sum.constructors := by
  let type : EnumType := ⟨synthesis.generation, sum⟩
  refine ⟨type, enum?_of_run hrun hmem hbody hsimple, type.length_values, ?_,
    EnumType.value?_name_forall_iff hsize, ?_, ?_, ?_⟩
  · intro position constructor hconstructor
    have hvalue : type.values[position]? = some ⟨type.generation, sum, tagAt position, _⟩ :=
      EnumType.values_eq_some hconstructor
    refine ⟨_, hvalue, EnumType.toNat_tag hsize hvalue, rfl, EnumType.byTag?_tag hsize hvalue, ?_⟩
    rw [← hvalue]
    exact EnumType.value?_name_iff hconstructor hsize
  · intro position other value constant hapart hvalue hconstant
    rw [EnumValue.alike, Bool.and_eq_false_imp]
    intro htag
    exact absurd (EnumType.position_eq_of_tag hsize hvalue hconstant (eq_of_beq htag)) hapart
  · intro tag
    exact type.byTag?_eq_none_iff
  · intro name
    exact type.value?_eq_none_iff

/-- Two constants that are found under their names and under their tags. -/
theorem constants_found_two :
    let op : Sum := ⟨0, "op", [.unit "Plus", .unit "Minus"]⟩
    let synthesis : Synthesis Empty :=
      ⟨0, Schema.declare 0 "lang" [.enumeration "op" ["Plus", "Minus"]], .descriptor⟩
    ∃ space, synthesis.run = .ok space ∧
      ∃ type value, space.enum? "op" = some type ∧ value.tag.toNat = 2 ∧ value.sum = op ∧
        type.byTag? 2 = some value ∧ type.value? "Minus" = some value ∧
        type.byTag? 3 = none := by
  intro op synthesis
  obtain ⟨space, hrun⟩ : ∃ space, synthesis.run = .ok space := ⟨_, rfl⟩
  have hmem : (⟨"op", .sum op⟩ : Definition) ∈ synthesis.schema.definitions :=
    List.mem_cons_self
  obtain ⟨type, htype, -, hvalues, -, -, hother, -⟩ :=
    constants_found hrun hmem rfl rfl (by decide)
  obtain ⟨value, hvalue, htag, -, hbyTag, hbyName⟩ := hvalues 1 (.unit "Minus") rfl
  have hsame : type = ⟨0, op⟩ := by
    have hfound := enum?_of_run hrun hmem rfl rfl
    exact Option.some.inj (htype.symm.trans hfound)
  obtain ⟨constructor, -, rfl⟩ := EnumType.eq_of_values hvalue
  refine ⟨space, hrun, type, _, htype, htag, congrArg EnumType.sum hsame, hbyTag,
    hbyName.mpr rfl, (hother 3).mpr (.inr (by decide))⟩

/-- A name that a simple sum declares twice leads to the first of its constants,
and the second one, which has that name, is another value. -/
theorem constant_declared_twice :
    let schema := Schema.declare 0 "lang" [.enumeration "op" ["Plus", "Plus"]]
    let synthesis : Synthesis Empty := ⟨0, schema, .descriptor⟩
    ∃ space type first second, synthesis.run = .ok space ∧ space.enum? "op" = some type ∧
      type.values = [first, second] ∧ second.name = "Plus" ∧ type.byTag? 2 = some second ∧
      type.value? second.name = some first ∧ first ≠ second ∧ first.alike second = false := by
  intro schema synthesis
  refine ⟨_, _, _, _, rfl, rfl, rfl, rfl, rfl, rfl, ?_, ?_⟩
  · decide
  · decide

end Synthesis

end TreeSchema
