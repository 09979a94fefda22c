import TreeSchema.Proofs.Synthesis.Variants
import TreeSchema.Proofs.Values.Canonical
import TreeSchema.Proofs.Values.Reachable

/-!
What equality of values says. Records are equal when they have the same type and
read the same in every field, arrays when they have the same length and equal
elements. Equal values have equal parts on every way down, so values that differ
in the type of one record, however deep, are different.
-/

namespace TreeSchema

variable {κ : Type}

/-! ### Types of different records -/

/-- Types that no two equal records have: one from each of two syntheses, or two
different constructors of a namespace. -/
inductive RecordType.Apart : RecordType κ → RecordType κ → Prop
  | syntheses {first second : Synthesis κ} {space other : Namespace κ}
      {type variant : RecordType κ} : first.generation ≠ second.generation →
      first.run = .ok space → space.Holds type → second.run = .ok other → other.Holds variant →
      Apart type variant
  | constructors {synthesis : Synthesis κ} {space : Namespace κ} {sum other : SumType κ}
      {position index : Nat} {type variant : RecordType κ} : synthesis.run = .ok space →
      .sum sum ∈ space.types → sum.constructors[position]? = some type →
      .sum other ∈ space.types → other.constructors[index]? = some variant →
      (sum, position) ≠ (other, index) → Apart type variant

/-- A record type is the constructor at one position of one sum. -/
theorem Synthesis.constructor_unique {synthesis : Synthesis κ} {space : Namespace κ}
    (hrun : synthesis.run = .ok space) {sum other : SumType κ} (hsum : .sum sum ∈ space.types)
    (hother : .sum other ∈ space.types) {position index : Nat} {type : RecordType κ}
    (hposition : sum.constructors[position]? = some type)
    (hindex : other.constructors[index]? = some type) : (sum, position) = (other, index) := by
  have hvariant := hasVariant_of_mem hrun hsum (List.mem_of_getElem? hposition)
  have hotherVariant := hasVariant_of_mem hrun hother (List.mem_of_getElem? hindex)
  obtain rfl : other = sum :=
    sum_unique hrun hsum hother (SumType.sum_eq_of_hasVariant hvariant hotherVariant)
  have hdistinct := variant_names_nodup hrun hsum
  have hfirst := Named.locate_name hdistinct hposition
  rw [Named.locate_name hdistinct hindex] at hfirst
  cases hfirst
  rfl

theorem RecordType.Apart.ne {type other : RecordType κ} (h : type.Apart other) : type ≠ other := by
  rintro rfl
  cases h with
  | syntheses hgeneration hfirst hholds hsecond hotherHolds =>
      apply hgeneration
      rw [← (Synthesis.shared_of_holds hfirst hholds).1,
        (Synthesis.shared_of_holds hsecond hotherHolds).1]
  | constructors hrun hsum hposition hother hindex hdifferent =>
      exact hdifferent (Synthesis.constructor_unique hrun hsum hother hposition hindex)

/-! ### Parts of a value -/

/-- One step into a value: to the value of a field or to an element of an array. -/
inductive Value.Step where
  | field (name : String)
  | element (index : Nat)

namespace Value

def child? : Value κ → Step → Option (Value κ)
  | .record given, .field name => given.get? name
  | .array elements, .element index => elements[index]?
  | _, _ => none

/-- What a way down leads to, if there is anything. -/
def part? : Value κ → List Step → Option (Value κ)
  | value, [] => some value
  | value, step :: path => (value.child? step).bind fun child => child.part? path

end Value

theorem Record.get?_canonical (record : Record κ) (name : String) :
    record.canonical.get? name = (record.get? name).map Value.canonical := by
  rw [canonical_eq, get?, get?]
  cases record.type.fieldIndex? name with
  | none => rfl
  | some index =>
      rw [Option.bind_some, Option.bind_some, List.getElem?_map]
      cases record.slots[index]? with
      | none => rfl
      | some slot => rfl

namespace Value

theorem child?_canonical (value : Value κ) (step : Step) :
    value.canonical.child? step = (value.child? step).map canonical := by
  cases value with
  | record given =>
      cases step with
      | field name => exact given.get?_canonical name
      | element index => rfl
  | array elements =>
      cases step with
      | field name => rfl
      | element index => rw [canonical, canonicalAll_eq, child?, child?, List.getElem?_map]
  | _ => rfl

theorem part?_canonical (value : Value κ) (path : List Step) :
    value.canonical.part? path = (value.part? path).map canonical := by
  induction path generalizing value with
  | nil => rfl
  | cons step path ih =>
      rw [part?, part?, child?_canonical]
      cases value.child? step with
      | none => rfl
      | some child => exact ih child

variable [DecidableEq κ]

/-- Values that are both missing or both there and equal. -/
theorem map_canonical_eq_iff {left right : Option (Value κ)} :
    left.map canonical = right.map canonical ↔
      (left = none ∧ right = none) ∨
        ∃ first second, left = some first ∧ right = some second ∧ (first == second) = true := by
  cases left <;> cases right <;> simp [beq_iff]

/-- Equal values have equal parts in the same places. -/
theorem part?_of_beq {left right : Value κ} (h : (left == right) = true) (path : List Step) :
    (left.part? path = none ∧ right.part? path = none) ∨
      ∃ first second, left.part? path = some first ∧ right.part? path = some second ∧
        (first == second) = true := by
  rw [← map_canonical_eq_iff, ← part?_canonical, ← part?_canonical, beq_iff.mp h]

theorem array_beq_iff {elements others : List (Value κ)} :
    (array elements == array others) = true ↔ elements.length = others.length ∧
      ∀ (index : Nat) (element other : Value κ), elements[index]? = some element →
        others[index]? = some other → (element == other) = true := by
  rw [beq_iff, canonical, canonical, canonicalAll_eq, canonicalAll_eq, array.injEq]
  constructor
  · intro h
    refine ⟨by simpa using congrArg List.length h, ?_⟩
    intro index element other helement hother
    have hindex := congrArg (·[index]?) h
    simpa [helement, hother, beq_iff] using hindex
  · rintro ⟨hlength, heach⟩
    apply List.ext_getElem
    · simpa using hlength
    · intro index helement hother
      rw [List.length_map] at helement hother
      rw [List.getElem_map, List.getElem_map, ← beq_iff]
      exact heach index _ _ (List.getElem?_eq_getElem helement) (List.getElem?_eq_getElem hother)

end Value

/-! ### Records field by field -/

namespace Record

theorem get?_name {record : Record κ} (hdistinct : record.type.fieldNames.Nodup) {index : Nat}
    {field : TypedField} (hindex : record.type.fields[index]? = some field) :
    record.get? field.name = (record.slots[index]?).join := by
  rw [get?, RecordType.fieldIndex?_name hdistinct hindex]
  rfl

variable [FieldCheck κ] {sources : Synthesis κ → Prop} {left right : Record κ}

/-- The slots of records of one type are told by what the fields read. -/
theorem InShape.slots_canonical_iff (hleft : left.InShape sources) (hright : right.InShape sources)
    (htype : left.type = right.type) :
    left.slots.map (Option.map Value.canonical) = right.slots.map (Option.map Value.canonical) ↔
      ∀ name ∈ left.type.fieldNames,
        (left.get? name).map Value.canonical = (right.get? name).map Value.canonical := by
  constructor
  · intro h name _
    rw [← get?_canonical, ← get?_canonical, canonical_eq, canonical_eq, htype, h]
  · intro h
    apply List.ext_getElem
    · rw [List.length_map, List.length_map, hleft.length, hright.length, htype]
    · intro index hindex hother
      rw [List.length_map] at hindex hother
      obtain ⟨field, hfield⟩ : ∃ field, left.type.fields[index]? = some field :=
        ⟨_, List.getElem?_eq_getElem (hleft.length ▸ hindex)⟩
      -- each slot is read under the name of its field, so no slot is missed
      have hname := h field.name (List.mem_map_of_mem (List.mem_of_getElem? hfield))
      rw [get?_name hleft.made.distinct hfield,
        get?_name hright.made.distinct (htype ▸ hfield)] at hname
      simpa [List.getElem?_eq_getElem hindex, List.getElem?_eq_getElem hother] using hname

theorem InShape.beq_iff [DecidableEq κ] (hleft : left.InShape sources)
    (hright : right.InShape sources) :
    (left == right) = true ↔ left.type = right.type ∧ ∀ name ∈ left.type.fieldNames,
      (left.get? name = none ∧ right.get? name = none) ∨
        ∃ first second, left.get? name = some first ∧ right.get? name = some second ∧
          (first == second) = true := by
  simp only [← Value.map_canonical_eq_iff]
  rw [Record.beq_iff]
  exact and_congr_right fun htype => hleft.slots_canonical_iff hright htype

end Record

/-- Equality of values is an equivalence. Records are equal when they have the same
type and each field is unset in both or holds equal values in both, whichever
fields were assigned. Arrays are equal when they have the same length and equal
elements in order. Values with records in the same place, at any depth, that have
types of two syntheses or of two constructors are different. -/
theorem Value.equality_laws [DecidableEq κ] [FieldCheck κ] (sources : Synthesis κ → Prop) :
    (∀ value : Value κ, (value == value) = true) ∧
      (∀ left right : Value κ, (left == right) = true → (right == left) = true) ∧
      (∀ left middle right : Value κ, (left == middle) = true → (middle == right) = true →
        (left == right) = true) ∧
      (∀ left right : Record κ, left.Reachable sources → right.Reachable sources →
        ((Value.record left == .record right) = true ↔
          left.type = right.type ∧ ∀ name ∈ left.type.fieldNames,
            (left.get? name = none ∧ right.get? name = none) ∨
              ∃ first second, left.get? name = some first ∧ right.get? name = some second ∧
                (first == second) = true)) ∧
      (∀ elements others : List (Value κ), (Value.array elements == .array others) = true ↔
        elements.length = others.length ∧
          ∀ (index : Nat) (element other : Value κ), elements[index]? = some element →
            others[index]? = some other → (element == other) = true) ∧
      ∀ (left right : Value κ) (path : List Step) (inner other : Record κ),
        left.part? path = some (.record inner) → right.part? path = some (.record other) →
        inner.type.Apart other.type → (left == right) = false := by
  refine ⟨fun _ => BEq.rfl, fun _ _ => BEq.symm, fun _ _ _ => BEq.trans, ?_, ?_, ?_⟩
  · intro left right hleft hright
    exact hleft.inShape.beq_iff hright.inShape
  · intro elements others
    exact array_beq_iff
  · intro left right path inner other hinner hother hapart
    rw [← Bool.not_eq_true]
    intro hequal
    rcases part?_of_beq hequal path with ⟨hnone, -⟩ | ⟨first, second, hfirst, hsecond, hparts⟩
    · rw [hinner] at hnone
      cases hnone
    · obtain rfl : Value.record inner = first := Option.some.inj (hinner.symm.trans hfirst)
      obtain rfl : Value.record other = second := Option.some.inj (hother.symm.trans hsecond)
      have hrecords : (inner == other) = true := hparts
      exact hapart.ne (Record.beq_iff.mp hrecords).1

/-- A default and the same value assigned make equal records; records of two
constructors inside arrays make the arrays different. -/
theorem Value.equality_laws_block :
    let expr : Sum := ⟨0, "expr",
      [⟨"Const", [⟨"n", "int", false, false⟩]⟩, ⟨"Block", [⟨"body", "expr", false, true⟩]⟩]⟩
    let synthesis : Synthesis Empty := ⟨0, ⟨"lang", [⟨"expr", .sum expr⟩]⟩, .descriptor⟩
    let const : RecordType Empty :=
      ⟨0, "Const", .constructor expr 1, [⟨"n", .int⟩], .descriptor⟩
    let block : RecordType Empty :=
      ⟨0, "Block", .constructor expr 2, [⟨"body", .array (.sum expr)⟩], .descriptor⟩
    let sum : SumType Empty := ⟨expr, [const, block]⟩
    let space : Namespace Empty := ⟨[.sum sum, .record const, .record block], [sum.tags]⟩
    let filled : Record Empty :=
      ⟨block, [some (.array [])], ((IndexSet.withSize 1).insert 0).1⟩
    synthesis.run = .ok space ∧ space.Holds const ∧ space.Holds block ∧
      (Record.blank block).set "body" (.array []) = .ok filled ∧
      (Record.blank block).isAssigned "body" = false ∧ filled.isAssigned "body" = true ∧
      (Value.record (.blank block) == .record filled) = true ∧
      (Value.array [.record (.blank const)] == .array [.record (.blank block)]) = false := by
  intro expr synthesis const block sum space filled
  obtain ⟨-, -, -, hrecords, -, hapart⟩ := Value.equality_laws (· = synthesis)
  have hrun : synthesis.run = .ok space := rfl
  have hconst : space.Holds const := .inl (List.mem_of_getElem? (i := 1) rfl)
  have hblock : space.Holds block := .inl (List.mem_of_getElem? (i := 2) rfl)
  have hset : (Record.blank block).set "body" (.array []) = .ok filled := by
    simp only [filled, block, expr]
    rfl
  refine ⟨hrun, hconst, hblock, hset, by decide, by decide, ?_, ?_⟩
  · have hblank : (Record.blank block).Reachable (· = synthesis) :=
      .blank ⟨synthesis, space, rfl, hrun, hblock⟩
    have hbody : (Value.array []).Reachable (· = synthesis) := .array nofun
    refine (hrecords _ _ hblank (.set hblank hbody hset)).mpr ⟨rfl, ?_⟩
    intro name hname
    obtain rfl : name = "body" := List.mem_singleton.mp hname
    exact .inr ⟨.array [], .array [], rfl, rfl, BEq.rfl⟩
  · have hsum : .sum sum ∈ space.types := List.mem_cons_self
    have hfirst : sum.constructors[0]? = some const := rfl
    have hsecond : sum.constructors[1]? = some block := rfl
    exact hapart _ _ [.element 0] _ _ rfl rfl
      (.constructors hrun hsum hfirst hsum hsecond (by simp))

end TreeSchema
