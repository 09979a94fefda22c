import TreeSchema.Proofs.Values.Nesting

/-!
Canonical forms of values. Equality of values does not look at which fields of a
record were assigned, nor at the synthesis and the name that an enumeration
constant carries beside its sum and its tag. The canonical form settles just
these, so two values are alike exactly when their canonical forms are the same,
and what is known of equality carries over.
-/

namespace TreeSchema

namespace EnumValue

/-- The name that the sum declares for a tag. -/
def declaredName (sum : Sum) (tag : UInt32) : String :=
  (sum.constructors[tag.toNat - 1]?).elim "" Constructor.name

/-- The constant with the declared name of its tag, of no particular synthesis. -/
def canonical (value : EnumValue) : EnumValue :=
  ⟨0, value.sum, value.tag, declaredName value.sum value.tag⟩

theorem alike_iff {left right : EnumValue} :
    left.alike right = true ↔ left.canonical = right.canonical := by
  simp only [alike, canonical, Bool.and_eq_true, beq_iff_eq, mk.injEq, true_and]
  constructor
  · rintro ⟨htag, hsum⟩
    exact ⟨hsum, htag, by rw [hsum, htag]⟩
  · rintro ⟨hsum, htag, -⟩
    exact ⟨htag, hsum⟩

end EnumValue

variable {κ : Type}

mutual

def Record.canonical : Record κ → Record κ
  | ⟨type, slots, _⟩ => ⟨type, Value.canonicalSlots slots, IndexSet.empty⟩
termination_by structural record => record

/-- The value with no field marked as assigned and every constant canonical. -/
def Value.canonical : Value κ → Value κ
  | .int value => .int value
  | .string value => .string value
  | .enum value => .enum value.canonical
  | .record given => .record given.canonical
  | .array elements => .array (Value.canonicalAll elements)
  | .absent => .absent
termination_by structural value => value

def Value.canonicalAll : List (Value κ) → List (Value κ)
  | [] => []
  | element :: rest => element.canonical :: Value.canonicalAll rest
termination_by structural elements => elements

def Value.canonicalSlots : List (Option (Value κ)) → List (Option (Value κ))
  | [] => []
  | none :: rest => none :: Value.canonicalSlots rest
  | some value :: rest => some value.canonical :: Value.canonicalSlots rest
termination_by structural slots => slots

end

namespace Value

theorem canonicalAll_eq (elements : List (Value κ)) :
    canonicalAll elements = elements.map canonical := by
  induction elements with
  | nil => rfl
  | cons element rest ih => rw [canonicalAll, ih, List.map_cons]

theorem canonicalSlots_eq (slots : List (Option (Value κ))) :
    canonicalSlots slots = slots.map (Option.map canonical) := by
  induction slots with
  | nil => rfl
  | cons slot rest ih => cases slot <;> rw [canonicalSlots, ih] <;> rfl

section

variable [DecidableEq κ]

theorem alikeAll_iff {lefts rights : List (Value κ)}
    (hmembers : ∀ left ∈ lefts, ∀ right : Value κ,
      left.alike right = true ↔ left.canonical = right.canonical) :
    alikeAll lefts rights = true ↔ lefts.map canonical = rights.map canonical := by
  induction lefts generalizing rights with
  | nil => cases rights <;> simp [alikeAll]
  | cons left lefts ih =>
      obtain ⟨hleft, hlefts⟩ := List.forall_mem_cons.mp hmembers
      cases rights with
      | nil => simp [alikeAll]
      | cons right rights => simp [alikeAll, hleft, ih hlefts]

theorem alikeSlots_iff {lefts rights : List (Option (Value κ))}
    (hmembers : ∀ left, some left ∈ lefts → ∀ right : Value κ,
      left.alike right = true ↔ left.canonical = right.canonical) :
    alikeSlots lefts rights = true ↔
      lefts.map (Option.map canonical) = rights.map (Option.map canonical) := by
  induction lefts generalizing rights with
  | nil => cases rights <;> simp [alikeSlots]
  | cons left lefts ih =>
      have hlefts : ∀ rights : List (Option (Value κ)), alikeSlots lefts rights = true ↔
          lefts.map (Option.map canonical) = rights.map (Option.map canonical) :=
        fun _ => ih fun value hmem => hmembers value (List.mem_cons_of_mem _ hmem)
      cases rights with
      | nil => cases left <;> simp [alikeSlots]
      | cons right rights =>
          cases left with
          | none => cases right <;> simp [alikeSlots, hlefts]
          | some left =>
              have hleft := hmembers left List.mem_cons_self
              cases right <;> simp [alikeSlots, hleft, hlefts]

/-- Values are alike when their canonical forms are the same. -/
theorem alike_iff {left right : Value κ} :
    left.alike right = true ↔ left.canonical = right.canonical := by
  induction left generalizing right with
  | int value => cases right <;> simp [alike, canonical]
  | string value => cases right <;> simp [alike, canonical]
  | absent => cases right <;> simp [alike, canonical]
  | enum value => cases right <;> simp [alike, canonical, EnumValue.alike_iff]
  | array elements ih =>
      cases right with
      | array others =>
          rw [alike, canonical, canonical, canonicalAll_eq, canonicalAll_eq, array.injEq]
          exact alikeAll_iff fun element hmem _ => ih element hmem
      | _ => simp [alike, canonical]
  | record type slots assigned ih =>
      cases right with
      | record given =>
          obtain ⟨otherType, otherSlots, otherAssigned⟩ := given
          have hslots : alikeSlots slots otherSlots = true ↔
              slots.map (Option.map canonical) = otherSlots.map (Option.map canonical) :=
            alikeSlots_iff fun value hslot _ => ih value hslot
          simp [alike, Record.alike, canonical, Record.canonical, canonicalSlots_eq, hslots]
      | _ => simp [alike, canonical]

theorem beq_iff {left right : Value κ} :
    (left == right) = true ↔ left.canonical = right.canonical :=
  alike_iff

instance : EquivBEq (Value κ) where
  rfl := beq_iff.mpr rfl
  symm h := beq_iff.mpr (beq_iff.mp h).symm
  trans h hnext := beq_iff.mpr ((beq_iff.mp h).trans (beq_iff.mp hnext))

end

end Value

namespace Record

theorem canonical_eq (record : Record κ) :
    record.canonical =
      ⟨record.type, record.slots.map (Option.map Value.canonical), IndexSet.empty⟩ := by
  cases record
  rw [canonical, Value.canonicalSlots_eq]

/-- Records are equal when they have the same type and, slot by slot, values with
the same canonical form. -/
theorem beq_iff [DecidableEq κ] {left right : Record κ} :
    (left == right) = true ↔ left.type = right.type ∧
      left.slots.map (Option.map Value.canonical) =
        right.slots.map (Option.map Value.canonical) := by
  have hvalues : (left == right) = (Value.record left == Value.record right) := rfl
  rw [hvalues, Value.beq_iff, Value.canonical, Value.canonical, canonical_eq, canonical_eq]
  simp

instance [DecidableEq κ] : EquivBEq (Record κ) where
  rfl := beq_iff.mpr ⟨rfl, rfl⟩
  symm h := beq_iff.mpr ((beq_iff.mp h).imp Eq.symm Eq.symm)
  trans h hnext :=
    beq_iff.mpr ⟨(beq_iff.mp h).1.trans (beq_iff.mp hnext).1,
      (beq_iff.mp h).2.trans (beq_iff.mp hnext).2⟩

end Record

end TreeSchema
