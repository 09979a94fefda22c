import TreeSchema.Proofs.Values.Checked
import TreeSchema.Render.ViewTree

/-!
The fields without a value in a record and in all records inside it, listed in
depth-first order. For a checked record the list tells which of these records
are incomplete: every site is an unassigned field of one of them, and every
unassigned field has its site.
-/

namespace TreeSchema

open Render

variable {κ : Type}

mutual

/-- The fields without a value in a record and in the records inside it, in
the order in which they are met depth first. -/
def Record.unsetSites : Record κ → List Site
  | ⟨type, slots, _⟩ => Value.unsetSitesOfSlots type.name type.fields slots
termination_by structural record => record

def Value.unsetSites : Value κ → List Site
  | .record given => given.unsetSites
  | .array elements => Value.unsetSitesOfAll elements
  | _ => []
termination_by structural value => value

def Value.unsetSitesOfAll : List (Value κ) → List Site
  | [] => []
  | element :: rest => element.unsetSites ++ Value.unsetSitesOfAll rest
termination_by structural elements => elements

def Value.unsetSitesOfSlots (typeName : String) :
    List TypedField → List (Option (Value κ)) → List Site
  | field :: fields, none :: rest =>
      ⟨typeName, field.name⟩ :: Value.unsetSitesOfSlots typeName fields rest
  | _ :: fields, some value :: rest =>
      value.unsetSites ++ Value.unsetSitesOfSlots typeName fields rest
  | _, _ => []
termination_by structural _ slots => slots

end

/-- What one field contributes to the fields without a value. -/
def Record.slotSites (typeName : String) : TypedField × Option (Value κ) → List Site
  | (field, none) => [⟨typeName, field.name⟩]
  | (_, some value) => value.unsetSites

theorem Value.unsetSitesOfAll_eq (elements : List (Value κ)) :
    Value.unsetSitesOfAll elements = elements.flatMap Value.unsetSites := by
  induction elements with
  | nil => rfl
  | cons element rest ih => rw [Value.unsetSitesOfAll, ih, List.flatMap_cons]

theorem Value.unsetSitesOfSlots_eq (typeName : String) (fields : List TypedField)
    (slots : List (Option (Value κ))) :
    Value.unsetSitesOfSlots typeName fields slots =
      (fields.zip slots).flatMap (Record.slotSites typeName) := by
  induction slots generalizing fields with
  | nil => cases fields <;> simp [Value.unsetSitesOfSlots]
  | cons slot rest ih =>
      cases fields with
      | nil => simp [Value.unsetSitesOfSlots]
      | cons field fields =>
          cases slot <;> simp [Value.unsetSitesOfSlots, Record.slotSites, ih]

theorem Record.unsetSites_eq (record : Record κ) :
    record.unsetSites =
      (record.type.fields.zip record.slots).flatMap (slotSites record.typeName) := by
  cases record
  rw [unsetSites, Value.unsetSitesOfSlots_eq]
  rfl

theorem Record.mem_unassigned {record : Record κ} {name : String} :
    name ∈ record.unassigned ↔
      ∃ field, (field, none) ∈ record.type.fields.zip record.slots ∧ field.name = name := by
  simp only [unassigned, List.mem_filterMap, Prod.exists]
  constructor
  · rintro ⟨field, slot, hmem, hname⟩
    cases slot with
    | none => exact ⟨field, hmem, Option.some.inj hname⟩
    | some value => cases hname
  · rintro ⟨field, hmem, rfl⟩
    exact ⟨field, none, hmem, rfl⟩

theorem Record.ensureComplete_iff {record : Record κ} :
    record.ensureComplete = .ok () ↔ record.unassigned = [] := by
  unfold ensureComplete
  cases record.unassigned <;> simp

/-- Where there is a field for every slot, a stored value stands next to a field. -/
theorem Record.Checked.exists_field {record : Record κ} (h : record.Checked) {value : Value κ}
    (hslot : some value ∈ record.slots) :
    ∃ field, (field, some value) ∈ record.type.fields.zip record.slots := by
  obtain ⟨index, hindex, hvalue⟩ := List.mem_iff_getElem.mp hslot
  have hfield : index < record.type.fields.length := h.length ▸ hindex
  refine ⟨record.type.fields[index], List.mem_iff_getElem.mpr ⟨index, ?_, ?_⟩⟩
  · rw [List.length_zip]
    omega
  · rw [List.getElem_zip, hvalue]

/-- A site without a value is an unassigned field of a record at some depth. -/
theorem Value.mem_unsetSites {value : Value κ} (h : value.DeeplyChecked) {site : Site} :
    site ∈ value.unsetSites ↔
      ∃ nested ∈ value.records, nested.typeName = site.typeName ∧
        site.field ∈ nested.unassigned := by
  induction value with
  | int | string | enum | absent => simp [unsetSites, records]
  | array elements ih =>
      simp only [unsetSites, unsetSitesOfAll_eq, List.mem_flatMap, records, mem_recordsOfAll]
      constructor
      · rintro ⟨element, hmem, hsite⟩
        obtain ⟨nested, hnested, hfield⟩ := (ih element hmem (h.element hmem)).mp hsite
        exact ⟨nested, ⟨element, hmem, hnested⟩, hfield⟩
      · rintro ⟨nested, ⟨element, hmem, hnested⟩, hfield⟩
        exact ⟨element, hmem, (ih element hmem (h.element hmem)).mpr ⟨nested, hnested, hfield⟩⟩
  | record type slots assigned ih =>
      have hrecord := deeplyChecked_record.mp h
      rw [unsetSites, Record.unsetSites_eq, records, List.mem_flatMap]
      constructor
      · rintro ⟨⟨field, slot⟩, hmem, hsite⟩
        cases slot with
        | none =>
            obtain rfl : site = ⟨type.name, field.name⟩ := List.mem_singleton.mp hsite
            exact ⟨_, Record.mem_records.mpr (.inl rfl), rfl,
              Record.mem_unassigned.mpr ⟨field, hmem, rfl⟩⟩
        | some value =>
            have hslot := (List.of_mem_zip hmem).2
            obtain ⟨nested, hnested, hfield⟩ := (ih value hslot (hrecord.slot hslot)).mp hsite
            exact ⟨nested, Record.mem_records.mpr (.inr ⟨value, hslot, hnested⟩), hfield⟩
      · rintro ⟨nested, hnested, hname, hunassigned⟩
        rcases Record.mem_records.mp hnested with rfl | ⟨value, hslot, hnested⟩
        · obtain ⟨field, hmem, hfield⟩ := Record.mem_unassigned.mp hunassigned
          obtain ⟨typeName, name⟩ := site
          cases hname
          cases hfield
          exact ⟨(field, none), hmem, List.mem_singleton.mpr rfl⟩
        · obtain ⟨field, hmem⟩ := hrecord.checked.exists_field hslot
          exact ⟨(field, some value), hmem, (ih value hslot (hrecord.slot hslot)).mpr
            ⟨nested, hnested, hname, hunassigned⟩⟩

theorem Record.unsetSites_eq_nil_iff {record : Record κ} (h : record.DeeplyChecked) :
    record.unsetSites = [] ↔ ∀ nested ∈ record.records, nested.ensureComplete = .ok () := by
  have hsites (site : Site) : site ∈ record.unsetSites ↔
      ∃ nested ∈ record.records, nested.typeName = site.typeName ∧
        site.field ∈ nested.unassigned := by
    simpa only [Value.unsetSites, Value.records] using
      Value.mem_unsetSites (Value.deeplyChecked_record.mpr h)
  constructor
  · intro hnone nested hnested
    rw [ensureComplete_iff, List.eq_nil_iff_forall_not_mem]
    intro name hname
    have hsite := (hsites ⟨nested.typeName, name⟩).mpr ⟨nested, hnested, rfl, hname⟩
    rw [hnone] at hsite
    cases hsite
  · intro hcomplete
    rw [List.eq_nil_iff_forall_not_mem]
    intro site hsite
    obtain ⟨nested, hnested, -, hname⟩ := (hsites site).mp hsite
    rw [ensureComplete_iff.mp (hcomplete nested hnested)] at hname
    cases hname

end TreeSchema
