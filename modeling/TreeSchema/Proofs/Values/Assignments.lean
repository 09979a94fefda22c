import TreeSchema.Proofs.Outcomes
import TreeSchema.Proofs.Values.Stores

/-!
Constructions as runs of assignments. Values given by position and values given
by name are all assigned to a field at its own position, one after the other. So
what one assignment keeps for values of some kind, every way to fill a record
with such values keeps.
-/

namespace TreeSchema

namespace Record

variable {κ : Type} [FieldCheck κ] {record next : Record κ}

theorem assign_ok {index : Nat} {field : TypedField} {value : Value κ}
    (h : record.assign index field value = .ok next) :
    record.type.checking.accepts value field.desc = true ∧ next.type = record.type ∧
      next.slots = record.slots.set index (some value) := by
  obtain ⟨haccepted, rfl⟩ := assign_eq_ok h
  exact ⟨haccepted, rfl, rfl⟩

theorem set_ok {name : String} {value : Value κ} (h : record.set name value = .ok next) :
    ∃ index field, record.type.fields[index]? = some field ∧
      record.assign index field value = .ok next := by
  unfold set at h
  split at h
  case h_1 => cases h
  case h_2 index field hfound => exact ⟨index, field, (Named.locate_eq_some hfound).1, h⟩

theorem construct_ok {type : RecordType κ} {positional : List (Value κ)}
    {named : List (String × Value κ)} (h : construct type positional named = .ok record) :
    ∃ placed, (blank type).setLeading positional = .ok placed ∧
      placed.setNamed named = .ok record := by
  simp only [construct] at h
  split at h
  · cases h
  obtain ⟨placed, hplaced, h⟩ := bind_eq_ok_iff.mp h
  obtain ⟨built, hbuilt, h⟩ := bind_eq_ok_iff.mp h
  have hsame : built = record := by
    split at h
    · cases h
      rfl
    · split at h <;> cases h
      rfl
  exact ⟨placed, hplaced, hsame ▸ hbuilt⟩

/-- Assigning a value of some kind to a field of the type keeps what holds. -/
def Kept (Holds : Record κ → Prop) (Kind : Value κ → Prop) : Prop :=
  ∀ (record next : Record κ) (index : Nat) (field : TypedField) (value : Value κ),
    Holds record → Kind value → record.type.fields[index]? = some field →
    record.assign index field value = .ok next → Holds next

namespace Kept

variable {Holds : Record κ → Prop} {Kind : Value κ → Prop} (hkept : Kept Holds Kind)
include hkept

theorem set (h : Holds record) {name : String} {value : Value κ} (hvalue : Kind value)
    (hset : record.set name value = .ok next) : Holds next := by
  obtain ⟨index, field, hfield, hassign⟩ := set_ok hset
  exact hkept record next index field value h hvalue hfield hassign

theorem setLeading (h : Holds record) {values : List (Value κ)}
    (hvalues : ∀ value ∈ values, Kind value) (hset : record.setLeading values = .ok next) :
    Holds next := by
  -- the positions are those of the fields of the first record
  have hkeeps : Holds next ∧ next.type = record.type := by
    refine foldlM_ok_preserves (fun built => Holds built ∧ built.type = record.type) ?_
      ⟨h, rfl⟩ hset
    rintro ⟨⟨field, index⟩, value⟩ hitem state reached ⟨hstate, htype⟩ hassign
    obtain ⟨hfield, hvalue⟩ := List.of_mem_zip hitem
    have hindex : state.type.fields[index]? = some field := by
      rw [htype]
      exact List.mk_mem_zipIdx_iff_getElem?.mp hfield
    exact ⟨hkept state reached index field value hstate (hvalues value hvalue) hindex hassign,
      (assign_ok hassign).2.1.trans htype⟩
  exact hkeeps.1

theorem setNamed (h : Holds record) {bindings : List (String × Value κ)}
    (hvalues : ∀ binding ∈ bindings, Kind binding.2) (hset : record.setNamed bindings = .ok next) :
    Holds next := by
  refine foldlM_ok_preserves Holds ?_ h hset
  intro binding hmem state reached hstate hassign
  exact hkept.set hstate (hvalues binding hmem) hassign

theorem construct {type : RecordType κ} (hblank : Holds (blank type))
    {positional : List (Value κ)} (hpositional : ∀ value ∈ positional, Kind value)
    {named : List (String × Value κ)} (hnamed : ∀ binding ∈ named, Kind binding.2)
    (h : Record.construct type positional named = .ok record) : Holds record := by
  obtain ⟨placed, hplaced, hrecord⟩ := construct_ok h
  exact hkept.setNamed (hkept.setLeading hblank hpositional hplaced) hnamed hrecord

end Kept

end Record

end TreeSchema
