import Mathlib.Data.List.Induction
import Mathlib.Data.List.Nodup
import TreeSchema.Proofs.Outcomes
import TreeSchema.Proofs.Values.Stores

/-!
Arguments as bindings. Positional values bind the leading fields in declaration
order and named values the fields that they name, so any arguments come to one
list of bindings. Assigning these in turn goes through when each is for a field
that is not bound before and has a value that the check accepts; otherwise the
first that fails decides the error. The induction is on the bindings: the record
stores those behind it, and one more after every step.
-/

namespace TreeSchema

variable {κ : Type}

/-- What bindings give a field; the first binding of a name counts. -/
def boundValue? (bindings : List (String × Value κ)) (field : TypedField) : Option (Value κ) :=
  bindings.lookup field.name

theorem isSome_boundValue? {bindings : List (String × Value κ)} {field : TypedField} :
    (boundValue? bindings field).isSome = true ↔ field.name ∈ bindings.map Prod.fst := by
  simp [boundValue?, List.lookup_isSome_iff]

theorem boundValue?_eq_none_iff {bindings : List (String × Value κ)} {field : TypedField} :
    boundValue? bindings field = none ↔ field.name ∉ bindings.map Prod.fst := by
  rw [← Option.not_isSome_iff_eq_none, isSome_boundValue?]

theorem boundValue?_eq_some_iff {bindings : List (String × Value κ)}
    (honce : (bindings.map Prod.fst).Nodup) {field : TypedField} {value : Value κ} :
    boundValue? bindings field = some value ↔ (field.name, value) ∈ bindings := by
  rw [boundValue?, List.lookup_eq_some_iff]
  constructor
  · rintro ⟨before, after, rfl, -⟩
    exact List.mem_append_right _ List.mem_cons_self
  · intro hmem
    obtain ⟨before, after, rfl⟩ := List.append_of_mem hmem
    rw [List.map_append, List.nodup_append] at honce
    refine ⟨before, after, rfl, ?_⟩
    intro binding hbefore
    have hother :=
      honce.2.2 binding.1 (List.mem_map_of_mem hbefore) field.name List.mem_cons_self
    exact bne_iff_ne.mpr hother.symm

/-- Where no name is bound twice, the order of the bindings does not matter. -/
theorem boundValue?_perm {bindings others : List (String × Value κ)}
    (honce : (bindings.map Prod.fst).Nodup) (hperm : bindings.Perm others) (field : TypedField) :
    boundValue? bindings field = boundValue? others field := by
  apply Option.ext
  intro value
  rw [boundValue?_eq_some_iff honce,
    boundValue?_eq_some_iff ((hperm.map Prod.fst).nodup_iff.mp honce), hperm.mem_iff]

theorem boundValue?_snoc {bindings : List (String × Value κ)} {name : String}
    (hnew : name ∉ bindings.map Prod.fst) (value : Value κ) (field : TypedField) :
    boundValue? (bindings ++ [(name, value)]) field =
      if field.name = name then some value else boundValue? bindings field := by
  have hlast : boundValue? (bindings ++ [(name, value)]) field =
      (boundValue? bindings field).or (if field.name = name then some value else none) := by
    rw [boundValue?, List.lookup_append, List.lookup_cons, List.lookup_nil]
    by_cases hname : field.name = name
    · simp [boundValue?, hname]
    · simp [boundValue?, hname, beq_eq_false_iff_ne.mpr hname]
  rw [hlast]
  split
  case isTrue hname =>
    rw [← hname] at hnew
    rw [boundValue?_eq_none_iff.mpr hnew]
    rfl
  case isFalse => exact Option.or_none

namespace RecordType

/-- What the arguments of a construction bind, in order. -/
def bindings (type : RecordType κ) (positional : List (Value κ))
    (named : List (String × Value κ)) : List (String × Value κ) :=
  type.fieldNames.zip positional ++ named

variable [FieldCheck κ]

/-- Bindings of fields, of none of them twice, with values that the check of the
type accepts. -/
structure Takes (type : RecordType κ) (bindings : List (String × Value κ)) : Prop where
  known : ∀ binding ∈ bindings, binding.1 ∈ type.fieldNames
  once : (bindings.map Prod.fst).Nodup
  accepted : ∀ field ∈ type.fields, ∀ value, (field.name, value) ∈ bindings →
    type.checking.accepts value field.desc = true

/-- What is wrong with a binding behind others: it names no field, or one that
is bound before, or else its value is not accepted. -/
inductive Refuses (type : RecordType κ) (before : List (String × Value κ)) :
    String × Value κ → AssignError → Prop
  | unknown {name : String} {value : Value κ} : name ∉ type.fieldNames →
      Refuses type before (name, value) (.unknownField type.name name)
  | twice {field : TypedField} {value : Value κ} : field ∈ type.fields →
      field.name ∈ before.map Prod.fst →
      Refuses type before (field.name, value) (.assignedTwice type.name field.name)
  | mismatch {field : TypedField} {value : Value κ} : field ∈ type.fields →
      field.name ∉ before.map Prod.fst → type.checking.accepts value field.desc = false →
      Refuses type before (field.name, value) (.mismatch type.name field.name field.desc)

variable {type : RecordType κ} {before after bindings : List (String × Value κ)}
  {binding : String × Value κ} {error : AssignError}

theorem takes_nil (type : RecordType κ) : type.Takes [] where
  known := nofun
  once := List.nodup_nil
  accepted := nofun

theorem Takes.perm (h : type.Takes bindings) {others : List (String × Value κ)}
    (hperm : bindings.Perm others) : type.Takes others where
  known binding hmem := h.known binding (hperm.mem_iff.mpr hmem)
  once := (hperm.map Prod.fst).nodup_iff.mp h.once
  accepted field hfield value hmem := h.accepted field hfield value (hperm.mem_iff.mpr hmem)

theorem Takes.of_append (h : type.Takes (before ++ after)) : type.Takes before where
  known binding hmem := h.known binding (List.mem_append_left _ hmem)
  once := by
    have honce := h.once
    rw [List.map_append] at honce
    exact (List.nodup_append.mp honce).1
  accepted field hfield value hmem :=
    h.accepted field hfield value (List.mem_append_left _ hmem)

theorem takes_snoc_iff : type.Takes (before ++ [binding]) ↔
    type.Takes before ∧ binding.1 ∈ type.fieldNames ∧ binding.1 ∉ before.map Prod.fst ∧
      ∀ field ∈ type.fields, field.name = binding.1 →
        type.checking.accepts binding.2 field.desc = true := by
  constructor
  · intro h
    have hlast : binding ∈ before ++ [binding] := List.mem_append_right _ List.mem_cons_self
    have honce := h.once
    rw [List.map_append, List.map_singleton, ← List.concat_eq_append, List.nodup_concat] at honce
    refine ⟨h.of_append, h.known binding hlast, honce.1, ?_⟩
    intro field hfield hname
    refine h.accepted field hfield binding.2 ?_
    rw [hname]
    exact hlast
  · rintro ⟨h, hknown, hnew, haccepted⟩
    refine ⟨?_, ?_, ?_⟩
    · intro other hmem
      rcases List.mem_append.mp hmem with hbefore | hlast
      · exact h.known other hbefore
      · rw [List.mem_singleton.mp hlast]
        exact hknown
    · rw [List.map_append, List.map_singleton, ← List.concat_eq_append, List.nodup_concat]
      exact ⟨hnew, h.once⟩
    · intro field hfield value hmem
      rcases List.mem_append.mp hmem with hbefore | hlast
      · exact h.accepted field hfield value hbefore
      · obtain rfl := List.mem_singleton.mp hlast
        exact haccepted field hfield rfl

/-- A binding behind bindings that go through is refused, or goes through too. -/
theorem Takes.refuses_or_snoc (hdistinct : type.fieldNames.Nodup) (h : type.Takes before)
    (binding : String × Value κ) :
    (∃ error, type.Refuses before binding error) ∨ type.Takes (before ++ [binding]) := by
  obtain ⟨name, value⟩ := binding
  by_cases hknown : name ∈ type.fieldNames
  case neg => exact .inl ⟨_, .unknown hknown⟩
  obtain ⟨field, hfield, rfl⟩ := List.mem_map.mp hknown
  by_cases hbound : field.name ∈ before.map Prod.fst
  case pos => exact .inl ⟨_, .twice hfield hbound⟩
  cases haccepted : type.checking.accepts value field.desc with
  | false => exact .inl ⟨_, .mismatch hfield hbound haccepted⟩
  | true =>
      refine .inr (takes_snoc_iff.mpr ⟨h, hknown, hbound, ?_⟩)
      intro other hother hname
      rw [field_unique hdistinct hfield hother hname]
      exact haccepted

/-- Bindings that do not go through have a first one that is refused. -/
theorem exists_refused (hdistinct : type.fieldNames.Nodup) (h : ¬ type.Takes bindings) :
    ∃ before binding after error, bindings = before ++ binding :: after ∧
      type.Takes before ∧ type.Refuses before binding error := by
  induction bindings using List.reverseRecOn with
  | nil => exact absurd (takes_nil type) h
  | append_singleton bindings last ih =>
      -- the last binding is blamed only when those before it go through
      by_cases htakes : type.Takes bindings
      · obtain ⟨error, hrefused⟩ := (htakes.refuses_or_snoc hdistinct last).resolve_right h
        exact ⟨bindings, last, [], error, rfl, htakes, hrefused⟩
      · obtain ⟨before, binding, after, error, rfl, hbefore, hrefused⟩ := ih htakes
        refine ⟨before, binding, after ++ [last], error, ?_, hbefore, hrefused⟩
        rw [List.append_assoc, List.cons_append]

end RecordType

namespace Record

variable [FieldCheck κ] {type : RecordType κ} {record next : Record κ}
  {before bindings after : List (String × Value κ)} {binding : String × Value κ}
  (hdistinct : type.fieldNames.Nodup)
include hdistinct

theorem Stores.set_refused_binding (h : record.Stores type (boundValue? before))
    {error : AssignError} (hrefused : type.Refuses before binding error) :
    record.set binding.1 binding.2 = .error error := by
  cases hrefused with
  | unknown hunknown => exact h.set_unknown hunknown _
  | twice hfield hbound =>
      exact h.set_again hdistinct hfield (isSome_boundValue?.mpr hbound) _
  | mismatch hfield hnew hrefused =>
      exact h.set_refused hdistinct hfield (boundValue?_eq_none_iff.mpr hnew) hrefused

/-- One binding that goes through behind others is stored behind them. -/
theorem Stores.set_binding (h : record.Stores type (boundValue? before))
    (htakes : type.Takes (before ++ [binding])) :
    ∃ next, record.set binding.1 binding.2 = .ok next ∧
      next.Stores type (boundValue? (before ++ [binding])) := by
  obtain ⟨name, value⟩ := binding
  obtain ⟨-, hknown, hnew, haccepted⟩ := RecordType.takes_snoc_iff.mp htakes
  obtain ⟨field, hfield, rfl⟩ := List.mem_map.mp hknown
  have hnone := boundValue?_eq_none_iff.mpr hnew
  obtain ⟨next, hset, hnext⟩ := h.set_accepted hdistinct hfield hnone (haccepted field hfield rfl)
  refine ⟨next, hset, hnext.congr ?_⟩
  intro other hother
  exact (boundValue?_snoc hnew value other).symm

/-- A run of bindings that go through behind others stores all of them. -/
theorem Stores.setNamed (h : record.Stores type (boundValue? before))
    (htakes : type.Takes (before ++ bindings)) :
    ∃ next, record.setNamed bindings = .ok next ∧
      next.Stores type (boundValue? (before ++ bindings)) := by
  induction bindings generalizing record before with
  | nil =>
      rw [List.append_nil]
      exact ⟨record, rfl, h⟩
  | cons binding rest ih =>
      rw [List.append_cons] at htakes ⊢
      obtain ⟨reached, hset, hreached⟩ := h.set_binding hdistinct htakes.of_append
      obtain ⟨next, hrest, hnext⟩ := ih hreached htakes
      refine ⟨next, ?_, hnext⟩
      exact bind_eq_ok_iff.mpr ⟨reached, hset, hrest⟩

theorem setNamed_takes (htakes : type.Takes bindings) :
    ∃ next, (blank type).setNamed bindings = .ok next ∧
      next.Stores type (boundValue? bindings) := by
  have hblank : (blank type).Stores type (boundValue? []) := blank_stores type
  exact hblank.setNamed hdistinct htakes

/-- The first binding that is refused ends the run with its error. -/
theorem setNamed_refused (hbefore : type.Takes before) {error : AssignError}
    (hrefused : type.Refuses before binding error) :
    (blank type).setNamed (before ++ binding :: after) = .error error := by
  obtain ⟨reached, hreached, hstores⟩ := setNamed_takes hdistinct hbefore
  have hset := hstores.set_refused_binding hdistinct hrefused
  rw [Record.setNamed, List.foldlM_append]
  refine bind_eq_error_iff.mpr (.inr ⟨reached, hreached, ?_⟩)
  exact bind_eq_error_iff.mpr (.inl hset)

/-- Assigning located fields in turn is assigning them by name. -/
theorem assignAll_eq {items : List ((TypedField × Nat) × Value κ)} (htype : record.type = type)
    (hitems : ∀ item ∈ items, type.fields[item.1.2]? = some item.1.1) :
    items.foldlM (fun built item => built.assign item.1.2 item.1.1 item.2) record =
      record.setNamed (items.map fun item => (item.1.1.name, item.2)) := by
  induction items generalizing record with
  | nil => rfl
  | cons item rest ih =>
      obtain ⟨hitem, hrest⟩ := List.forall_mem_cons.mp hitems
      simp only [List.map_cons, setNamed, List.foldlM_cons]
      rw [set_name hdistinct htype hitem]
      cases hassign : record.assign item.1.2 item.1.1 item.2 with
      | error error => rfl
      | ok next =>
          have hnext : next.type = type := by
            obtain ⟨-, rfl⟩ := assign_eq_ok hassign
            exact htype
          exact ih hnext hrest

/-- Positional values are bindings of the leading fields. -/
theorem setLeading_eq (htype : record.type = type) (values : List (Value κ)) :
    record.setLeading values = record.setNamed (type.fieldNames.zip values) := by
  have hnames : type.fieldNames.zip values =
      (type.fields.zipIdx.zip values).map fun item => (item.1.1.name, item.2) := by
    have hfields : type.fields.zipIdx.map (TypedField.name ∘ Prod.fst) = type.fieldNames := by
      rw [← List.map_map, List.zipIdx_map_fst]
      rfl
    rw [← hfields, List.zip_map_left]
    rfl
  rw [setLeading, htype, hnames]
  refine assignAll_eq hdistinct htype ?_
  intro item hitem
  exact List.mk_mem_zipIdx_iff_getElem?.mp (List.of_mem_zip hitem).1

end Record

end TreeSchema
