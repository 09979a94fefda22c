import TreeSchema.Proofs.Synthesis.Bindings
import TreeSchema.Proofs.Values.Stores

/-!
Fields are written once. A record is kept over calls that assign its fields in
place; what a refused call leaves behind is what the next one finds. After any
calls on a new record, each field holds the first value that was offered for it
and accepted. The induction is on the calls: each finds the record storing what
the calls before it gave, and leaves it storing what they and the call itself
give.
-/

namespace TreeSchema

variable {κ : Type} [FieldCheck κ]

/-- The first value offered for a field that the check of the type accepts. -/
def RecordType.firstAccepted (type : RecordType κ) (calls : List (String × Value κ))
    (field : TypedField) : Option (Value κ) :=
  (calls.find? fun call =>
    call.1 = field.name && type.checking.accepts call.2 field.desc).map Prod.snd

namespace Record

/-- Assigns the field that stands at `index` in place: the slot is written after
both checks, and then the field is marked. -/
def assignInPlace (index : Nat) (field : TypedField) (value : Value κ) :
    EStateM AssignError (Record κ) Unit := do
  let record ← get
  if record.assigned.contains index then
    throw (.assignedTwice record.typeName field.name)
  if !record.type.checking.accepts value field.desc then
    throw (.mismatch record.typeName field.name field.desc)
  modify fun reached => { reached with slots := reached.slots.set index (some value) }
  modify fun reached => { reached with assigned := (reached.assigned.insert index).1 }

/-- A call on a record that is kept: an assignment in place, by name. -/
def perform (call : String × Value κ) : EStateM AssignError (Record κ) Unit := do
  let record ← get
  match Named.locate call.1 record.type.fields with
  | none => throw (.unknownField record.typeName call.1)
  | some (index, field) => assignInPlace index field call.2

theorem assignInPlace_run (record : Record κ) (index : Nat) (field : TypedField)
    (value : Value κ) :
    (assignInPlace index field value).run record =
      match record.assign index field value with
      | .ok next => .ok () next
      | .error error => .error error record := by
  rw [assign]
  by_cases hagain : record.assigned.contains index = true
  · simp [assignInPlace, hagain]
  · by_cases haccepted : record.type.checking.accepts value field.desc = true
    · simp [assignInPlace, hagain, haccepted]
    · simp [assignInPlace, hagain, haccepted]

/-- A call that goes through leaves the record that `set` returns, and a refused
one the record that it found. -/
theorem perform_run (record : Record κ) (call : String × Value κ) :
    (perform call).run record =
      match record.set call.1 call.2 with
      | .ok next => .ok () next
      | .error error => .error error record := by
  rw [set]
  cases hfound : Named.locate call.1 record.type.fields with
  | none => simp [perform, hfound]
  | some found =>
      simp only [← assignInPlace_run]
      simp [perform, hfound]

/-- The record behind a call, whether it goes through or is refused. -/
def attempt (record : Record κ) (call : String × Value κ) : Record κ :=
  stateAfter (perform call) record

def attempts (record : Record κ) (calls : List (String × Value κ)) : Record κ :=
  calls.foldl attempt record

theorem attempts_snoc (record : Record κ) (calls : List (String × Value κ))
    (call : String × Value κ) :
    record.attempts (calls ++ [call]) = (record.attempts calls).attempt call := by
  rw [attempts, List.foldl_append]
  rfl

theorem attempt_of_ok {record next : Record κ} {name : String} {value : Value κ}
    (h : record.set name value = .ok next) : record.attempt (name, value) = next := by
  simp only [attempt, stateAfter, perform_run, h]

theorem perform_of_error {record : Record κ} {name : String} {value : Value κ}
    {error : AssignError} (h : record.set name value = .error error) :
    (perform (name, value)).run record = .error error record := by
  simp only [perform_run, h]

theorem attempt_of_error {record : Record κ} {name : String} {value : Value κ}
    {error : AssignError} (h : record.set name value = .error error) :
    record.attempt (name, value) = record := by
  rw [attempt, stateAfter, perform_of_error h]

end Record

namespace RecordType

variable {type : RecordType κ} {calls : List (String × Value κ)}

theorem firstAccepted_snoc (name : String) (value : Value κ) (field : TypedField) :
    type.firstAccepted (calls ++ [(name, value)]) field =
      (type.firstAccepted calls field).or
        (if name = field.name && type.checking.accepts value field.desc then some value
          else none) := by
  simp only [firstAccepted, List.find?_append, Option.map_or, List.find?_cons, List.find?_nil]
  congr 1
  cases decide (name = field.name) && type.checking.accepts value field.desc <;> rfl

/-- A call on a field adds nothing that the check refuses, and nothing to a
field that has its value. -/
theorem firstAccepted_snoc_of_same {name : String} {value : Value κ} {field : TypedField}
    (hsettled : name = field.name → (type.firstAccepted calls field).isSome ∨
      type.checking.accepts value field.desc = false) :
    type.firstAccepted (calls ++ [(name, value)]) field = type.firstAccepted calls field := by
  rw [firstAccepted_snoc]
  cases hfirst : type.firstAccepted calls field with
  | some earlier => rfl
  | none =>
      rw [if_neg, Option.or_none]
      intro hoffered
      obtain ⟨hname, haccepted⟩ := Bool.and_eq_true_iff.mp hoffered
      rcases hsettled (of_decide_eq_true hname) with hgiven | hrefused
      · simp [hfirst] at hgiven
      · simp [haccepted] at hrefused

/-- A call that assigns the field is among these calls on a new record. -/
def AssignedBy (type : RecordType κ) (calls : List (String × Value κ)) (name : String) : Prop :=
  ∃ earlier value later, calls = earlier ++ (name, value) :: later ∧
    ∃ next, ((Record.blank type).attempts earlier).set name value = .ok next

end RecordType

section

variable {type : RecordType κ} (hdistinct : type.fieldNames.Nodup)
include hdistinct

theorem Record.Stores.attempt_field {record : Record κ} {calls : List (String × Value κ)}
    (h : record.Stores type (type.firstAccepted calls)) {field : TypedField}
    (hmem : field ∈ type.fields) (value : Value κ) :
    (record.attempt (field.name, value)).Stores type
      (type.firstAccepted (calls ++ [(field.name, value)])) := by
  have hkept (hsettled : (type.firstAccepted calls field).isSome ∨
      type.checking.accepts value field.desc = false) : ∀ other ∈ type.fields,
      type.firstAccepted calls other =
        type.firstAccepted (calls ++ [(field.name, value)]) other := by
    intro other hother
    refine (RecordType.firstAccepted_snoc_of_same ?_).symm
    intro hname
    rw [RecordType.field_unique hdistinct hmem hother hname.symm]
    exact hsettled
  cases hfirst : type.firstAccepted calls field with
  | some earlier =>
      have hgiven : (type.firstAccepted calls field).isSome := by rw [hfirst]; rfl
      rw [Record.attempt_of_error (h.set_again hdistinct hmem hgiven value)]
      exact h.congr (hkept (.inl hgiven))
  | none =>
      cases hcheck : type.checking.accepts value field.desc with
      | false =>
          rw [Record.attempt_of_error (h.set_refused hdistinct hmem hfirst hcheck)]
          exact h.congr (hkept (.inr hcheck))
      | true =>
          obtain ⟨next, hset, hnext⟩ := h.set_accepted hdistinct hmem hfirst hcheck
          rw [Record.attempt_of_ok hset]
          apply hnext.congr
          intro other hother
          rw [RecordType.firstAccepted_snoc]
          split
          case isTrue hname =>
            obtain rfl := RecordType.field_unique hdistinct hmem hother hname
            simp [hfirst, hcheck]
          case isFalse hname =>
            simp [Ne.symm hname]

/-- One call keeps the account of the first accepted values. -/
theorem Record.Stores.attempt {record : Record κ} {calls : List (String × Value κ)}
    (h : record.Stores type (type.firstAccepted calls)) (name : String) (value : Value κ) :
    (record.attempt (name, value)).Stores type (type.firstAccepted (calls ++ [(name, value)])) := by
  cases hfound : Named.locate name type.fields with
  | none =>
      have hunknown : name ∉ type.fieldNames := Named.locate_eq_none_iff.mp hfound
      rw [Record.attempt_of_error (h.set_unknown hunknown value)]
      apply h.congr
      intro field hmem
      refine (RecordType.firstAccepted_snoc_of_same ?_).symm
      intro hname
      exact absurd (List.mem_map_of_mem hmem) (hname ▸ hunknown)
  | some found =>
      obtain ⟨index, field⟩ := found
      obtain ⟨hindex, hname⟩ := Named.locate_eq_some hfound
      obtain rfl : field.name = name := hname
      exact h.attempt_field hdistinct (List.mem_of_getElem? hindex) value

theorem Record.Stores.attempts {record : Record κ} {before : List (String × Value κ)}
    (h : record.Stores type (type.firstAccepted before)) (calls : List (String × Value κ)) :
    (record.attempts calls).Stores type (type.firstAccepted (before ++ calls)) := by
  induction calls generalizing record before with
  | nil =>
      rw [List.append_nil]
      exact h
  | cons call rest ih =>
      have hrest := ih (h.attempt hdistinct call.1 call.2)
      rw [List.append_assoc] at hrest
      exact hrest

/-- After a whole run, a new record stores the first accepted values. -/
theorem Record.attempts_store (calls : List (String × Value κ)) :
    ((Record.blank type).attempts calls).Stores type (type.firstAccepted calls) := by
  have hblank : (Record.blank type).Stores type (type.firstAccepted []) :=
    Record.blank_stores type
  exact hblank.attempts hdistinct calls

theorem RecordType.assignedBy_iff {calls : List (String × Value κ)} {field : TypedField}
    (hmem : field ∈ type.fields) :
    type.AssignedBy calls field.name ↔ (type.firstAccepted calls field).isSome := by
  constructor
  · rintro ⟨earlier, value, later, rfl, next, hset⟩
    have hcases := (Record.attempts_store hdistinct earlier).set_field_iff hdistinct hmem value
    obtain ⟨-, haccepted⟩ := hcases.2.2.mp ⟨next, hset⟩
    rw [firstAccepted, Option.isSome_map, List.find?_isSome]
    exact ⟨(field.name, value), by simp, by simp [haccepted]⟩
  · intro hgiven
    rw [firstAccepted, Option.isSome_map] at hgiven
    obtain ⟨⟨name, value⟩, hfind⟩ := Option.isSome_iff_exists.mp hgiven
    obtain ⟨hoffered, earlier, later, rfl, hbefore⟩ := List.find?_eq_some_iff_append.mp hfind
    obtain ⟨hname, haccepted⟩ := Bool.and_eq_true_iff.mp hoffered
    obtain rfl := of_decide_eq_true hname
    have hnone : type.firstAccepted earlier field = none := by
      rw [firstAccepted, Option.map_eq_none_iff, List.find?_eq_none]
      intro call hcall
      simpa only [Bool.not_eq_true, Bool.not_eq_true'] using hbefore call hcall
    obtain ⟨next, hset, -⟩ :=
      (Record.attempts_store hdistinct earlier).set_accepted hdistinct hmem hnone haccepted
    exact ⟨earlier, value, later, rfl, next, hset⟩

end

/-- Fields of synthesized record types are written once. Whatever was called on
a new record, a field holds the first value offered for it that the check
accepts, and a field without one its default; the fields that are left over are
listed in declaration order. The next call is refused when it names no field,
when a call before it assigned the field, or else when the check refuses the
value; a refused call ends in the record that it found. -/
theorem Synthesis.fields_written_once {synthesis : Synthesis κ} {space : Namespace κ}
    (hrun : synthesis.run = .ok space) {type : RecordType κ} (hholds : space.Holds type)
    (calls : List (String × Value κ)) :
    let record := (Record.blank type).attempts calls
    (∀ field ∈ type.fields, ∀ value, type.firstAccepted calls field = some value →
      record.get? field.name = some value ∧ record.isAssigned field.name = true) ∧
    (∀ field ∈ type.fields, type.firstAccepted calls field = none →
      (record.get? field.name =
        match field.desc with
        | .maybe _ => some .absent
        | .array _ => some (.array [])
        | _ => none) ∧
      record.isAssigned field.name = false) ∧
    record.unassigned = (type.fields.filter fun field =>
      !field.desc.hasDefault && !record.isAssigned field.name).map TypedField.name ∧
    (∀ name value,
      (record.set name value = .error (.unknownField type.name name) ↔ name ∉ type.fieldNames) ∧
      ∀ error, record.set name value = .error error →
        (Record.perform (name, value)).run record = .error error record ∧
          (Record.blank type).attempts (calls ++ [(name, value)]) = record) ∧
    ∀ field ∈ type.fields, ∀ value,
      (record.set field.name value = .error (.assignedTwice type.name field.name) ↔
        type.AssignedBy calls field.name) ∧
      (record.set field.name value = .error (.mismatch type.name field.name field.desc) ↔
        ¬ type.AssignedBy calls field.name ∧ type.checking.accepts value field.desc = false) ∧
      ((∃ next, record.set field.name value = .ok next) ↔
        ¬ type.AssignedBy calls field.name ∧ type.checking.accepts value field.desc = true) := by
  intro record
  have hdistinct := Synthesis.fieldNames_nodup hrun hholds
  have hstores : record.Stores type (type.firstAccepted calls) :=
    Record.attempts_store hdistinct calls
  refine ⟨?_, ?_, ?_, ?_, ?_⟩
  · intro field hmem value hfirst
    rw [hstores.get?_field hdistinct hmem, hstores.isAssigned_field hdistinct hmem, hfirst]
    exact ⟨rfl, rfl⟩
  · intro field hmem hfirst
    rw [hstores.get?_field hdistinct hmem, hstores.isAssigned_field hdistinct hmem, hfirst]
    exact ⟨rfl, rfl⟩
  · rw [hstores.unassigned_eq]
    congr 1
    apply List.filter_congr
    intro field hmem
    rw [hstores.isAssigned_field hdistinct hmem]
  · intro name value
    refine ⟨hstores.set_unknown_iff name value, ?_⟩
    intro error hset
    refine ⟨Record.perform_of_error hset, ?_⟩
    rw [Record.attempts_snoc]
    exact Record.attempt_of_error hset
  · intro field hmem value
    rw [RecordType.assignedBy_iff hdistinct hmem]
    exact hstores.set_field_iff hdistinct hmem value

/-- A refused value, an accepted one and a second one for the field `x`. -/
theorem Synthesis.fields_written_once_point :
    let fields : List Field := [⟨"x", "int", false, false⟩, ⟨"tags", "string", false, true⟩]
    let synthesis : Synthesis Empty :=
      ⟨0, Schema.declare 0 "shapes" [.product "point" fields], .descriptor⟩
    let type : RecordType Empty :=
      ⟨0, "point", .product ⟨0, "point", fields⟩, [⟨"x", .int⟩, ⟨"tags", .array .string⟩],
        .descriptor⟩
    let calls : List (String × Value Empty) :=
      [("x", .string "one"), ("x", .int 1), ("y", .int 2), ("x", .int 3)]
    let space : Namespace Empty := ⟨[.record type], []⟩
    synthesis.run = .ok space ∧ space.Holds type ∧
      ((Record.blank type).attempts calls).get? "x" = some (.int 1) ∧
      ((Record.blank type).attempts calls).get? "tags" = some (.array []) ∧
      ((Record.blank type).attempts calls).set "x" (.int 3) =
        .error (.assignedTwice "point" "x") := by
  intro fields synthesis type calls space
  have hrun : synthesis.run = .ok space := rfl
  have hholds : space.Holds type := .inl List.mem_cons_self
  have hdistinct : type.fieldNames.Nodup := Synthesis.fieldNames_nodup hrun hholds
  obtain ⟨hassigned, hdefault, -, -, hcalls⟩ :=
    Synthesis.fields_written_once hrun hholds calls
  have hx : ⟨"x", .int⟩ ∈ type.fields := List.mem_cons_self
  have htags : ⟨"tags", .array .string⟩ ∈ type.fields := List.mem_cons_of_mem _ List.mem_cons_self
  refine ⟨hrun, hholds, (hassigned _ hx _ rfl).1, (hdefault _ htags rfl).1, ?_⟩
  exact (hcalls _ hx _).1.mpr ((RecordType.assignedBy_iff hdistinct hx).mpr rfl)

end TreeSchema
