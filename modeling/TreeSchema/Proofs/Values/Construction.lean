import TreeSchema.Proofs.Synthesis.Bindings
import TreeSchema.Proofs.Values.Arguments

/-!
A construction depends on its bindings only. What the record stores after the
bindings fixes it to the last word of its set of assigned fields, so argument
lists with the same bindings in another order, or with values passed by name
instead of by position, give the same record or fail together.
-/

namespace TreeSchema

variable {κ : Type}

/-- Fields that have no default and are not bound, in declaration order. -/
def RecordType.missing (type : RecordType κ) (bindings : List (String × Value κ)) :
    List String :=
  (type.fields.filter fun field =>
    !field.desc.hasDefault && field.name ∉ bindings.map Prod.fst).map TypedField.name

theorem RecordType.missing_eq_nil_iff {type : RecordType κ}
    {bindings : List (String × Value κ)} :
    type.missing bindings = [] ↔
      ∀ field ∈ type.fields, field.desc.hasDefault = true ∨ field.name ∈ bindings.map Prod.fst := by
  rw [missing, List.map_eq_nil_iff, List.filter_eq_nil_iff]
  apply forall₂_congr
  intro field hfield
  cases field.desc.hasDefault <;> simp

theorem RecordType.missing_perm (type : RecordType κ) {bindings others : List (String × Value κ)}
    (hperm : bindings.Perm others) : type.missing bindings = type.missing others := by
  simp only [missing, (hperm.map Prod.fst).mem_iff]

/-- The end of a construction: with any binding made, no field is left without a
value. -/
def RecordType.requireAll (type : RecordType κ) (bindings : List (String × Value κ))
    (built : Record κ) : Except AssignError (Record κ) :=
  if bindings.isEmpty then .ok built
  else
    match built.unassigned with
    | [] => .ok built
    | fields => .error (.missing type.name fields)

theorem RecordType.requireAll_eq_ok_iff {type : RecordType κ}
    {bindings : List (String × Value κ)} {built record : Record κ} :
    type.requireAll bindings built = .ok record ↔
      built = record ∧ (bindings = [] ∨ built.unassigned = []) := by
  cases bindings with
  | nil => simp [requireAll]
  | cons binding rest => cases hfields : built.unassigned <;> simp [requireAll, hfields]

theorem RecordType.requireAll_eq_error_iff {type : RecordType κ}
    {bindings : List (String × Value κ)} {built : Record κ} {error : AssignError} :
    type.requireAll bindings built = .error error ↔
      bindings ≠ [] ∧ built.unassigned ≠ [] ∧
        error = .missing type.name built.unassigned := by
  cases bindings with
  | nil => simp [requireAll]
  | cons binding rest =>
      cases hfields : built.unassigned <;> simp [requireAll, hfields, eq_comm]

/-- There are bindings as soon as there is an argument. -/
theorem RecordType.bindings_isEmpty {type : RecordType κ} {positional : List (Value κ)}
    {named : List (String × Value κ)} (hroom : positional.length ≤ type.size) :
    (type.bindings positional named).isEmpty = (positional.isEmpty && named.isEmpty) := by
  cases positional with
  | nil => simp [bindings]
  | cons value rest =>
      cases hfields : type.fields with
      | nil => simp [size, hfields] at hroom
      | cons field others => simp [bindings, fieldNames, Named.names, hfields]

namespace Record

/-- The set of assigned fields has the words that a new record gets. -/
def Fits (record : Record κ) : Prop :=
  record.assigned.words.size = (IndexSet.withSize record.type.size).words.size

variable {type : RecordType κ} {record other : Record κ}

theorem Stores.unassigned_missing {bindings : List (String × Value κ)}
    (h : record.Stores type (boundValue? bindings)) :
    record.unassigned = type.missing bindings := by
  rw [h.unassigned_eq, RecordType.missing]
  congr 1
  apply List.filter_congr
  intro field _
  have hbound : (boundValue? bindings field).isSome =
      decide (field.name ∈ bindings.map Prod.fst) := by
    rw [Bool.eq_iff_iff, isSome_boundValue?, decide_eq_true_iff]
  rw [hbound, decide_not]

/-- A record that stores bindings reads them back, and defaults elsewhere. -/
theorem Stores.reads_bindings (hdistinct : type.fieldNames.Nodup)
    {bindings : List (String × Value κ)} (h : record.Stores type (boundValue? bindings))
    (honce : (bindings.map Prod.fst).Nodup) {field : TypedField} (hfield : field ∈ type.fields) :
    (∀ value, (field.name, value) ∈ bindings →
      record.get? field.name = some value ∧ record.isAssigned field.name = true) ∧
    (field.name ∉ bindings.map Prod.fst →
      record.get? field.name = field.desc.default? ∧ record.isAssigned field.name = false) := by
  rw [h.get?_field hdistinct hfield, h.isAssigned_field hdistinct hfield]
  constructor
  · intro value hbound
    rw [(boundValue?_eq_some_iff honce).mpr hbound]
    exact ⟨rfl, rfl⟩
  · intro hunbound
    rw [boundValue?_eq_none_iff.mpr hunbound]
    exact ⟨rfl, rfl⟩

/-- What a record stores fixes it. -/
theorem Stores.unique {given : TypedField → Option (Value κ)} (h : record.Stores type given)
    (hfits : record.Fits) (hother : other.Stores type given) (hotherFits : other.Fits) :
    record = other := by
  -- the members alone leave open how many empty words follow the last one
  have hassigned : record.assigned = other.assigned := by
    apply IndexSet.ext_contains
    · rw [hfits, hotherFits, h.ofType, hother.ofType]
    · intro index
      rw [h.assigned, hother.assigned]
  have htype := h.ofType.trans hother.ofType.symm
  have hslots := h.slots.trans hother.slots.symm
  cases record
  cases other
  cases htype
  cases hslots
  cases hassigned
  rfl

variable [FieldCheck κ]

theorem set_fits {name : String} {value : Value κ} (hfits : record.Fits)
    (h : record.set name value = .ok other) : other.Fits := by
  unfold set at h
  split at h
  case h_1 => cases h
  case h_2 index field hfound =>
    obtain ⟨hfield, -⟩ := Named.locate_eq_some hfound
    have hindex : index < record.type.size := (List.getElem?_eq_some_iff.mp hfield).1
    have hroom : index / 64 < record.assigned.words.size := by
      rw [hfits, IndexSet.withSize, Array.size_replicate]
      omega
    obtain ⟨-, rfl⟩ := assign_eq_ok h
    rw [Fits, IndexSet.size_insert hroom]
    exact hfits

theorem setNamed_fits {bindings : List (String × Value κ)}
    (h : (blank type).setNamed bindings = .ok record) : record.Fits := by
  have hblank : (blank type).Fits := rfl
  refine foldlM_ok_preserves Fits ?_ hblank h
  intro binding _ state next hstate hset
  exact set_fits hstate hset

variable {positional : List (Value κ)} {named bindings : List (String × Value κ)}
  {error : AssignError}

section

variable (hdistinct : type.fieldNames.Nodup)
include hdistinct

theorem setNamed_eq_ok_iff : (blank type).setNamed bindings = .ok record ↔
    type.Takes bindings ∧ record.Stores type (boundValue? bindings) ∧ record.Fits := by
  constructor
  · intro h
    have htakes : type.Takes bindings := by
      apply Classical.byContradiction
      intro hnot
      obtain ⟨before, binding, after, error, rfl, hbefore, hrefused⟩ :=
        RecordType.exists_refused hdistinct hnot
      rw [setNamed_refused hdistinct hbefore hrefused] at h
      cases h
    obtain ⟨next, hnext, hstores⟩ := setNamed_takes hdistinct htakes
    obtain rfl : next = record := Except.ok.inj (hnext.symm.trans h)
    exact ⟨htakes, hstores, setNamed_fits h⟩
  · rintro ⟨htakes, hstores, hfits⟩
    obtain ⟨next, hnext, hnextStores⟩ := setNamed_takes hdistinct htakes
    rw [hnext, hnextStores.unique (setNamed_fits hnext) hstores hfits]

theorem setNamed_eq_error_iff : (blank type).setNamed bindings = .error error ↔
    ∃ before binding after, bindings = before ++ binding :: after ∧ type.Takes before ∧
      type.Refuses before binding error := by
  constructor
  · intro h
    have hnot : ¬ type.Takes bindings := by
      intro htakes
      obtain ⟨next, hnext, -⟩ := setNamed_takes hdistinct htakes
      rw [hnext] at h
      cases h
    obtain ⟨before, binding, after, found, rfl, hbefore, hrefused⟩ :=
      RecordType.exists_refused hdistinct hnot
    rw [setNamed_refused hdistinct hbefore hrefused] at h
    cases h
    exact ⟨before, binding, after, rfl, hbefore, hrefused⟩
  · rintro ⟨before, binding, after, rfl, hbefore, hrefused⟩
    exact setNamed_refused hdistinct hbefore hrefused

end

theorem setNamed_append (record : Record κ) (bindings others : List (String × Value κ)) :
    record.setNamed (bindings ++ others) =
      record.setNamed bindings >>= fun reached => reached.setNamed others :=
  List.foldlM_append

theorem construct_of_surplus (hsurplus : type.size < positional.length) :
    construct type positional named =
      .error (.tooManyArguments type.name type.size positional.length) := by
  unfold construct
  rw [if_pos hsurplus]
  rfl

theorem room_of_construct (h : construct type positional named = .ok record) :
    positional.length ≤ type.size := by
  apply Nat.not_lt.mp
  intro hsurplus
  rw [construct_of_surplus hsurplus] at h
  cases h

section

variable (hdistinct : type.fieldNames.Nodup) (hroom : positional.length ≤ type.size)
include hdistinct hroom

/-- With room for all positional values, a construction assigns its bindings in
turn and then looks for fields without a value. -/
theorem construct_eq : construct type positional named =
    (blank type).setNamed (type.bindings positional named) >>=
      type.requireAll (type.bindings positional named) := by
  have hleading := setLeading_eq hdistinct (rfl : (blank type).type = type) positional
  unfold construct
  rw [if_neg (Nat.not_lt.mpr hroom), hleading, ← RecordType.bindings_isEmpty hroom,
    RecordType.bindings, setNamed_append, bind_assoc]
  rfl

theorem construct_eq_ok_iff : construct type positional named = .ok record ↔
    type.Takes (type.bindings positional named) ∧
      (type.bindings positional named = [] ∨
        type.missing (type.bindings positional named) = []) ∧
      record.Stores type (boundValue? (type.bindings positional named)) ∧ record.Fits := by
  rw [construct_eq hdistinct hroom, bind_eq_ok_iff]
  constructor
  · rintro ⟨built, hbuilt, hrecord⟩
    obtain ⟨rfl, hfilled⟩ := RecordType.requireAll_eq_ok_iff.mp hrecord
    obtain ⟨htakes, hstores, hfits⟩ := (setNamed_eq_ok_iff hdistinct).mp hbuilt
    rw [hstores.unassigned_missing] at hfilled
    exact ⟨htakes, hfilled, hstores, hfits⟩
  · rintro ⟨htakes, hfilled, hstores, hfits⟩
    rw [← hstores.unassigned_missing] at hfilled
    exact ⟨record, (setNamed_eq_ok_iff hdistinct).mpr ⟨htakes, hstores, hfits⟩,
      RecordType.requireAll_eq_ok_iff.mpr ⟨rfl, hfilled⟩⟩

theorem construct_eq_error_iff : construct type positional named = .error error ↔
    (∃ before binding after, type.bindings positional named = before ++ binding :: after ∧
      type.Takes before ∧ type.Refuses before binding error) ∨
    type.Takes (type.bindings positional named) ∧ type.bindings positional named ≠ [] ∧
      type.missing (type.bindings positional named) ≠ [] ∧
      error = .missing type.name (type.missing (type.bindings positional named)) := by
  rw [construct_eq hdistinct hroom, bind_eq_error_iff, setNamed_eq_error_iff hdistinct]
  apply or_congr Iff.rfl
  constructor
  · rintro ⟨built, hbuilt, hmissing⟩
    obtain ⟨htakes, hstores, -⟩ := (setNamed_eq_ok_iff hdistinct).mp hbuilt
    rw [RecordType.requireAll_eq_error_iff, hstores.unassigned_missing] at hmissing
    exact ⟨htakes, hmissing⟩
  · rintro ⟨htakes, hmissing⟩
    obtain ⟨built, hbuilt, hstores⟩ := setNamed_takes hdistinct htakes
    refine ⟨built, hbuilt, ?_⟩
    rw [RecordType.requireAll_eq_error_iff, hstores.unassigned_missing]
    exact hmissing

theorem exists_construct_iff : (∃ record, construct type positional named = .ok record) ↔
    type.Takes (type.bindings positional named) ∧
      (type.bindings positional named = [] ∨
        type.missing (type.bindings positional named) = []) := by
  constructor
  · rintro ⟨record, hrecord⟩
    obtain ⟨htakes, hfilled, -⟩ := (construct_eq_ok_iff hdistinct hroom).mp hrecord
    exact ⟨htakes, hfilled⟩
  · rintro ⟨htakes, hfilled⟩
    obtain ⟨built, hbuilt, hstores⟩ := setNamed_takes hdistinct htakes
    exact ⟨built, (construct_eq_ok_iff hdistinct hroom).mpr
      ⟨htakes, hfilled, hstores, setNamed_fits hbuilt⟩⟩

/-- Passing the positional values by name makes no difference. -/
theorem construct_eq_named : construct type positional named =
    construct type [] (type.bindings positional named) := by
  have hnone : ([] : List (Value κ)).length ≤ type.size := Nat.zero_le _
  have hsame : type.bindings [] (type.bindings positional named) =
      type.bindings positional named := by
    rw [RecordType.bindings, List.zip_nil_right, List.nil_append]
  rw [construct_eq hdistinct hroom, construct_eq hdistinct hnone, hsame]

/-- Neither does the order of the bindings, as far as a record comes of them. -/
theorem construct_ok_perm {others : List (Value κ)} {otherNamed : List (String × Value κ)}
    (hothers : others.length ≤ type.size)
    (hperm : (type.bindings positional named).Perm (type.bindings others otherNamed))
    (h : construct type positional named = .ok record) :
    construct type others otherNamed = .ok record := by
  obtain ⟨htakes, hfilled, hstores, hfits⟩ := (construct_eq_ok_iff hdistinct hroom).mp h
  rw [construct_eq_ok_iff hdistinct hothers]
  refine ⟨htakes.perm hperm, ?_, ?_, hfits⟩
  · rw [← type.missing_perm hperm]
    refine hfilled.imp_left ?_
    intro hnone
    rw [hnone] at hperm
    exact hperm.nil_eq.symm
  · apply hstores.congr
    intro field _
    exact boundValue?_perm htakes.once hperm field

end

end Record

/-- One call on a builder: the next positional value, or a value by name. -/
inductive Argument (κ : Type) where
  | next (value : Value κ)
  | named (field : String) (value : Value κ)

namespace Argument

def value? : Argument κ → Option (Value κ)
  | .next value => some value
  | .named _ _ => none

def binding? : Argument κ → Option (String × Value κ)
  | .next _ => none
  | .named field value => some (field, value)

end Argument

namespace RecordBuilder

def take (builder : RecordBuilder κ) : Argument κ → RecordBuilder κ
  | .next value => builder.arg value
  | .named field value => builder.field field value

/-- A builder keeps the positional values apart from the named ones, each in the
order of the calls. -/
theorem takeAll_eq (builder : RecordBuilder κ) (arguments : List (Argument κ)) :
    arguments.foldl take builder =
      ⟨builder.type, builder.positional ++ arguments.filterMap Argument.value?,
        builder.named ++ arguments.filterMap Argument.binding?⟩ := by
  induction arguments generalizing builder with
  | nil => simp
  | cons argument rest ih =>
      rw [List.foldl_cons, ih]
      cases argument <;>
        simp [take, arg, field, List.filterMap_cons, Argument.value?, Argument.binding?]

theorem build_takeAll [FieldCheck κ] (type : RecordType κ) (arguments : List (Argument κ)) :
    (arguments.foldl take (start type)).build =
      Record.construct type (arguments.filterMap Argument.value?)
        (arguments.filterMap Argument.binding?) := by
  rw [takeAll_eq]
  rfl

end RecordBuilder

/-- A construction of a synthesized record type depends on its bindings only. It
succeeds when there are no more positional values than fields, the bindings go
through one after the other, and with any binding all fields without a default
are bound. Then bound fields hold their values and count as assigned, and the
others hold their defaults. Otherwise the first thing wrong is reported: surplus
positional values, the first binding that is refused, or all missing fields.
Values may be passed by name instead of by position, the bindings may come in
another order without any change in the record, and a builder may be given the
two kinds of arguments in any interleaving. -/
theorem Synthesis.construct_by_bindings [FieldCheck κ] {synthesis : Synthesis κ}
    {space : Namespace κ} (hrun : synthesis.run = .ok space) {type : RecordType κ}
    (hholds : space.Holds type) (positional : List (Value κ))
    (named : List (String × Value κ)) :
    let bindings := type.bindings positional named
    let outcome := Record.construct type positional named
    ((∃ record, outcome = .ok record) ↔
      positional.length ≤ type.size ∧ type.Takes bindings ∧
        (bindings = [] ∨ ∀ field ∈ type.fields,
          field.desc.hasDefault = true ∨ field.name ∈ bindings.map Prod.fst)) ∧
    (∀ record, outcome = .ok record →
      record.type = type ∧ ∀ field ∈ type.fields,
        (∀ value, (field.name, value) ∈ bindings →
          record.get? field.name = some value ∧ record.isAssigned field.name = true) ∧
        (field.name ∉ bindings.map Prod.fst →
          record.get? field.name = field.desc.default? ∧
            record.isAssigned field.name = false)) ∧
    (∀ error, outcome = .error error ↔
      type.size < positional.length ∧
          error = .tooManyArguments type.name type.size positional.length ∨
        positional.length ≤ type.size ∧
          ((∃ before binding after, bindings = before ++ binding :: after ∧
              type.Takes before ∧ type.Refuses before binding error) ∨
            type.Takes bindings ∧ bindings ≠ [] ∧ type.missing bindings ≠ [] ∧
              error = .missing type.name (type.missing bindings))) ∧
    (positional.length ≤ type.size → outcome = Record.construct type [] bindings) ∧
    (∀ (others : List (Value κ)) (otherNamed : List (String × Value κ)),
      (others.length ≤ type.size ↔ positional.length ≤ type.size) →
      (type.bindings others otherNamed).Perm bindings → ∀ record,
        Record.construct type others otherNamed = .ok record ↔ outcome = .ok record) ∧
    ∀ arguments : List (Argument κ), arguments.filterMap Argument.value? = positional →
      arguments.filterMap Argument.binding? = named →
      (arguments.foldl RecordBuilder.take (RecordBuilder.start type)).build = outcome := by
  intro bindings outcome
  have hdistinct := Synthesis.fieldNames_nodup hrun hholds
  refine ⟨?_, ?_, ?_, ?_, ?_, ?_⟩
  · constructor
    · rintro ⟨record, hrecord⟩
      have hroom := Record.room_of_construct hrecord
      rw [← RecordType.missing_eq_nil_iff]
      exact ⟨hroom, (Record.exists_construct_iff hdistinct hroom).mp ⟨record, hrecord⟩⟩
    · rintro ⟨hroom, hbindings⟩
      rw [← RecordType.missing_eq_nil_iff] at hbindings
      exact (Record.exists_construct_iff hdistinct hroom).mpr hbindings
  · intro record hrecord
    have hroom := Record.room_of_construct hrecord
    obtain ⟨htakes, -, hstores, -⟩ := (Record.construct_eq_ok_iff hdistinct hroom).mp hrecord
    refine ⟨hstores.ofType, ?_⟩
    intro field hfield
    exact hstores.reads_bindings hdistinct htakes.once hfield
  · intro error
    rcases Nat.lt_or_ge type.size positional.length with hsurplus | hroom
    · have hfull : ¬ positional.length ≤ type.size := Nat.not_le.mpr hsurplus
      simp only [outcome, Record.construct_of_surplus hsurplus, hsurplus, hfull, true_and,
        false_and, or_false, Except.error.injEq, eq_comm]
    · have hfew : ¬ type.size < positional.length := Nat.not_lt.mpr hroom
      rw [Record.construct_eq_error_iff hdistinct hroom]
      simp only [bindings, hfew, hroom, true_and, false_and, false_or]
  · intro hroom
    exact Record.construct_eq_named hdistinct hroom
  · intro others otherNamed hrooms hperm record
    constructor
    · intro hrecord
      have hroom := Record.room_of_construct hrecord
      exact Record.construct_ok_perm hdistinct hroom (hrooms.mp hroom) hperm hrecord
    · intro hrecord
      have hroom := Record.room_of_construct hrecord
      exact Record.construct_ok_perm hdistinct hroom (hrooms.mpr hroom) hperm.symm hrecord
  · rintro arguments rfl rfl
    exact RecordBuilder.build_takeAll type arguments

/-- A positional and a named value, both by name in the other order, and both
from a builder. -/
theorem Synthesis.construct_by_bindings_point :
    let fields : List Field :=
      [⟨"x", "int", false, false⟩, ⟨"y", "int", false, false⟩, ⟨"tags", "string", false, true⟩]
    let synthesis : Synthesis Empty :=
      ⟨0, Schema.declare 0 "shapes" [.product "point" fields], .descriptor⟩
    let type : RecordType Empty :=
      ⟨0, "point", .product ⟨0, "point", fields⟩,
        [⟨"x", .int⟩, ⟨"y", .int⟩, ⟨"tags", .array .string⟩], .descriptor⟩
    let space : Namespace Empty := ⟨[.record type], []⟩
    let named : List (String × Value Empty) := [("y", .int 2)]
    synthesis.run = .ok space ∧ space.Holds type ∧
      ∃ record, Record.construct type [.int 1] named = .ok record ∧
        record.get? "x" = some (.int 1) ∧ record.isAssigned "tags" = false ∧
        Record.construct type [] [("y", .int 2), ("x", .int 1)] = .ok record ∧
        ([.named "y" (.int 2), .next (.int 1)].foldl RecordBuilder.take
          (RecordBuilder.start type)).build = .ok record := by
  intro fields synthesis type space named
  have hrun : synthesis.run = .ok space := rfl
  have hholds : space.Holds type := .inl List.mem_cons_self
  have hleading : type.Takes ([] ++ [("x", .int 1)]) :=
    RecordType.takes_snoc_iff.mpr ⟨type.takes_nil, by decide, by decide, by decide⟩
  have htakes : type.Takes (type.bindings [.int 1] named) :=
    RecordType.takes_snoc_iff.mpr ⟨hleading, by decide, by decide, by decide⟩
  obtain ⟨hsucceeds, hfields, -, -, hperm, hbuilder⟩ :=
    Synthesis.construct_by_bindings hrun hholds [.int 1] named
  obtain ⟨record, hrecord⟩ := hsucceeds.mpr ⟨by decide, htakes, .inr (by decide)⟩
  obtain ⟨-, hvalues⟩ := hfields record hrecord
  have hx := hvalues ⟨"x", .int⟩ List.mem_cons_self
  have htags := hvalues ⟨"tags", .array .string⟩
    (List.mem_cons_of_mem _ (List.mem_cons_of_mem _ List.mem_cons_self))
  refine ⟨hrun, hholds, record, hrecord, (hx.1 _ List.mem_cons_self).1, (htags.2 ?_).2, ?_, ?_⟩
  · decide
  · exact (hperm [] _ (by decide) (.swap _ _ _) record).mpr hrecord
  · rw [hbuilder _ rfl rfl]
    exact hrecord

end TreeSchema
