import TreeSchema.Proofs.Indexed
import TreeSchema.Proofs.Synthesis.Overlays
import TreeSchema.Values.Assign

/-!
Namespaces with an index on each side, for types and for tables, and record types
and schemas with one. The index is filled as entries are bound or installed and
serves every lookup. An indexed namespace does what its contents do: it finds the
same entries, refuses the same names and is left with the same contents by every
operation, so the reachable namespaces are the contents of the reachable indexed
ones.
-/

namespace TreeSchema

variable {κ : Type}

structure IndexedNamespace (κ : Type) where
  types : Indexed (GeneratedType κ)
  tables : Indexed TagTable

namespace IndexedNamespace

def contents (space : IndexedNamespace κ) : Namespace κ :=
  ⟨space.types.entries, space.tables.entries⟩

def empty : IndexedNamespace κ := ⟨.empty, .empty⟩

def get? (space : IndexedNamespace κ) (name : String) : Option (GeneratedType κ) :=
  space.types.get? name

def tags? (space : IndexedNamespace κ) (name : String) : Option TagTable :=
  space.tables.get? name

def isBound (space : IndexedNamespace κ) (name : String) : Bool :=
  space.types.bound name || space.tables.bound name

theorem not_bound {space : IndexedNamespace κ} {name : String} (h : ¬ space.isBound name = true) :
    space.types.index[name]? = none ∧ space.tables.index[name]? = none := by
  rw [isBound, Bool.or_eq_true, not_or] at h
  exact ⟨space.types.index_eq_none_of_not_bound h.1, space.tables.index_eq_none_of_not_bound h.2⟩

/-- Binds a type or a table under its own name, which must be indexed on neither
side. -/
def add (space : IndexedNamespace κ) (entry : Installation κ) :
    Except Flaw (IndexedNamespace κ) :=
  if h : space.isBound entry.name then .error (.duplicateName entry.name)
  else .ok <|
    match entry, not_bound h with
    | .type type, hnew => { space with types := space.types.push type hnew.1 }
    | .tags table, hnew => { space with tables := space.tables.push table hnew.2 }

def receive (space : IndexedNamespace κ) : Installation κ → IndexedNamespace κ
  | .type type => { space with types := space.types.put type }
  | .tags table => { space with tables := space.tables.put table }

variable (space : IndexedNamespace κ)

theorem get?_eq (name : String) : space.get? name = space.contents.get? name :=
  space.types.get?_eq name

theorem tags?_eq (name : String) : space.tags? name = space.contents.tags? name :=
  space.tables.get?_eq name

theorem isBound_eq (name : String) : space.isBound name = space.contents.isBound name := by
  rw [isBound, Indexed.bound_eq, Indexed.bound_eq]
  rfl

theorem map_contents_add (entry : Installation κ) :
    (space.add entry).map contents = space.contents.add entry := by
  rw [add, Namespace.add_eq, ← isBound_eq]
  split
  · rfl
  · cases entry <;> rfl

theorem contents_receive (entry : Installation κ) :
    (space.receive entry).contents = space.contents.receive entry := by
  cases entry with
  | type type => exact congrArg (Namespace.mk · _) (space.types.entries_put type)
  | tags table => exact congrArg (Namespace.mk _) (space.tables.entries_put table)

end IndexedNamespace

namespace Synthesis

variable (synthesis : Synthesis κ)

/-- Binds what one definition gives, with the check of the index for each name. -/
def defineIndexed (space : IndexedNamespace κ) (definition : Definition) :
    Except Malformed (IndexedNamespace κ) :=
  (synthesis.typesOf definition >>= fun types =>
    (entriesOf types).foldlM IndexedNamespace.add space).mapError
      fun flaw => ⟨definition.name, flaw⟩

def runIndexed : Except Malformed (IndexedNamespace κ) :=
  synthesis.schema.definitions.foldlM synthesis.defineIndexed .empty

theorem map_contents_defineIndexed (space : IndexedNamespace κ) (definition : Definition) :
    (synthesis.defineIndexed space definition).map IndexedNamespace.contents =
      synthesis.step space.contents definition := by
  rw [defineIndexed, step, define_eq]
  cases synthesis.typesOf definition with
  | error flaw => rfl
  | ok types =>
      have hadd := foldlM_view IndexedNamespace.contents IndexedNamespace.map_contents_add
        (entriesOf types) space
      simp only [bind, Except.bind, ← hadd]
      cases (entriesOf types).foldlM IndexedNamespace.add space <;> rfl

/-- A run with an index accepts and refuses what the run without one does, with
the same error, and has its contents. -/
theorem map_contents_runIndexed :
    synthesis.runIndexed.map IndexedNamespace.contents = synthesis.run := by
  rw [run_eq]
  exact foldlM_view IndexedNamespace.contents synthesis.map_contents_defineIndexed _ .empty

end Synthesis

namespace IndexedNamespace

theorem contents_installInto (upper : Namespace κ) (base : IndexedNamespace κ) :
    (upper.installInto receive base).contents = upper.overlay base.contents := by
  rw [Namespace.overlay, Namespace.installInto, Namespace.installInto]
  refine (List.foldl_hom contents ?_).symm
  intro space entry
  exact (space.contents_receive entry).symm

theorem contents_deliver (synthesis : Synthesis κ) (target : IndexedNamespace κ) :
    (synthesis.deliver receive target).contents =
      synthesis.deliver Namespace.receive target.contents := by
  cases hrun : synthesis.run with
  | error error =>
      rw [Synthesis.deliver_of_error receive hrun, Synthesis.deliver_of_error _ hrun]
  | ok upper =>
      rw [Synthesis.deliver_of_ok receive hrun, Synthesis.deliver_of_ok _ hrun]
      exact contents_installInto upper target

/-- Indexed namespaces that come from synthesis and from installing such
namespaces into one another, in any order. -/
inductive Reachable : IndexedNamespace κ → Prop
  | empty : Reachable .empty
  | synthesized {synthesis : Synthesis κ} {space : IndexedNamespace κ} :
      synthesis.runIndexed = .ok space → Reachable space
  | synthesizedInto (synthesis : Synthesis κ) {target : IndexedNamespace κ} : Reachable target →
      Reachable (synthesis.deliver receive target)
  | installed {upper base : IndexedNamespace κ} : Reachable upper → Reachable base →
      Reachable (upper.contents.installInto receive base)

theorem Reachable.contents {space : IndexedNamespace κ} (h : space.Reachable) :
    space.contents.Reachable := by
  induction h with
  | empty => exact .empty
  | @synthesized synthesis space hrun =>
      have hcontents := synthesis.map_contents_runIndexed
      rw [hrun] at hcontents
      exact .synthesized hcontents.symm
  | synthesizedInto synthesis _ ih =>
      rw [contents_deliver]
      exact .synthesizedInto synthesis ih
  | installed _ _ hupper hbase =>
      rw [contents_installInto]
      exact .installed hupper hbase

end IndexedNamespace

namespace Namespace

variable {space : Namespace κ}

theorem Reachable.exists_indexed (h : space.Reachable) :
    ∃ indexed : IndexedNamespace κ, indexed.Reachable ∧ indexed.contents = space := by
  induction h with
  | empty => exact ⟨.empty, .empty, rfl⟩
  | @synthesized synthesis space hrun =>
      rw [← synthesis.map_contents_runIndexed] at hrun
      cases hindexed : synthesis.runIndexed with
      | error error =>
          rw [hindexed] at hrun
          cases hrun
      | ok indexed =>
          rw [hindexed] at hrun
          exact ⟨indexed, .synthesized hindexed, Except.ok.inj hrun⟩
  | synthesizedInto synthesis _ ih =>
      obtain ⟨target, htarget, rfl⟩ := ih
      exact ⟨_, .synthesizedInto synthesis htarget, target.contents_deliver synthesis⟩
  | installed _ _ hupper hbase =>
      obtain ⟨upper, hupper, rfl⟩ := hupper
      obtain ⟨base, hbase, rfl⟩ := hbase
      exact ⟨_, .installed hupper hbase, base.contents_installInto upper.contents⟩

/-- What is reachable without an index is what is reachable with one. -/
theorem reachable_iff_indexed :
    space.Reachable ↔
      ∃ indexed : IndexedNamespace κ, indexed.Reachable ∧ indexed.contents = space := by
  constructor
  · intro h
    exact h.exists_indexed
  · rintro ⟨indexed, h, rfl⟩
    exact h.contents

end Namespace

namespace RecordType

variable {type : RecordType κ}

/-- The positions of the fields by name, collected from the field table. -/
def index (type : RecordType κ) : Std.HashMap String Nat := Named.positions type.fields

theorem index_agrees (hdistinct : type.fieldNames.Nodup) :
    IndexAgrees type.index type.fieldNames :=
  Named.positions_agree hdistinct

theorem index_eq (hdistinct : type.fieldNames.Nodup) (field : String) :
    type.index[field]? = type.fieldIndex? field :=
  Named.position_of_agrees (index_agrees hdistinct) field

theorem desc_by_index (hdistinct : type.fieldNames.Nodup) (field : String) :
    (type.index[field]?.bind fun position => type.fields[position]?.map TypedField.desc) =
      type.fieldDesc? field := by
  rw [fieldDesc?, Named.locate_of_agrees (index_agrees hdistinct)]
  cases type.index[field]? with
  | none => rfl
  | some position => simp [Function.comp_def]

end RecordType

/-- Assigning by name goes through the index of the record type. -/
theorem Record.set_by_index [FieldCheck κ] (record : Record κ)
    (hdistinct : record.type.fieldNames.Nodup) (field : String) (value : Value κ) :
    record.set field value =
      match record.type.index[field]?.bind fun position =>
        record.type.fields[position]?.map fun typed => (position, typed) with
      | none => .error (.unknownField record.typeName field)
      | some (position, typed) => record.assign position typed value := by
  have hlocate := Named.locate_of_agrees (RecordType.index_agrees hdistinct) field
  cases hfound : Named.locate field record.type.fields with
  | none => simp only [set, ← hlocate, hfound]
  | some found => simp only [set, ← hlocate, hfound]

/-- The record types of a reachable namespace find their fields through their
index where a search finds them. -/
theorem Namespace.Reachable.fields_by_index {space : Namespace κ} (h : space.Reachable)
    {type : RecordType κ} (hholds : space.Holds type) (field : String) :
    type.index[field]? = type.fieldIndex? field ∧
      (type.index[field]?.bind fun position => type.fields[position]?.map TypedField.desc) =
        type.fieldDesc? field := by
  have hdistinct := h.fieldNames_nodup hholds
  exact ⟨RecordType.index_eq hdistinct field, RecordType.desc_by_index hdistinct field⟩

namespace Schema

/-- The positions of the definitions by name; a later definition of a name does
not displace the first. -/
def index (schema : Schema) : Std.HashMap String Nat := Named.firstPositions schema.definitions

theorem find?_by_index (schema : Schema) (name : String) :
    (schema.index[name]?.bind fun position => schema.definitions[position]?.map Definition.body) =
      schema.find? name := by
  rw [index, Named.firstPositions_eq, find?, Named.lookup_eq_getElem? rfl, Option.map_bind]
  rfl

end Schema

end TreeSchema
