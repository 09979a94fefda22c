import TreeSchema.Proofs.Synthesis.Contents

/-!
Names of definitions and names of their types. A product is bound under the name
of its definition, a sum under the name that it was declared with, and only the
names that are bound have to be distinct. So a definition is found under its own
name when its sum has that name, and two definitions of one name go unnoticed
when their sums do not.
-/

namespace TreeSchema

/-- The name under which the type of the definition itself is bound, before the
record types of its constructors. -/
def Definition.ownName (definition : Definition) : String :=
  match definition.body with
  | .product _ => definition.name
  | .sum sum => sum.name

theorem Definition.ownName_mem_typeNames (definition : Definition) :
    definition.ownName ∈ definition.typeNames := by
  unfold ownName typeNames
  cases definition.body with
  | product product => exact List.mem_cons_self
  | sum sum =>
      dsimp only
      split
      · exact List.mem_cons_self
      · exact List.mem_cons_self

theorem Definition.ownNames_sublist (definitions : List Definition) :
    (definitions.map ownName).Sublist (definitions.flatMap typeNames) := by
  induction definitions with
  | nil => exact .slnil
  | cons definition rest ih =>
      rw [List.map_cons, List.flatMap_cons]
      exact (List.singleton_sublist.mpr definition.ownName_mem_typeNames).append ih

/-- The declaration that a type stands for. The record type of a constructor
stands for a part of one only. -/
def GeneratedType.declared? {κ : Type} : GeneratedType κ → Option TypeDef
  | .enum type => some (.sum type.sum)
  | .sum type => some (.sum type.sum)
  | .record type =>
      match type.origin with
      | .product product => some (.product product)
      | .constructor _ _ => none

/-- A type that stands for a sum is called like the sum. -/
theorem GeneratedType.name_of_declared {κ : Type} {type : GeneratedType κ} {sum : Sum}
    (hdeclared : type.declared? = some (.sum sum)) : type.name = sum.name := by
  cases type with
  | enum type =>
      cases hdeclared
      rfl
  | sum type =>
      cases hdeclared
      rfl
  | record type =>
      rw [declared?] at hdeclared
      split at hdeclared <;> cases hdeclared

/-- Names of the definitions that are called by their own name. -/
def Schema.keptNames (schema : Schema) : List String :=
  Named.names (schema.definitions.filter fun definition => definition.ownName = definition.name)

/-- Every sum is defined under the name that it was declared with. -/
def Schema.KeepsNames (schema : Schema) : Prop :=
  ∀ definition ∈ schema.definitions, definition.ownName = definition.name

theorem Schema.KeepsNames.keptNames {schema : Schema} (h : schema.KeepsNames) :
    schema.keptNames = Named.names schema.definitions := by
  have hall : schema.definitions.filter (fun definition => definition.ownName = definition.name) =
      schema.definitions := by
    rw [List.filter_eq_self]
    intro definition hmem
    exact decide_eq_true (h definition hmem)
  rw [Schema.keptNames, hall]

theorem Schema.declare_keepsNames (serial : Nat) (name : String)
    (declarations : List Declaration) : (declare serial name declarations).KeepsNames := by
  intro definition hmem
  obtain ⟨offset, _, rfl⟩ := List.mem_mapIdx.mp hmem
  cases declarations[offset] with
  | product => rfl
  | sum => rfl

/-- Where no name is defined twice, a field that names a definition resolves to
it, unless the name is the one of a primitive. -/
theorem Schema.resolve?_name {schema : Schema} (hdistinct : (Named.names schema.definitions).Nodup)
    {definition : Definition} (hmem : definition ∈ schema.definitions) :
    schema.resolve? definition.name =
      some ((Desc.primitive? definition.name).getD definition.body.desc) := by
  have hfirst : Named.lookup definition.name schema.definitions = some definition :=
    Named.lookup_name hdistinct hmem
  rw [resolve?, find?, hfirst]
  cases Desc.primitive? definition.name <;> rfl

namespace Synthesis

variable {κ : Type} {synthesis : Synthesis κ} {space : Namespace κ}

/-- Of the types that a definition gives, one stands for its declaration. -/
theorem Gives.declared {definition : Definition} {types : List (GeneratedType κ)}
    (h : synthesis.Gives definition types) :
    ∃ type ∈ types, type.name = definition.ownName ∧ type.declared? = some definition.body := by
  cases h with
  | product htype =>
      obtain ⟨hname, horigin, -⟩ := recordType_hasFields htype
      refine ⟨_, List.mem_cons_self, hname, ?_⟩
      rw [GeneratedType.declared?, horigin]
  | enumeration => exact ⟨_, List.mem_cons_self, rfl, rfl⟩
  | compound => exact ⟨_, List.mem_cons_self, rfl, rfl⟩

theorem ownNames_nodup (hrun : synthesis.run = .ok space) :
    (synthesis.schema.definitions.map Definition.ownName).Nodup := by
  have hnames := names_nodup hrun
  rw [names_of_run hrun] at hnames
  exact (Definition.ownNames_sublist _).nodup hnames

/-- Two definitions that are called by their own names cannot share one. -/
theorem keptNames_nodup (hrun : synthesis.run = .ok space) :
    synthesis.schema.keptNames.Nodup := by
  have hsame : synthesis.schema.keptNames =
      (synthesis.schema.definitions.filter fun definition =>
        definition.ownName = definition.name).map Definition.ownName := by
    apply List.map_congr_left
    intro definition hmem
    exact (of_decide_eq_true (List.mem_filter.mp hmem).2).symm
  rw [hsame]
  exact (List.filter_sublist.map _).nodup (ownNames_nodup hrun)

theorem get?_ownName (hrun : synthesis.run = .ok space) {definition : Definition}
    (hmem : definition ∈ synthesis.schema.definitions) :
    ∃ type, space.get? definition.ownName = some type ∧
      type.declared? = some definition.body := by
  obtain ⟨types, htypes, hfound⟩ := get?_of_typesOf hrun hmem
  obtain ⟨type, htype, hname, hdeclared⟩ := (gives_of_typesOf htypes).declared
  exact ⟨type, hname ▸ hfound type htype, hdeclared⟩

/-- The type of a definition is found under the name of the definition when that
is its own name, and not otherwise. -/
theorem get?_name_iff (hrun : synthesis.run = .ok space) {definition : Definition}
    (hmem : definition ∈ synthesis.schema.definitions) :
    (∃ type, space.get? definition.name = some type ∧
        type.declared? = some definition.body) ↔
      definition.ownName = definition.name := by
  constructor
  · rintro ⟨type, hfound, hdeclared⟩
    have hname : type.name = definition.name := Named.name_of_lookup hfound
    cases hbody : definition.body with
    | product product => rw [Definition.ownName, hbody]
    | sum sum =>
        rw [hbody] at hdeclared
        rw [← hname, type.name_of_declared hdeclared, Definition.ownName, hbody]
  · intro hkept
    rw [← hkept]
    exact get?_ownName hrun hmem

/-- After a successful run the own names of the definitions are distinct, and
under its own name each definition is found. It is found under the name that it
is defined under exactly when the two are the same, so a name that is defined
twice belongs to a sum that was declared under another one. Where the two are
the same for all definitions, no name is defined twice, and a field that names a
definition resolves to the very declaration that is found under that name,
unless a primitive has the name. Declared types are always defined under their
own names. -/
theorem definitions_found (hrun : synthesis.run = .ok space) :
    (synthesis.schema.definitions.map Definition.ownName).Nodup ∧
    (∀ definition ∈ synthesis.schema.definitions,
      (∃ type, space.get? definition.ownName = some type ∧
        type.declared? = some definition.body) ∧
      ((∃ type, space.get? definition.name = some type ∧
          type.declared? = some definition.body) ↔
        definition.ownName = definition.name)) ∧
    synthesis.schema.keptNames.Nodup ∧
    (synthesis.schema.KeepsNames →
      (Named.names synthesis.schema.definitions).Nodup ∧
      ∀ definition ∈ synthesis.schema.definitions,
        synthesis.schema.resolve? definition.name =
          some ((Desc.primitive? definition.name).getD definition.body.desc)) ∧
    ∀ serial name declarations,
      synthesis.schema = Schema.declare serial name declarations → synthesis.schema.KeepsNames := by
  have hdistinct := keptNames_nodup hrun
  refine ⟨ownNames_nodup hrun, ?_, hdistinct, ?_, ?_⟩
  · intro definition hmem
    exact ⟨get?_ownName hrun hmem, get?_name_iff hrun hmem⟩
  · intro hkept
    rw [hkept.keptNames] at hdistinct
    refine ⟨hdistinct, ?_⟩
    intro definition hmem
    exact Schema.resolve?_name hdistinct hmem
  · intro serial name declarations hdeclare
    rw [hdeclare]
    exact Schema.declare_keepsNames serial name declarations

/-- A product under another name than it was declared with, and a sum. -/
theorem definitions_found_aliased :
    let hue : Sum := ⟨1, "hue", [.unit "Red"]⟩
    let point : Product := ⟨0, "coordinates", [⟨"x", "int", false, false⟩]⟩
    let synthesis : Synthesis Empty :=
      ⟨0, ⟨"shapes", [⟨"point", .product point⟩, ⟨"tone", .sum hue⟩]⟩, .descriptor⟩
    ∃ space, synthesis.run = .ok space ∧
      (∃ type, space.get? "point" = some type ∧ type.declared? = some (.product point)) ∧
      (∃ type, space.get? "hue" = some type ∧ type.declared? = some (.sum hue)) ∧
      ¬ ∃ type, space.get? "tone" = some type ∧ type.declared? = some (.sum hue) := by
  intro hue point synthesis
  obtain ⟨space, hrun⟩ : ∃ space, synthesis.run = .ok space := ⟨_, rfl⟩
  obtain ⟨-, hfound, -⟩ := definitions_found hrun
  have hpoint := hfound ⟨"point", .product point⟩ List.mem_cons_self
  have htone := hfound ⟨"tone", .sum hue⟩ (List.mem_cons_of_mem _ List.mem_cons_self)
  refine ⟨space, hrun, hpoint.1, htone.1, ?_⟩
  rw [htone.2]
  decide

/-- Two sums defined under one name go through when they were declared under
different ones, and the name leads to neither. -/
theorem name_defined_twice :
    let schema : Schema :=
      ⟨"m", [⟨"a", .sum ⟨0, "x", [.unit "P"]⟩⟩, ⟨"a", .sum ⟨1, "y", [.unit "Q"]⟩⟩]⟩
    let synthesis : Synthesis Empty := ⟨0, schema, .descriptor⟩
    ∃ space, synthesis.run = .ok space ∧ ¬ (Named.names schema.definitions).Nodup ∧
      ∀ definition ∈ schema.definitions, space.get? definition.name = none := by
  intro schema synthesis
  refine ⟨_, rfl, ?_, ?_⟩
  · decide
  · intro definition hmem
    have hname : definition.name = "a" := by
      rcases hmem with _ | ⟨_, _ | ⟨_, ⟨⟩⟩⟩ <;> rfl
    rw [hname]
    rfl

end Synthesis

end TreeSchema
