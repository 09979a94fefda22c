import TreeSchema.Proofs.Synthesis.FieldLists

/-!
What a successful synthesis binds. A definition adds its types and tag tables
behind those that are there, and the result of a run is what its definitions
give, one after the other.
-/

namespace TreeSchema

namespace Synthesis

variable {κ : Type} {synthesis : Synthesis κ}

theorem recordType_ok {name : String} {origin : Origin} {fields : List Field}
    {type : RecordType κ} (h : synthesis.recordType name origin fields = .ok type) :
    synthesis.schema.SoundFields fields ∧ ∃ typed, synthesis.schema.Resolves fields typed ∧
      type = ⟨synthesis.generation, name, origin, typed, synthesis.checking⟩ := by
  obtain ⟨typed, htyped, h⟩ := bind_eq_ok_iff.mp h
  cases h
  obtain ⟨hsound, hresolved⟩ := Schema.resolveFields_ok htyped
  exact ⟨hsound, typed, hresolved, rfl⟩

theorem recordType_error {name : String} {origin : Origin} {fields : List Field} {flaw : Flaw}
    (h : synthesis.recordType name origin fields = .error flaw) :
    synthesis.schema.FieldFlaw fields flaw := by
  rcases bind_eq_error_iff.mp h with hfields | ⟨typed, -, h⟩
  · exact Schema.resolveFields_error hfields
  · cases h

/-- The constructors of a sum give one record type each, in their order. -/
theorem variants_ok {sum : Sum} {position : Nat} {constructors : List Constructor}
    {types : List (RecordType κ)}
    (h : synthesis.variants sum position constructors = .ok types) :
    types.length = constructors.length ∧
      ∀ index constructor, constructors[index]? = some constructor →
        ∃ type, types[index]? = some type ∧
          synthesis.recordType constructor.name (.constructor sum (tagAt (position + index)))
            constructor.fields = .ok type := by
  induction constructors generalizing position types with
  | nil =>
      cases h
      exact ⟨rfl, nofun⟩
  | cons constructor rest ih =>
      obtain ⟨first, hfirst, h⟩ := bind_eq_ok_iff.mp h
      obtain ⟨others, hothers, h⟩ := bind_eq_ok_iff.mp h
      cases h
      obtain ⟨hlength, heach⟩ := ih hothers
      refine ⟨congrArg (· + 1) hlength, ?_⟩
      intro index found hfound
      cases index with
      | zero =>
          obtain rfl : constructor = found := by simpa using hfound
          exact ⟨first, rfl, hfirst⟩
      | succ later =>
          obtain ⟨type, htype, hmade⟩ := heach later found hfound
          refine ⟨type, htype, ?_⟩
          rw [← hmade, Nat.add_comm later 1, Nat.add_assoc]

/-- The types that a definition gives, or the first flaw in its field lists. A
compound sum gives its base type and then a record type per constructor. -/
def typesOf (synthesis : Synthesis κ) (definition : Definition) :
    Except Flaw (List (GeneratedType κ)) :=
  match definition.body with
  | .product product => do
      return [.record (← synthesis.recordType definition.name (.product product) product.fields)]
  | .sum sum =>
      if sum.isSimple then .ok [.enum ⟨synthesis.generation, sum⟩]
      else do
        let type ← synthesis.sumType sum
        return .sum type :: type.constructors.map .record

/-- What a definition with sound field lists gives. -/
inductive Gives (synthesis : Synthesis κ) : Definition → List (GeneratedType κ) → Prop
  | product {name : String} {product : Product} {type : RecordType κ} :
      synthesis.recordType name (.product product) product.fields = .ok type →
      Gives synthesis ⟨name, .product product⟩ [.record type]
  | enumeration {name : String} {sum : Sum} : sum.isSimple = true →
      Gives synthesis ⟨name, .sum sum⟩ [.enum ⟨synthesis.generation, sum⟩]
  | compound {name : String} {sum : Sum} {variants : List (RecordType κ)} :
      sum.isSimple = false → synthesis.variants sum 0 sum.constructors = .ok variants →
      Gives synthesis ⟨name, .sum sum⟩ (.sum ⟨sum, variants⟩ :: variants.map .record)

theorem gives_of_typesOf {definition : Definition} {types : List (GeneratedType κ)}
    (h : synthesis.typesOf definition = .ok types) : synthesis.Gives definition types := by
  obtain ⟨name, body⟩ := definition
  cases body with
  | product product =>
      obtain ⟨type, htype, h⟩ := bind_eq_ok_iff.mp h
      cases h
      exact .product htype
  | sum sum =>
      simp only [typesOf] at h
      split at h
      case isTrue hsimple =>
        cases h
        exact .enumeration hsimple
      case isFalse hcompound =>
        obtain ⟨type, htype, h⟩ := bind_eq_ok_iff.mp h
        cases h
        obtain ⟨variants, hvariants, htype⟩ := bind_eq_ok_iff.mp htype
        cases htype
        exact .compound (eq_false_of_ne_true hcompound) hvariants

/-- The tag tables that go with types: one for every compound sum. -/
def tablesOf (types : List (GeneratedType κ)) : List TagTable :=
  types.filterMap fun
    | .sum type => some type.tags
    | _ => none

end Synthesis

def Installation.name : Installation κ → String
  | .type given => given.name
  | .tags table => table.name

namespace Namespace

variable {κ : Type} {space next : Namespace κ}

/-- Binds a type or a table under its own name, which must be new. -/
def add (space : Namespace κ) : Installation κ → Except Flaw (Namespace κ)
  | .type type => space.bind type
  | .tags table => space.bindTags table

/-- The namespace with one more type or table behind those it has. -/
def append (space : Namespace κ) : Installation κ → Namespace κ
  | .type type => { space with types := space.types ++ [type] }
  | .tags table => { space with tables := space.tables ++ [table] }

theorem add_eq (space : Namespace κ) (entry : Installation κ) :
    space.add entry =
      if space.isBound entry.name then .error (.duplicateName entry.name)
      else .ok (space.append entry) := by
  cases entry <;> rfl

theorem add_ok {entry : Installation κ} (h : space.add entry = .ok next) :
    ¬ space.isBound entry.name = true ∧ next = space.append entry := by
  rw [add_eq] at h
  split at h
  case isTrue => cases h
  case isFalse hnew =>
    cases h
    exact ⟨hnew, rfl⟩

theorem addAll_ok {entries : List (Installation κ)} (h : entries.foldlM add space = .ok next) :
    next = entries.foldl append space := by
  induction entries generalizing space with
  | nil =>
      cases h
      rfl
  | cons entry rest ih =>
      rw [List.foldlM_cons] at h
      obtain ⟨reached, hreached, h⟩ := bind_eq_ok_iff.mp h
      obtain ⟨-, rfl⟩ := add_ok hreached
      exact ih h

theorem append_types (space : Namespace κ) (types : List (GeneratedType κ)) :
    (types.map Installation.type).foldl append space =
      { space with types := space.types ++ types } := by
  induction types generalizing space with
  | nil => simp
  | cons type rest ih => simp [append, ih]

theorem append_tables (space : Namespace κ) (tables : List TagTable) :
    (tables.map Installation.tags).foldl append space =
      { space with tables := space.tables ++ tables } := by
  induction tables generalizing space with
  | nil => simp
  | cons table rest ih => simp [append, ih]

/-- The namespace with types bound behind those it has, and their tag tables. -/
def extend (space : Namespace κ) (types : List (GeneratedType κ)) : Namespace κ where
  types := space.types ++ types
  tables := space.tables ++ Synthesis.tablesOf types

theorem extend_nil (space : Namespace κ) : space.extend [] = space := by
  simp [extend, Synthesis.tablesOf]

theorem extend_extend (space : Namespace κ) (types others : List (GeneratedType κ)) :
    (space.extend types).extend others = space.extend (types ++ others) := by
  simp [extend, Synthesis.tablesOf]

end Namespace

namespace Synthesis

variable {κ : Type} {synthesis : Synthesis κ} {space next : Namespace κ}

theorem tablesOf_records (types : List (RecordType κ)) :
    tablesOf (types.map GeneratedType.record) = [] := by
  rw [tablesOf, List.filterMap_map, List.filterMap_eq_nil_iff]
  intro type hmem
  rfl

/-- Of the types of a compound sum, only the base type brings a table. -/
theorem tablesOf_compound (type : SumType κ) :
    tablesOf (.sum type :: type.constructors.map GeneratedType.record) = [type.tags] := by
  rw [← List.singleton_append, tablesOf, List.filterMap_append]
  exact congrArg ([type.tags] ++ ·) (tablesOf_records type.constructors)

/-- What a definition binds, in order: its types and then its table. -/
def entriesOf (types : List (GeneratedType κ)) : List (Installation κ) :=
  types.map .type ++ (tablesOf types).map .tags

theorem append_entriesOf (space : Namespace κ) (types : List (GeneratedType κ)) :
    (entriesOf types).foldl Namespace.append space = space.extend types := by
  rw [entriesOf, List.foldl_append, Namespace.append_types, Namespace.append_tables]
  rfl

/-- A definition makes all of its types before it binds the first of them. -/
theorem define_eq (synthesis : Synthesis κ) (space : Namespace κ) (definition : Definition) :
    synthesis.define space definition =
      synthesis.typesOf definition >>= fun types => (entriesOf types).foldlM Namespace.add space := by
  cases hbody : definition.body with
  | product product =>
      simp only [define, typesOf, hbody]
      cases synthesis.recordType definition.name (.product product) product.fields with
      | error flaw => rfl
      | ok type =>
          change space.bind (.record type) = (entriesOf [.record type]).foldlM Namespace.add space
          simp [entriesOf, tablesOf, Namespace.add]
  | sum sum =>
      simp only [define, typesOf, hbody]
      split
      · change space.bind (.enum ⟨synthesis.generation, sum⟩) =
          (entriesOf [.enum ⟨synthesis.generation, sum⟩]).foldlM Namespace.add space
        simp [entriesOf, tablesOf, Namespace.add]
      · cases synthesis.sumType sum with
        | error flaw => rfl
        | ok type =>
            have hentries : entriesOf (.sum type :: type.constructors.map .record) =
                .type (.sum type) :: type.constructors.map (fun variant => .type (.record variant)) ++
                  [.tags type.tags] := by
              simp [entriesOf, tablesOf_compound]
            change (space.bind (.sum type) >>= fun based =>
              type.constructors.foldlM (fun reached variant => reached.bind (.record variant)) based >>=
                fun filled => filled.bindTags type.tags) =
              (entriesOf (.sum type :: type.constructors.map .record)).foldlM Namespace.add space
            rw [hentries]
            simp [Namespace.add, List.foldlM_append, List.foldlM_map]

/-- A definition that goes through adds its own types, and no others. -/
theorem define_ok {definition : Definition}
    (h : synthesis.define space definition = .ok next) :
    ∃ types, synthesis.typesOf definition = .ok types ∧ next = space.extend types := by
  rw [define_eq] at h
  obtain ⟨types, htypes, h⟩ := bind_eq_ok_iff.mp h
  refine ⟨types, htypes, ?_⟩
  rw [Namespace.addAll_ok h, append_entriesOf]

/-- One step of a run: a refused definition is named in the error. -/
def step (synthesis : Synthesis κ) (space : Namespace κ) (definition : Definition) :
    Except Malformed (Namespace κ) :=
  (synthesis.define space definition).mapError fun flaw => ⟨definition.name, flaw⟩

theorem step_eq_ok_iff {definition : Definition} :
    synthesis.step space definition = .ok next ↔ synthesis.define space definition = .ok next :=
  mapError_eq_ok_iff

theorem run_eq (synthesis : Synthesis κ) :
    synthesis.run = synthesis.schema.definitions.foldlM synthesis.step Namespace.empty :=
  rfl

theorem defineAll_ok {definitions : List Definition}
    (h : definitions.foldlM synthesis.step space = .ok next) :
    ∃ parts, definitions.mapM synthesis.typesOf = .ok parts ∧ next = space.extend parts.flatten := by
  induction definitions generalizing space with
  | nil =>
      cases h
      exact ⟨[], rfl, (Namespace.extend_nil _).symm⟩
  | cons definition rest ih =>
      obtain ⟨reached, hreached, h⟩ := bind_eq_ok_iff.mp h
      obtain ⟨types, htypes, rfl⟩ := define_ok (step_eq_ok_iff.mp hreached)
      obtain ⟨parts, hparts, rfl⟩ := ih h
      refine ⟨types :: parts, ?_, ?_⟩
      · rw [List.mapM_cons, htypes, hparts]
        rfl
      · rw [Namespace.extend_extend, List.flatten_cons]

/-- A successful run binds what the definitions give, in their order. -/
theorem run_ok (h : synthesis.run = .ok space) :
    ∃ parts, synthesis.schema.definitions.mapM synthesis.typesOf = .ok parts ∧
      space = Namespace.empty.extend parts.flatten := by
  rw [run_eq] at h
  exact defineAll_ok h

end Synthesis

/-- A record type is in a namespace under its own name, or among the
constructors of a sum that is. -/
def Namespace.Holds {κ : Type} (space : Namespace κ) (type : RecordType κ) : Prop :=
  .record type ∈ space.types ∨ ∃ sum, .sum sum ∈ space.types ∧ type ∈ sum.constructors

namespace Synthesis

variable {κ : Type} {synthesis : Synthesis κ} {space : Namespace κ}

theorem variants_made {sum : Sum} {position : Nat} {constructors : List Constructor}
    {types : List (RecordType κ)} (h : synthesis.variants sum position constructors = .ok types)
    {type : RecordType κ} (hmem : type ∈ types) :
    ∃ name origin fields, synthesis.recordType name origin fields = .ok type := by
  obtain ⟨hlength, heach⟩ := variants_ok h
  obtain ⟨index, hindex⟩ := List.mem_iff_getElem?.mp hmem
  obtain ⟨hbound, -⟩ := List.getElem?_eq_some_iff.mp hindex
  rw [hlength] at hbound
  obtain ⟨made, hmade, hrecord⟩ := heach index _ (List.getElem?_eq_getElem hbound)
  obtain rfl : made = type := Option.some.inj (hmade.symm.trans hindex)
  exact ⟨_, _, _, hrecord⟩

theorem Gives.made {definition : Definition} {types : List (GeneratedType κ)}
    (h : synthesis.Gives definition types) {type : RecordType κ}
    (hmem : .record type ∈ types ∨ ∃ sum, .sum sum ∈ types ∧ type ∈ sum.constructors) :
    ∃ name origin fields, synthesis.recordType name origin fields = .ok type := by
  cases h with
  | product hmade =>
      obtain rfl : type = _ := by simpa using hmem
      exact ⟨_, _, _, hmade⟩
  | enumeration => simp at hmem
  | compound _ hvariants => exact variants_made hvariants (by simpa using hmem)

/-- A type of a synthesized namespace is given by a definition, and all that this
definition gives is there with it. -/
theorem gives_of_run (hrun : synthesis.run = .ok space) {type : GeneratedType κ}
    (htype : type ∈ space.types) :
    ∃ definition ∈ synthesis.schema.definitions, ∃ types, synthesis.Gives definition types ∧
      type ∈ types ∧ ∀ other ∈ types, other ∈ space.types := by
  obtain ⟨parts, hparts, rfl⟩ := run_ok hrun
  obtain ⟨types, htypes, hmem⟩ := List.mem_flatten.mp htype
  obtain ⟨definition, hdefinition, hgives⟩ := mapM_ok_mem hparts htypes
  refine ⟨definition, hdefinition, types, gives_of_typesOf hgives, hmem, ?_⟩
  intro other hother
  exact List.mem_flatten.mpr ⟨types, htypes, hother⟩

/-- Every record type of a synthesized namespace is made from a field list
without a flaw. -/
theorem holds_of_run (hrun : synthesis.run = .ok space) {type : RecordType κ}
    (hholds : space.Holds type) :
    ∃ name origin fields, synthesis.recordType name origin fields = .ok type := by
  rcases hholds with hrecord | ⟨sum, hsum, hvariant⟩
  · obtain ⟨definition, -, types, hgives, hmem, -⟩ := gives_of_run hrun hrecord
    exact hgives.made (.inl hmem)
  · obtain ⟨definition, -, types, hgives, hmem, -⟩ := gives_of_run hrun hsum
    exact hgives.made (.inr ⟨sum, hmem, hvariant⟩)

/-- All record types of a run have its number and its check. -/
theorem shared_of_holds (hrun : synthesis.run = .ok space) {type : RecordType κ}
    (hholds : space.Holds type) :
    type.generation = synthesis.generation ∧ type.checking = synthesis.checking := by
  obtain ⟨name, origin, fields, hmade⟩ := holds_of_run hrun hholds
  obtain ⟨-, typed, -, rfl⟩ := recordType_ok hmade
  exact ⟨rfl, rfl⟩

/-- No field table of a synthesized record type has a name twice. -/
theorem fieldNames_nodup (hrun : synthesis.run = .ok space) {type : RecordType κ}
    (hholds : space.Holds type) : type.fieldNames.Nodup := by
  obtain ⟨name, origin, fields, hmade⟩ := holds_of_run hrun hholds
  obtain ⟨hsound, typed, hresolved, rfl⟩ := recordType_ok hmade
  rw [RecordType.fieldNames, hresolved.names]
  exact hsound.distinct

end Synthesis

end TreeSchema
