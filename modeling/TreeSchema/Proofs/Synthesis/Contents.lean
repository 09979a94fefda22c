import TreeSchema.Proofs.Synthesis.Acceptance

/-!
What a synthesized namespace contains. Its type names and tag tables are listed
in the order of the definitions, every listed name leads to the type that its
definition declares, and the record types have the declared fields. A target
gets the types and then the tables of a finished run, and nothing of a failed
one.
-/

namespace TreeSchema

/-- The tag tables of a definition as declared: constructor names in order, with
tags that count from one. -/
def Definition.tagListing (definition : Definition) : List (String × List (String × Nat)) :=
  match definition.body with
  | .product _ => []
  | .sum sum =>
      if sum.isSimple then []
      else [(sum.name ++ "_e", sum.constructors.mapIdx fun position constructor =>
        (constructor.name, position + 1))]

/-- Name and entries of a tag table, with the tags as numbers. -/
def TagTable.listing (table : TagTable) : String × List (String × Nat) :=
  (table.name, table.entries.map fun entry => (entry.1, entry.2.toNat))

theorem toNat_tagAt {position : Nat} (hposition : position + 1 < UInt32.size) :
    (tagAt position).toNat = position + 1 :=
  UInt32.toNat_ofNat_of_lt' hposition

variable {κ : Type}

/-- The record type has the declared fields in their order, each under its own
name and index and with the type that its type name and its modifier give. -/
structure RecordType.HasFields (type : RecordType κ) (schema : Schema) (fields : List Field) :
    Prop where
  names : type.fieldNames = Named.names fields
  index : ∀ (position : Nat) (field : Field), fields[position]? = some field →
    type.fieldIndex? field.name = some position
  desc : ∀ field ∈ fields, ¬ (field.optional = true ∧ field.repeated = true) ∧
    ∃ base, schema.Denotes field.typeName base ∧
      type.fieldDesc? field.name = some (field.wrap base)

/-- What a definition declares is found in the namespace. -/
inductive Namespace.Shows (space : Namespace κ) (schema : Schema) : Definition → Prop
  | product {name : String} {product : Product} {type : RecordType κ} :
      space.get? name = some (.record type) → type.name = name →
      type.origin = .product product → type.HasFields schema product.fields →
      Shows space schema ⟨name, .product product⟩
  | enumeration {name : String} {sum : Sum} {type : EnumType} : sum.isSimple = true →
      space.get? sum.name = some (.enum type) → type.name = sum.name → type.sum = sum →
      Shows space schema ⟨name, .sum sum⟩
  | compound {name : String} {sum : Sum} {type : SumType κ} : sum.isSimple = false →
      space.get? sum.name = some (.sum type) → type.name = sum.name → type.sum = sum →
      type.constructors.length = sum.constructors.length →
      (∀ (position : Nat) (constructor : Constructor),
        sum.constructors[position]? = some constructor →
        ∃ variant, type.constructors[position]? = some variant ∧
          space.get? constructor.name = some (.record variant) ∧
          variant.name = constructor.name ∧
          variant.origin = .constructor sum (tagAt position) ∧
          variant.HasFields schema constructor.fields) →
      Shows space schema ⟨name, .sum sum⟩

theorem Schema.Resolves.hasFields {schema : Schema} {fields : List Field}
    {typed : List TypedField} (hsound : schema.SoundFields fields)
    (hresolved : schema.Resolves fields typed) {type : RecordType κ} (htype : type.fields = typed) :
    type.HasFields schema fields := by
  have hdistinct : (Named.names typed).Nodup := hresolved.names ▸ hsound.distinct
  have hlocate {position : Nat} {field : Field} (hfield : fields[position]? = some field) :
      ∃ base, schema.Denotes field.typeName base ∧
        Named.locate field.name type.fields =
          some (position, ⟨field.name, field.wrap base⟩) := by
    obtain ⟨base, hbase, hentry⟩ := hresolved.entries position field hfield
    exact ⟨base, hbase, htype ▸ Named.locate_name hdistinct hentry⟩
  refine ⟨?_, ?_, ?_⟩
  · rw [RecordType.fieldNames, htype, hresolved.names]
  · intro position field hfield
    obtain ⟨base, -, hfound⟩ := hlocate hfield
    rw [RecordType.fieldIndex?, hfound]
    rfl
  · intro field hmem
    obtain ⟨position, hfield⟩ := List.mem_iff_getElem?.mp hmem
    obtain ⟨base, hbase, hfound⟩ := hlocate hfield
    refine ⟨hsound.exclusive field hmem, base, hbase, ?_⟩
    rw [RecordType.fieldDesc?, hfound]
    rfl

namespace Synthesis

variable {synthesis : Synthesis κ} {space : Namespace κ}

theorem recordType_hasFields {name : String} {origin : Origin} {fields : List Field}
    {type : RecordType κ} (h : synthesis.recordType name origin fields = .ok type) :
    type.name = name ∧ type.origin = origin ∧ type.HasFields synthesis.schema fields := by
  obtain ⟨hsound, typed, hresolved, rfl⟩ := recordType_ok h
  exact ⟨rfl, rfl, hresolved.hasFields hsound rfl⟩

theorem names_nodup (hrun : synthesis.run = .ok space) : space.names.Nodup :=
  (List.nodup_append.mp (boundNames_nodup hrun)).1

theorem names_of_run (hrun : synthesis.run = .ok space) :
    space.names = synthesis.schema.definitions.flatMap Definition.typeNames := by
  obtain ⟨parts, hparts, rfl⟩ := run_ok hrun
  refine mapM_ok_flatten Named.names rfl (fun _ _ => List.map_append) hparts ?_
  intro definition _ types htypes
  exact (gives_of_typesOf htypes).names.2.1

theorem variants_tags {sum : Sum} {position : Nat} {constructors : List Constructor}
    (hsize : position + constructors.length < UInt32.size) {types : List (RecordType κ)}
    (h : synthesis.variants sum position constructors = .ok types) :
    (types.filterMap fun type => type.tag?.map fun tag => (type.name, tag.toNat)) =
      constructors.mapIdx fun index constructor => (constructor.name, position + index + 1) := by
  induction constructors generalizing position types with
  | nil =>
      cases h
      rfl
  | cons constructor rest ih =>
      obtain ⟨first, hfirst, h⟩ := bind_eq_ok_iff.mp h
      obtain ⟨others, hothers, h⟩ := bind_eq_ok_iff.mp h
      cases h
      rw [List.length_cons] at hsize
      obtain ⟨hname, horigin, -⟩ := recordType_hasFields hfirst
      have htag : first.tag? = some (tagAt position) := by
        rw [RecordType.tag?, horigin]
        rfl
      have hrest := ih (by omega) hothers
      have hposition : position + 1 < UInt32.size := by omega
      simp only [List.filterMap_cons, htag, Option.map_some, hname, List.mapIdx_cons, hrest,
        toNat_tagAt hposition]
      simp only [Nat.add_zero, Nat.add_assoc, Nat.add_comm 1]

/-- The table of a sum type lists the declared constructors. -/
theorem tags_listing {sum : Sum} (hsize : sum.constructors.length < UInt32.size)
    {variants : List (RecordType κ)}
    (h : synthesis.variants sum 0 sum.constructors = .ok variants) :
    (SumType.tags ⟨sum, variants⟩).listing =
      (sum.name ++ "_e", sum.constructors.mapIdx fun position constructor =>
        (constructor.name, position + 1)) := by
  rw [← Nat.zero_add sum.constructors.length] at hsize
  have htags := variants_tags hsize h
  simp only [Nat.zero_add] at htags
  simp only [TagTable.listing, SumType.tags, List.map_filterMap, Option.map_map, ← htags]
  rfl

theorem Gives.tagListing {definition : Definition} {types : List (GeneratedType κ)}
    (h : synthesis.Gives definition types)
    (hsize : ∀ sum, definition.body = .sum sum → sum.constructors.length < UInt32.size) :
    (tablesOf types).map TagTable.listing = definition.tagListing := by
  cases h with
  | product => rfl
  | enumeration hsimple =>
      simp only [Definition.tagListing, hsimple, if_true]
      rfl
  | @compound name sum variants hcompound hvariants =>
      have htables := tablesOf_compound ⟨sum, variants⟩
      simp only [Definition.tagListing, hcompound, Bool.false_eq_true, if_false, htables,
        List.map_singleton, tags_listing (hsize sum rfl) hvariants]

theorem tagListing_of_run
    (hsize : ∀ definition ∈ synthesis.schema.definitions, ∀ sum, definition.body = .sum sum →
      sum.constructors.length < UInt32.size)
    (hrun : synthesis.run = .ok space) :
    space.tables.map TagTable.listing =
      synthesis.schema.definitions.flatMap Definition.tagListing := by
  obtain ⟨parts, hparts, rfl⟩ := run_ok hrun
  refine mapM_ok_flatten (fun types => (tablesOf types).map TagTable.listing) rfl ?_ hparts ?_
  · intro left right
    simp only [tablesOf, List.filterMap_append, List.map_append]
  · intro definition hmem types htypes
    exact (gives_of_typesOf htypes).tagListing (hsize definition hmem)

/-- Every type that a definition gives is found under its own name. -/
theorem get?_of_typesOf (hrun : synthesis.run = .ok space) {definition : Definition}
    (hmem : definition ∈ synthesis.schema.definitions) :
    ∃ types, synthesis.typesOf definition = .ok types ∧
      ∀ type ∈ types, space.get? type.name = some type := by
  have hdistinct := names_nodup hrun
  obtain ⟨parts, hparts, rfl⟩ := run_ok hrun
  obtain ⟨types, htypes, hgives⟩ := mapM_ok_of_mem hparts hmem
  refine ⟨types, hgives, ?_⟩
  intro type htype
  exact Named.lookup_name hdistinct (List.mem_flatten.mpr ⟨types, htypes, htype⟩)

theorem shows_of_run (hrun : synthesis.run = .ok space) {definition : Definition}
    (hmem : definition ∈ synthesis.schema.definitions) :
    space.Shows synthesis.schema definition := by
  obtain ⟨types, hgives, hfound⟩ := get?_of_typesOf hrun hmem
  cases gives_of_typesOf hgives with
  | product htype =>
      obtain ⟨rfl, horigin, hfields⟩ := recordType_hasFields htype
      exact .product (hfound _ List.mem_cons_self) rfl horigin hfields
  | enumeration hsimple => exact .enumeration hsimple (hfound _ List.mem_cons_self) rfl rfl
  | compound hcompound hvariants =>
      obtain ⟨hlength, heach⟩ := variants_ok hvariants
      refine .compound hcompound (hfound _ List.mem_cons_self) rfl rfl hlength ?_
      intro position constructor hconstructor
      obtain ⟨variant, hvariant, hmade⟩ := heach position constructor hconstructor
      rw [Nat.zero_add] at hmade
      obtain ⟨hname, horigin, hfields⟩ := recordType_hasFields hmade
      refine ⟨variant, hvariant, ?_, hname, horigin, hfields⟩
      rw [← hname]
      have hbound : GeneratedType.record variant ∈ _ :=
        List.mem_map_of_mem (List.mem_of_getElem? hvariant)
      exact hfound _ (List.mem_cons_of_mem _ hbound)

/-- Synthesis into a target that is changed in place: each type and each table
is handed over by itself. -/
def fill {τ : Type} (synthesis : Synthesis κ) (receive : τ → Installation κ → τ) :
    EStateM Malformed τ Unit := do
  let space ← MonadExcept.ofExcept synthesis.run
  space.installations.forM fun entry => modify (receive · entry)

/-- The target as it stands after a synthesis into it, finished or failed. -/
def deliver {τ : Type} (synthesis : Synthesis κ) (receive : τ → Installation κ → τ) (target : τ) :
    τ :=
  stateAfter (synthesis.fill receive) target

section

variable {τ : Type} (receive : τ → Installation κ → τ)

theorem runInto_of_ok (hrun : synthesis.run = .ok space) (target : τ) :
    synthesis.runInto receive target = .ok (space.installInto receive target) := by
  rw [runInto, hrun]
  rfl

theorem runInto_of_error {error : Malformed} (hrun : synthesis.run = .error error) (target : τ) :
    synthesis.runInto receive target = .error error := by
  rw [runInto, hrun]
  rfl

theorem fill_of_ok (hrun : synthesis.run = .ok space) (target : τ) :
    (synthesis.fill receive).run target = .ok () (space.installInto receive target) := by
  rw [fill, hrun]
  exact run_forM_modify receive space.installations target

/-- A schema that cannot be synthesized is found out before anything is handed
over. -/
theorem fill_of_error {error : Malformed} (hrun : synthesis.run = .error error) (target : τ) :
    (synthesis.fill receive).run target = .error error target := by
  rw [fill, hrun]
  rfl

/-- Filling a target in place makes the target that `runInto` returns. -/
theorem fill_run (synthesis : Synthesis κ) (target : τ) :
    (synthesis.fill receive).run target =
      match synthesis.runInto receive target with
      | .ok filled => .ok () filled
      | .error error => .error error target := by
  cases hrun : synthesis.run with
  | ok space => rw [runInto_of_ok receive hrun, fill_of_ok receive hrun]
  | error error => rw [runInto_of_error receive hrun, fill_of_error receive hrun]

theorem deliver_of_ok (hrun : synthesis.run = .ok space) (target : τ) :
    synthesis.deliver receive target = space.installInto receive target := by
  rw [deliver, stateAfter, fill_of_ok receive hrun]

theorem deliver_of_error {error : Malformed} (hrun : synthesis.run = .error error) (target : τ) :
    synthesis.deliver receive target = target := by
  rw [deliver, stateAfter, fill_of_error receive hrun]

end

/-- A synthesized namespace contains what the schema declares and nothing else:
names and tag tables in declaration order, under each name the declared type,
and in each record type the declared fields. A target filled in place is handed
all types and then all tables; when the synthesis fails, it is left as it was. -/
theorem run_contents
    (hsize : ∀ definition ∈ synthesis.schema.definitions, ∀ sum, definition.body = .sum sum →
      sum.constructors.length < UInt32.size) :
    (∀ space, synthesis.run = .ok space →
      space.names = synthesis.schema.definitions.flatMap Definition.typeNames ∧
      space.tables.map TagTable.listing =
        synthesis.schema.definitions.flatMap Definition.tagListing ∧
      (∀ definition ∈ synthesis.schema.definitions, space.Shows synthesis.schema definition) ∧
      ∀ (τ : Type) (receive : τ → Installation κ → τ) (target : τ),
        let filled := (space.types.map Installation.type ++
          space.tables.map Installation.tags).foldl receive target
        synthesis.runInto receive target = .ok filled ∧
          (synthesis.fill receive).run target = .ok () filled) ∧
    ∀ error, synthesis.run = .error error →
      ∀ (τ : Type) (receive : τ → Installation κ → τ) (target : τ),
        synthesis.runInto receive target = .error error ∧
          (synthesis.fill receive).run target = .error error target := by
  refine ⟨?_, ?_⟩
  · intro space hrun
    refine ⟨names_of_run hrun, tagListing_of_run hsize hrun, ?_, ?_⟩
    · intro definition hmem
      exact shows_of_run hrun hmem
    · intro τ receive target
      exact ⟨runInto_of_ok receive hrun target, fill_of_ok receive hrun target⟩
  · intro error hrun τ receive target
    exact ⟨runInto_of_error receive hrun target, fill_of_error receive hrun target⟩

/-- A compound sum with a field of a later enumeration, an optional one and a
repeated one. -/
theorem run_contents_of_expressions :
    let fields : List Field :=
      [⟨"op", "op", false, false⟩, ⟨"args", "expr", false, true⟩, ⟨"note", "string", true, false⟩]
    let schema := Schema.declare 0 "lang"
      [.sum "expr" [⟨"Const", [⟨"n", "int", false, false⟩]⟩, ⟨"Apply", fields⟩],
        .enumeration "op" ["Plus", "Minus"]]
    let synthesis : Synthesis Empty := ⟨0, schema, .descriptor⟩
    ∃ space, synthesis.run = .ok space ∧ space.names = ["expr", "Const", "Apply", "op"] ∧
      space.tables.map TagTable.listing = [("expr_e", [("Const", 1), ("Apply", 2)])] ∧
      ∃ variant, space.get? "Apply" = some (.record variant) ∧
        variant.fieldIndex? "note" = some 2 := by
  intro fields schema synthesis
  have hsize : ∀ definition ∈ schema.definitions, ∀ sum, definition.body = .sum sum →
      sum.constructors.length < UInt32.size := by
    rintro definition hmem sum hbody
    rcases hmem with _ | ⟨_, _ | ⟨_, ⟨⟩⟩⟩ <;> cases hbody <;> decide
  obtain ⟨space, hrun⟩ : ∃ space, synthesis.run = .ok space := ⟨_, rfl⟩
  obtain ⟨hnames, htables, hshows, -⟩ := (run_contents hsize).1 space hrun
  refine ⟨space, hrun, hnames, htables, ?_⟩
  cases hshows _ List.mem_cons_self with
  | enumeration hsimple => cases hsimple
  | compound _ _ _ _ _ hvariants =>
      obtain ⟨variant, -, hfound, -, -, hfields⟩ := hvariants 1 ⟨"Apply", fields⟩ rfl
      exact ⟨variant, hfound, hfields.index 2 ⟨"note", "string", true, false⟩ rfl⟩

end Synthesis

end TreeSchema
