import TreeSchema.Proofs.Synthesis.Bindings

/-!
Which schemas synthesis accepts: those whose field lists are sound and in which
no name is bound twice, by types and tag tables together. A refusal names the
first definition that spoils this, and blames its names only when its field
lists are sound.
-/

namespace TreeSchema

namespace Definition

/-- The field lists that a definition needs resolved. -/
def fieldLists (definition : Definition) : List (List Field) :=
  match definition.body with
  | .product product => [product.fields]
  | .sum sum => if sum.isSimple then [] else sum.constructors.map Constructor.fields

/-- Names of the types that a definition gives. A sum is called by the name it
was declared with. -/
def typeNames (definition : Definition) : List String :=
  match definition.body with
  | .product _ => [definition.name]
  | .sum sum => if sum.isSimple then [sum.name] else sum.name :: Named.names sum.constructors

def tableNames (definition : Definition) : List String :=
  match definition.body with
  | .product _ => []
  | .sum sum => if sum.isSimple then [] else [sum.name ++ "_e"]

def boundNames (definition : Definition) : List String :=
  definition.typeNames ++ definition.tableNames

end Definition

/-- Some definitions of a schema that do not spoil it: their field lists are
sound and they bind every name once. -/
structure Schema.Admits (schema : Schema) (definitions : List Definition) : Prop where
  fields : ∀ definition ∈ definitions, ∀ fields ∈ definition.fieldLists, schema.SoundFields fields
  names : (definitions.flatMap Definition.boundNames).Nodup

def Schema.WellFormed (schema : Schema) : Prop := schema.Admits schema.definitions

variable {κ : Type}

namespace Namespace

variable {space next : Namespace κ}

def boundNames (space : Namespace κ) : List String :=
  space.names ++ Named.names space.tables

theorem isBound_iff {name : String} : space.isBound name = true ↔ name ∈ space.boundNames := by
  rw [isBound, Bool.or_eq_true, Named.bound_iff, Named.bound_iff, boundNames, List.mem_append]
  rfl

theorem append_boundNames (space : Namespace κ) (entry : Installation κ) :
    (space.append entry).boundNames.Perm (entry.name :: space.boundNames) := by
  cases entry with
  | type type =>
      simp only [append, boundNames, names, Named.names, List.map_append, List.map_cons,
        List.map_nil, List.append_assoc, List.singleton_append]
      exact List.perm_middle
  | tags table =>
      simp only [append, boundNames, names, Named.names, List.map_append, List.map_cons,
        List.map_nil, ← List.append_assoc]
      exact List.perm_append_singleton _ _

theorem add_error {entry : Installation κ} {flaw : Flaw} (h : space.add entry = .error flaw) :
    entry.name ∈ space.boundNames ∧ flaw = .duplicateName entry.name := by
  rw [add_eq] at h
  split at h
  case isTrue hbound =>
    cases h
    exact ⟨isBound_iff.mp hbound, rfl⟩
  case isFalse => cases h

theorem not_bound_of_add {entry : Installation κ} (h : space.add entry = .ok next) :
    entry.name ∉ space.boundNames :=
  mt isBound_iff.mpr (add_ok h).1

/-- Names that a namespace gets, each of them new when it is bound. -/
structure Gains (space : Namespace κ) (names : List String) (next : Namespace κ) : Prop where
  bound : next.boundNames.Perm (space.boundNames ++ names)
  distinct : space.boundNames.Nodup → next.boundNames.Nodup

theorem Gains.refl (space : Namespace κ) : space.Gains [] space where
  bound := by rw [List.append_nil]
  distinct := id

theorem Gains.trans {reached : Namespace κ} {names others : List String}
    (h : space.Gains names reached) (hnext : reached.Gains others next) :
    space.Gains (names ++ others) next where
  bound := by
    rw [← List.append_assoc]
    exact hnext.bound.trans (h.bound.append_right others)
  distinct hspace := hnext.distinct (h.distinct hspace)

theorem gains_of_add {entry : Installation κ} (h : space.add entry = .ok next) :
    space.Gains [entry.name] next := by
  have hnew := not_bound_of_add h
  obtain ⟨-, rfl⟩ := add_ok h
  have hbound := append_boundNames space entry
  refine ⟨hbound.trans (List.perm_append_singleton _ _).symm, ?_⟩
  intro hdistinct
  exact hbound.nodup_iff.mpr (List.nodup_cons.mpr ⟨hnew, hdistinct⟩)

theorem gains_of_addAll {entries : List (Installation κ)}
    (h : entries.foldlM add space = .ok next) :
    space.Gains (entries.map Installation.name) next := by
  induction entries generalizing space with
  | nil =>
      cases h
      exact Gains.refl _
  | cons entry rest ih =>
      rw [List.foldlM_cons] at h
      obtain ⟨reached, hreached, h⟩ := bind_eq_ok_iff.mp h
      exact (gains_of_add hreached).trans (ih h)

/-- A refused run of bindings stops at a name that is there or stands earlier in
the run. -/
theorem addAll_error {entries : List (Installation κ)} {flaw : Flaw}
    (h : entries.foldlM add space = .error flaw) :
    ∃ before name after, entries.map Installation.name = before ++ name :: after ∧
      name ∈ space.boundNames ++ before ∧ flaw = .duplicateName name := by
  obtain ⟨before, entry, after, reached, rfl, hbefore, hentry⟩ := foldlM_eq_error h
  obtain ⟨hbound, rfl⟩ := add_error hentry
  refine ⟨before.map Installation.name, entry.name, after.map Installation.name, by simp, ?_, rfl⟩
  exact (gains_of_addAll hbefore).bound.mem_iff.mp hbound

end Namespace

namespace Synthesis

variable {synthesis : Synthesis κ} {space next : Namespace κ}

theorem variants_names {sum : Sum} {position : Nat} {constructors : List Constructor}
    {types : List (RecordType κ)}
    (h : synthesis.variants sum position constructors = .ok types) :
    Named.names types = Named.names constructors := by
  obtain ⟨hlength, heach⟩ := variants_ok h
  apply List.ext_getElem
  · simp [Named.names, hlength]
  intro index htypes hconstructors
  simp only [Named.names, List.length_map] at htypes hconstructors
  obtain ⟨type, htype, hmade⟩ := heach index _ (List.getElem?_eq_getElem hconstructors)
  obtain ⟨-, typed, -, rfl⟩ := recordType_ok hmade
  obtain ⟨_, hat⟩ := List.getElem?_eq_some_iff.mp htype
  simp only [Named.names, List.getElem_map, hat]
  rfl

theorem variants_sound {sum : Sum} {position : Nat} {constructors : List Constructor}
    {types : List (RecordType κ)}
    (h : synthesis.variants sum position constructors = .ok types) :
    ∀ constructor ∈ constructors, synthesis.schema.SoundFields constructor.fields := by
  intro constructor hmem
  obtain ⟨index, hindex⟩ := List.mem_iff_getElem?.mp hmem
  obtain ⟨type, -, hmade⟩ := (variants_ok h).2 index constructor hindex
  exact (recordType_ok hmade).1

theorem variants_error {sum : Sum} {position : Nat} {constructors : List Constructor}
    {flaw : Flaw} (h : synthesis.variants sum position constructors = .error flaw) :
    ∃ constructor ∈ constructors, synthesis.schema.FieldFlaw constructor.fields flaw := by
  induction constructors generalizing position with
  | nil => cases h
  | cons constructor rest ih =>
      rcases bind_eq_error_iff.mp h with hfirst | ⟨first, -, h⟩
      · exact ⟨constructor, List.mem_cons_self, recordType_error hfirst⟩
      rcases bind_eq_error_iff.mp h with hothers | ⟨others, -, h⟩
      · obtain ⟨found, hfound, hflaw⟩ := ih hothers
        exact ⟨found, List.mem_cons_of_mem _ hfound, hflaw⟩
      · cases h

/-- A definition gives types when its field lists are sound, and then under the
names that it is said to bind. -/
theorem Gives.names {definition : Definition} {types : List (GeneratedType κ)}
    (h : synthesis.Gives definition types) :
    (∀ fields ∈ definition.fieldLists, synthesis.schema.SoundFields fields) ∧
      Named.names types = definition.typeNames ∧
      Named.names (tablesOf types) = definition.tableNames := by
  cases h with
  | product htype =>
      obtain ⟨hsound, typed, -, rfl⟩ := recordType_ok htype
      exact ⟨List.forall_mem_singleton.mpr hsound, rfl, rfl⟩
  | enumeration hsimple =>
      simp only [Definition.fieldLists, Definition.typeNames, Definition.tableNames, hsimple,
        if_true]
      exact ⟨List.forall_mem_nil _, rfl, rfl⟩
  | @compound name sum variants hcompound hvariants =>
      simp only [Definition.fieldLists, Definition.typeNames, Definition.tableNames, hcompound,
        Bool.false_eq_true, if_false]
      refine ⟨List.forall_mem_map.mpr (variants_sound hvariants), ?_, ?_⟩
      · rw [← variants_names hvariants]
        simp [Named.names, Named.name, GeneratedType.name, SumType.name]
      · exact congrArg Named.names (tablesOf_compound ⟨sum, variants⟩)

theorem typesOf_error {definition : Definition} {flaw : Flaw}
    (h : synthesis.typesOf definition = .error flaw) :
    ∃ fields ∈ definition.fieldLists, synthesis.schema.FieldFlaw fields flaw := by
  cases hbody : definition.body with
  | product product =>
      simp only [typesOf, Definition.fieldLists, hbody] at h ⊢
      rcases bind_eq_error_iff.mp h with htype | ⟨type, -, h⟩
      · exact ⟨_, List.mem_cons_self, recordType_error htype⟩
      · cases h
  | sum sum =>
      simp only [typesOf, Definition.fieldLists, hbody] at h ⊢
      split at h
      case isTrue => cases h
      case isFalse hcompound =>
        rcases bind_eq_error_iff.mp h with htype | ⟨type, -, h⟩
        · rcases bind_eq_error_iff.mp htype with hvariants | ⟨variants, -, htype⟩
          · obtain ⟨constructor, hmem, hflaw⟩ := variants_error hvariants
            rw [if_neg hcompound]
            exact ⟨_, List.mem_map_of_mem hmem, hflaw⟩
          · cases htype
        · cases h

theorem entriesOf_names {definition : Definition} {types : List (GeneratedType κ)}
    (h : synthesis.typesOf definition = .ok types) :
    (entriesOf types).map Installation.name = definition.boundNames := by
  obtain ⟨-, htypes, htables⟩ := (gives_of_typesOf h).names
  rw [Definition.boundNames, ← htypes, ← htables, entriesOf, List.map_append, List.map_map,
    List.map_map]
  rfl

/-- A definition that goes through has sound field lists and gets its names. -/
theorem define_gains {definition : Definition} (h : synthesis.define space definition = .ok next) :
    (∀ fields ∈ definition.fieldLists, synthesis.schema.SoundFields fields) ∧
      space.Gains definition.boundNames next := by
  rw [define_eq] at h
  obtain ⟨types, htypes, h⟩ := bind_eq_ok_iff.mp h
  rw [← entriesOf_names htypes]
  exact ⟨(gives_of_typesOf htypes).names.1, Namespace.gains_of_addAll h⟩

/-- A refused definition has a flaw in a field list, or else takes a name that is
bound before or that it binds itself. -/
theorem define_error {definition : Definition} {flaw : Flaw}
    (h : synthesis.define space definition = .error flaw) :
    (∃ fields ∈ definition.fieldLists, synthesis.schema.FieldFlaw fields flaw) ∨
      (∀ fields ∈ definition.fieldLists, synthesis.schema.SoundFields fields) ∧
        ∃ before name after, definition.boundNames = before ++ name :: after ∧
          name ∈ space.boundNames ++ before ∧ flaw = .duplicateName name := by
  rw [define_eq] at h
  rcases bind_eq_error_iff.mp h with htypes | ⟨types, htypes, h⟩
  · exact .inl (typesOf_error htypes)
  · rw [← entriesOf_names htypes]
    exact .inr ⟨(gives_of_typesOf htypes).names.1, Namespace.addAll_error h⟩

theorem defineAll_gains {definitions : List Definition}
    (h : definitions.foldlM synthesis.step space = .ok next) :
    (∀ definition ∈ definitions, ∀ fields ∈ definition.fieldLists,
      synthesis.schema.SoundFields fields) ∧
      space.Gains (definitions.flatMap Definition.boundNames) next := by
  induction definitions generalizing space with
  | nil =>
      cases h
      exact ⟨nofun, Namespace.Gains.refl _⟩
  | cons definition rest ih =>
      rw [List.foldlM_cons] at h
      obtain ⟨reached, hreached, h⟩ := bind_eq_ok_iff.mp h
      obtain ⟨hsound, hgains⟩ := define_gains (step_eq_ok_iff.mp hreached)
      obtain ⟨hrest, hlater⟩ := ih h
      exact ⟨List.forall_mem_cons.mpr ⟨hsound, hrest⟩, hgains.trans hlater⟩

/-- Definitions that went through do not spoil the schema, and theirs are the
names that are bound. -/
theorem defineAll_admits {definitions : List Definition}
    (h : definitions.foldlM synthesis.step Namespace.empty = .ok space) :
    synthesis.schema.Admits definitions ∧
      space.boundNames.Perm (definitions.flatMap Definition.boundNames) := by
  obtain ⟨hsound, hgains⟩ := defineAll_gains h
  exact ⟨⟨hsound, hgains.bound.nodup_iff.mp (hgains.distinct List.nodup_nil)⟩, hgains.bound⟩

/-- The names that a run binds, types before tables, stand there once. -/
theorem boundNames_nodup (hrun : synthesis.run = .ok space) : space.boundNames.Nodup := by
  rw [run_eq] at hrun
  obtain ⟨hadmits, hbound⟩ := defineAll_admits hrun
  exact hbound.nodup_iff.mpr hadmits.names

/-- A refused run names a definition behind definitions that do not spoil the
schema, and why this one does. -/
theorem run_error {error : Malformed} (h : synthesis.run = .error error) :
    ∃ earlier definition later,
      synthesis.schema.definitions = earlier ++ definition :: later ∧
      error.definition = definition.name ∧
      synthesis.schema.Admits earlier ∧
      ((∃ fields ∈ definition.fieldLists, synthesis.schema.FieldFlaw fields error.flaw) ∨
        (∀ fields ∈ definition.fieldLists, synthesis.schema.SoundFields fields) ∧
          ∃ before name after, definition.boundNames = before ++ name :: after ∧
            name ∈ earlier.flatMap Definition.boundNames ++ before ∧
            error.flaw = .duplicateName name) := by
  rw [run_eq] at h
  obtain ⟨earlier, definition, later, reached, hsplit, hearlier, hrefused⟩ := foldlM_eq_error h
  obtain ⟨flaw, hflaw, rfl⟩ := mapError_eq_error_iff.mp hrefused
  obtain ⟨hadmits, hbound⟩ := defineAll_admits hearlier
  refine ⟨earlier, definition, later, hsplit, rfl, hadmits, ?_⟩
  rcases define_error hflaw with hfields | ⟨hsound, before, name, after, hnames, hname, rfl⟩
  · exact .inl hfields
  · refine .inr ⟨hsound, before, name, after, hnames, ?_, rfl⟩
    exact (hbound.append_right before).mem_iff.mp hname

/-- A refused run is one of a schema that is not well-formed. -/
theorem not_wellFormed_of_error {error : Malformed} (h : synthesis.run = .error error) :
    ¬ synthesis.schema.WellFormed := by
  intro hformed
  obtain ⟨earlier, definition, later, hsplit, -, -, hspoiled⟩ := run_error h
  rcases hspoiled with ⟨fields, hmem, hflaw⟩ | ⟨-, before, name, after, hnames, hname, -⟩
  · refine hflaw.not_sound (hformed.fields definition ?_ fields hmem)
    rw [hsplit]
    exact List.mem_append_right _ List.mem_cons_self
  · have hdistinct := hformed.names
    rw [hsplit, List.flatMap_append, List.flatMap_cons, hnames, List.append_assoc,
      ← List.append_assoc] at hdistinct
    exact (List.nodup_append.mp hdistinct).2.2 name hname name List.mem_cons_self rfl

/-- Synthesis accepts exactly the well-formed schemas. Otherwise it names the
first definition that has an unsound field list or binds a name again, its own
or one of an earlier definition; a flaw of a field list goes first. -/
theorem run_ok_iff_wellFormed (synthesis : Synthesis κ) :
    ((∃ space, synthesis.run = .ok space) ↔ synthesis.schema.WellFormed) ∧
    ∀ error, synthesis.run = .error error →
      ∃ earlier definition later,
        synthesis.schema.definitions = earlier ++ definition :: later ∧
        error.definition = definition.name ∧
        synthesis.schema.Admits earlier ∧
        ((∃ fields ∈ definition.fieldLists, ¬ synthesis.schema.SoundFields fields ∧
            synthesis.schema.FieldFlaw fields error.flaw) ∨
          (∀ fields ∈ definition.fieldLists, synthesis.schema.SoundFields fields) ∧
            ∃ before name after, definition.boundNames = before ++ name :: after ∧
              name ∈ earlier.flatMap Definition.boundNames ++ before ∧
              error.flaw = .duplicateName name) := by
  refine ⟨⟨?_, ?_⟩, ?_⟩
  · rintro ⟨space, hrun⟩
    rw [run_eq] at hrun
    exact (defineAll_admits hrun).1
  · intro hformed
    cases hrun : synthesis.run with
    | ok space => exact ⟨space, rfl⟩
    | error error => exact absurd hformed (not_wellFormed_of_error hrun)
  · intro error hrun
    obtain ⟨earlier, definition, later, hsplit, hname, hadmits, hspoiled⟩ := run_error hrun
    refine ⟨earlier, definition, later, hsplit, hname, hadmits, hspoiled.imp_left ?_⟩
    rintro ⟨fields, hmem, hflaw⟩
    exact ⟨fields, hmem, hflaw.not_sound, hflaw⟩

/-- A constructor that takes the name of the tag table of its own sum. -/
theorem run_ok_iff_wellFormed_own_table :
    let sum := Declaration.sum "expr" [⟨"Const", [⟨"n", "int", false, false⟩]⟩, .unit "expr_e"]
    let synthesis : Synthesis Empty := ⟨0, Schema.declare 0 "lang" [sum], .descriptor⟩
    let error : Malformed := ⟨"expr", .duplicateName "expr_e"⟩
    synthesis.run = .error error ∧ ¬ synthesis.schema.WellFormed ∧
      ∃ definition ∈ synthesis.schema.definitions, definition.name = "expr" ∧
        ∃ before after, definition.boundNames = before ++ "expr_e" :: after ∧
          "expr_e" ∈ before := by
  intro sum synthesis error
  have hrun : synthesis.run = .error error := rfl
  obtain ⟨hiff, hrefused⟩ := run_ok_iff_wellFormed synthesis
  refine ⟨hrun, ?_, ?_⟩
  · intro hformed
    obtain ⟨space, hspace⟩ := hiff.mpr hformed
    rw [hrun] at hspace
    cases hspace
  · obtain ⟨earlier, definition, later, hsplit, hname, -, hspoiled⟩ := hrefused error hrun
    obtain ⟨rfl, rfl, -⟩ : earlier = [] ∧ definition = ⟨"expr", sum.body 0⟩ ∧ later = [] := by
      rcases List.append_eq_singleton_iff.mp hsplit.symm with ⟨rfl, h⟩ | ⟨rfl, h⟩
      · cases h
        exact ⟨rfl, rfl, rfl⟩
      · cases h
    rcases hspoiled with ⟨fields, -, -, hflaw⟩ | ⟨-, before, name, after, hnames, hbefore, hdouble⟩
    · cases hflaw
    · cases hdouble
      exact ⟨_, List.mem_cons_self, rfl, before, after, hnames, hbefore⟩

end Synthesis

end TreeSchema
