import TreeSchema.Proofs.Outcomes
import TreeSchema.Synthesis.Basic

/-!
Field lists as a schema reads them. A type name denotes a primitive or a
definition of the schema. A list is sound when every field has at most one
modifier, a name of its own and a type name that denotes something. Only sound
lists are resolved, and a refusal tells a flaw that the list has.
-/

namespace TreeSchema

/-- The type of a field whose type name stands for `base`. -/
def Field.wrap (field : Field) (base : Desc) : Desc :=
  if field.optional then .maybe base else if field.repeated then .array base else base

theorem Desc.primitive?_eq_none {typeName : String} (hint : typeName ≠ "int")
    (hstring : typeName ≠ "string") : primitive? typeName = none := by
  unfold primitive?
  split
  · contradiction
  · contradiction
  · rfl

namespace Schema

/-- What a type name stands for. A primitive hides a definition of its name. -/
inductive Denotes (schema : Schema) : String → Desc → Prop
  | int : Denotes schema "int" .int
  | string : Denotes schema "string" .string
  | defined {typeName : String} {body : TypeDef} : typeName ≠ "int" → typeName ≠ "string" →
      schema.find? typeName = some body → Denotes schema typeName body.desc

/-- A field may use the type name, whether it stands before or after what it names. -/
def Knows (schema : Schema) (typeName : String) : Prop :=
  typeName = "int" ∨ typeName = "string" ∨ typeName ∈ Named.names schema.definitions

variable {schema : Schema}

theorem find?_isSome_iff {name : String} :
    (schema.find? name).isSome = true ↔ name ∈ Named.names schema.definitions := by
  rw [find?, Option.isSome_map, Named.lookup_isSome, Named.bound_iff]

theorem resolve?_eq_some_iff {typeName : String} {base : Desc} :
    schema.resolve? typeName = some base ↔ schema.Denotes typeName base := by
  constructor
  · intro h
    by_cases hint : typeName = "int"
    · subst hint
      cases h
      exact .int
    by_cases hstring : typeName = "string"
    · subst hstring
      cases h
      exact .string
    rw [resolve?, Desc.primitive?_eq_none hint hstring, Option.none_or] at h
    obtain ⟨body, hbody, rfl⟩ := Option.map_eq_some_iff.mp h
    exact .defined hint hstring hbody
  · intro h
    cases h with
    | int => rfl
    | string => rfl
    | defined hint hstring hbody =>
        rw [resolve?, Desc.primitive?_eq_none hint hstring, Option.none_or, hbody]
        rfl

theorem knows_iff {typeName : String} :
    schema.Knows typeName ↔ ∃ base, schema.resolve? typeName = some base := by
  constructor
  · intro h
    by_cases hint : typeName = "int"
    · exact ⟨.int, resolve?_eq_some_iff.mpr (hint ▸ .int)⟩
    by_cases hstring : typeName = "string"
    · exact ⟨.string, resolve?_eq_some_iff.mpr (hstring ▸ .string)⟩
    have hdefined : typeName ∈ Named.names schema.definitions :=
      (h.resolve_left hint).resolve_left hstring
    obtain ⟨body, hbody⟩ := Option.isSome_iff_exists.mp (find?_isSome_iff.mpr hdefined)
    exact ⟨body.desc, resolve?_eq_some_iff.mpr (.defined hint hstring hbody)⟩
  · rintro ⟨base, hbase⟩
    cases resolve?_eq_some_iff.mp hbase with
    | int => exact .inl rfl
    | string => exact .inr (.inl rfl)
    | defined _ _ hbody => exact .inr (.inr (find?_isSome_iff.mp (by rw [hbody]; rfl)))

structure SoundFields (schema : Schema) (fields : List Field) : Prop where
  exclusive : ∀ field ∈ fields, ¬ (field.optional = true ∧ field.repeated = true)
  distinct : (Named.names fields).Nodup
  known : ∀ field ∈ fields, schema.Knows field.typeName

/-- A reason why a field list is not sound. -/
inductive FieldFlaw (schema : Schema) (fields : List Field) : Flaw → Prop
  | optionalAndRepeated {field : Field} : field ∈ fields → field.optional = true →
      field.repeated = true → FieldFlaw schema fields (.optionalAndRepeated field.name)
  | duplicateField {before after : List Field} {field : Field} :
      fields = before ++ field :: after → field.name ∈ Named.names before →
      FieldFlaw schema fields (.duplicateField field.name)
  | undefinedType {field : Field} : field ∈ fields → ¬ schema.Knows field.typeName →
      FieldFlaw schema fields (.undefinedType field.name field.typeName)

theorem FieldFlaw.not_sound {fields : List Field} {flaw : Flaw}
    (h : schema.FieldFlaw fields flaw) : ¬ schema.SoundFields fields := by
  intro hsound
  cases h with
  | optionalAndRepeated hmem hoptional hrepeated =>
      exact hsound.exclusive _ hmem ⟨hoptional, hrepeated⟩
  | duplicateField hfields hearlier =>
      have hdistinct := hsound.distinct
      rw [hfields, Named.names, List.map_append, List.map_cons] at hdistinct
      exact (List.nodup_append.mp hdistinct).2.2 _ hearlier _ List.mem_cons_self rfl
  | undefinedType hmem hunknown => exact hunknown (hsound.known _ hmem)

/-- A resolved field list, entry by entry. -/
structure Resolves (schema : Schema) (fields : List Field) (typed : List TypedField) : Prop where
  names : Named.names typed = Named.names fields
  entries : ∀ (index : Nat) (field : Field), fields[index]? = some field →
    ∃ base, schema.Denotes field.typeName base ∧
      typed[index]? = some ⟨field.name, field.wrap base⟩

theorem resolveField_ok {earlier : List String} {field : Field} {typed : TypedField}
    (h : schema.resolveField earlier field = .ok typed) :
    ¬ (field.optional = true ∧ field.repeated = true) ∧ field.name ∉ earlier ∧
      ∃ base, schema.Denotes field.typeName base ∧ typed = ⟨field.name, field.wrap base⟩ := by
  unfold resolveField at h
  split at h
  · cases h
  case isFalse hexclusive =>
    split at h
    · cases h
    case isFalse hnew =>
      split at h
      · cases h
      case h_2 base hbase =>
        cases h
        rw [Bool.and_eq_true] at hexclusive
        exact ⟨hexclusive, hnew, base, resolve?_eq_some_iff.mp hbase, rfl⟩

theorem resolveField_error {before : List Field} {earlier : List String}
    (hearlier : ∀ name ∈ earlier, name ∈ Named.names before) {field : Field} {flaw : Flaw}
    (h : schema.resolveField earlier field = .error flaw) (rest : List Field) :
    schema.FieldFlaw (before ++ field :: rest) flaw := by
  have hmem : field ∈ before ++ field :: rest := by simp
  unfold resolveField at h
  split at h
  case isTrue hboth =>
    cases h
    obtain ⟨hoptional, hrepeated⟩ := Bool.and_eq_true_iff.mp hboth
    exact .optionalAndRepeated hmem hoptional hrepeated
  · split at h
    case isTrue hdeclared =>
      cases h
      exact .duplicateField rfl (hearlier _ hdeclared)
    · split at h
      case h_1 hnone =>
        cases h
        refine .undefinedType hmem ?_
        intro hknown
        obtain ⟨base, hbase⟩ := knows_iff.mp hknown
        rw [hnone] at hbase
        cases hbase
      · cases h

theorem resolveFrom_ok {earlier : List String} {fields : List Field} {typed : List TypedField}
    (h : schema.resolveFrom earlier fields = .ok typed) :
    schema.SoundFields fields ∧ schema.Resolves fields typed ∧
      ∀ name ∈ Named.names fields, name ∉ earlier := by
  induction fields generalizing earlier typed with
  | nil =>
      cases h
      exact ⟨⟨nofun, List.nodup_nil, nofun⟩, ⟨rfl, nofun⟩, nofun⟩
  | cons field rest ih =>
      obtain ⟨first, hfirst, h⟩ := bind_eq_ok_iff.mp h
      obtain ⟨others, hothers, h⟩ := bind_eq_ok_iff.mp h
      cases h
      obtain ⟨hexclusive, hnew, base, hbase, rfl⟩ := resolveField_ok hfirst
      obtain ⟨hsound, hresolved, hlater⟩ := ih hothers
      have hfresh : field.name ∉ Named.names rest := fun hmem =>
        hlater _ hmem List.mem_cons_self
      refine ⟨⟨?_, ?_, ?_⟩, ⟨?_, ?_⟩, ?_⟩
      · exact List.forall_mem_cons.mpr ⟨hexclusive, hsound.exclusive⟩
      · exact List.nodup_cons.mpr ⟨hfresh, hsound.distinct⟩
      · refine List.forall_mem_cons.mpr ⟨?_, hsound.known⟩
        exact knows_iff.mpr ⟨base, resolve?_eq_some_iff.mpr hbase⟩
      · exact congrArg (field.name :: ·) hresolved.names
      · intro index found hfound
        cases index with
        | zero =>
            obtain rfl : field = found := by simpa using hfound
            exact ⟨base, hbase, rfl⟩
        | succ later => exact hresolved.entries later found hfound
      · refine List.forall_mem_cons.mpr ⟨hnew, ?_⟩
        intro name hmem hearlier
        exact hlater name hmem (List.mem_cons_of_mem _ hearlier)

theorem resolveFrom_error {before : List Field} {earlier : List String}
    (hearlier : ∀ name ∈ earlier, name ∈ Named.names before) {fields : List Field} {flaw : Flaw}
    (h : schema.resolveFrom earlier fields = .error flaw) :
    schema.FieldFlaw (before ++ fields) flaw := by
  induction fields generalizing before earlier with
  | nil => cases h
  | cons field rest ih =>
      rcases bind_eq_error_iff.mp h with hfirst | ⟨first, -, h⟩
      · exact resolveField_error hearlier hfirst rest
      rcases bind_eq_error_iff.mp h with hothers | ⟨others, -, h⟩
      · have hnext : ∀ name ∈ field.name :: earlier, name ∈ Named.names (before ++ [field]) := by
          intro name hmem
          rw [Named.names, List.map_append, List.mem_append]
          rcases List.mem_cons.mp hmem with rfl | hmem
          · exact .inr List.mem_cons_self
          · exact .inl (hearlier name hmem)
        rw [← List.singleton_append, ← List.append_assoc]
        exact ih hnext hothers
      · cases h

/-- A resolved field list is sound and read entry by entry. -/
theorem resolveFields_ok {fields : List Field} {typed : List TypedField}
    (h : schema.resolveFields fields = .ok typed) :
    schema.SoundFields fields ∧ schema.Resolves fields typed := by
  obtain ⟨hsound, hresolved, -⟩ := resolveFrom_ok h
  exact ⟨hsound, hresolved⟩

theorem resolveFields_error {fields : List Field} {flaw : Flaw}
    (h : schema.resolveFields fields = .error flaw) : schema.FieldFlaw fields flaw :=
  have hearlier : ∀ name ∈ ([] : List String), name ∈ Named.names ([] : List Field) := by simp
  resolveFrom_error hearlier h

end Schema

end TreeSchema
