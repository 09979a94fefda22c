import Mathlib.Data.List.Nodup
import TreeSchema.Proofs.Synthesis.Overlays
import TreeSchema.Values.Assign

/-!
Constructors of compound sums. The record type of a constructor is reached by its
position and by its name, from the sum and from the namespace, and its tag is the
one that the tag table and the declaration give. All of this hangs on the names
that a run binds: they are distinct, so no two sums of a namespace are the same
declaration, and a record belongs to one sum at most.
-/

namespace TreeSchema

/-- Tags of a declared list of constructors count from one, whatever is looked
up: a name has the tag of its first position, or none. -/
theorem find?_numbered (constructors : List Constructor) (name : String) (offset : Nat) :
    ((constructors.mapIdx fun position constructor =>
        (constructor.name, offset + position + 1)).find? fun entry => entry.1 = name).map Prod.snd =
      ((Named.locate name constructors).map Prod.fst).map fun position =>
        offset + position + 1 := by
  induction constructors generalizing offset with
  | nil => rfl
  | cons constructor rest ih =>
      rw [Named.locate_cons_position, List.mapIdx_cons, List.find?_cons]
      by_cases hname : constructor.name = name
      · simp [hname, Named.name]
      · have hrest := ih (offset + 1)
        simp only [Nat.add_assoc, Nat.add_comm 1] at hrest
        simp only [hname, Named.name, decide_false, if_false, Nat.add_assoc, hrest,
          Option.map_map, Function.comp_def]

/-- A record type belongs to the constructors of one sum only. -/
theorem SumType.sum_eq_of_hasVariant {κ : Type} {type other : SumType κ} {variant : RecordType κ}
    (h : type.hasVariant variant = true) (hother : other.hasVariant variant = true) :
    other.sum = type.sum := by
  unfold hasVariant Origin.isConstructorOf at h hother
  cases horigin : variant.origin with
  | product product =>
      rw [horigin] at h
      cases h
  | constructor declared tag =>
      rw [horigin] at h hother
      exact (eq_of_beq hother).symm.trans (eq_of_beq h)

namespace Namespace

variable {κ : Type} {space : Namespace κ} {name : String}

theorem sum?_eq_some_iff {type : SumType κ} :
    space.sum? name = some type ↔ space.get? name = some (.sum type) := by
  unfold sum?
  split <;> simp_all

theorem record?_eq_some_iff {type : RecordType κ} :
    space.record? name = some type ↔ space.get? name = some (.record type) := by
  unfold record?
  split <;> simp_all

end Namespace

namespace Synthesis

variable {κ : Type} {synthesis : Synthesis κ} {space : Namespace κ}

/-- A sum type of a synthesized namespace is what a definition declares. -/
theorem sum_of_run (hrun : synthesis.run = .ok space) {type : SumType κ}
    (htype : .sum type ∈ space.types) :
    ∃ definition ∈ synthesis.schema.definitions, definition.body = .sum type.sum ∧
      type.sum.isSimple = false ∧
      synthesis.variants type.sum 0 type.sum.constructors = .ok type.constructors := by
  obtain ⟨definition, hdefinition, types, hgives, hmem, -⟩ := gives_of_run hrun htype
  refine ⟨definition, hdefinition, ?_⟩
  cases hgives with
  | product => simp at hmem
  | enumeration => simp at hmem
  | compound hcompound hvariants =>
      obtain rfl : type = _ := by simpa using hmem
      exact ⟨rfl, hcompound, hvariants⟩

/-- A record type of a synthesized namespace is made from a product or is one of
the constructors of a sum type. -/
theorem product_or_variant (hrun : synthesis.run = .ok space) {type : RecordType κ}
    (hholds : space.Holds type) :
    (∃ product, type.origin = .product product) ∨
      ∃ sum, .sum sum ∈ space.types ∧ type ∈ sum.constructors := by
  rcases hholds with hrecord | hvariant
  case inr => exact .inr hvariant
  obtain ⟨definition, -, types, hgives, hmem, hbound⟩ := gives_of_run hrun hrecord
  cases hgives with
  | product htype =>
      obtain rfl : type = _ := by simpa using hmem
      exact .inl ⟨_, (recordType_hasFields htype).2.1⟩
  | enumeration => simp at hmem
  | compound => exact .inr ⟨_, hbound _ List.mem_cons_self, by simpa using hmem⟩

/-- Where names are bound once, a constructor has its name for itself. -/
theorem constructors_nodup (hrun : synthesis.run = .ok space) {definition : Definition}
    (hmem : definition ∈ synthesis.schema.definitions) {sum : Sum}
    (hbody : definition.body = .sum sum) (hcompound : sum.isSimple = false) :
    (Named.names sum.constructors).Nodup := by
  have hnames := names_nodup hrun
  rw [names_of_run hrun, List.nodup_flatMap] at hnames
  have hown := hnames.1 definition hmem
  rw [Definition.typeNames, hbody] at hown
  simp only [hcompound, Bool.false_eq_true, if_false] at hown
  exact (List.nodup_cons.mp hown).2

/-- A compound sum that is defined has its sum type. -/
theorem sum_of_definition (hrun : synthesis.run = .ok space) {definition : Definition}
    (hmem : definition ∈ synthesis.schema.definitions) {sum : Sum}
    (hbody : definition.body = .sum sum) (hcompound : sum.isSimple = false) :
    ∃ type, .sum type ∈ space.types ∧ type.sum = sum := by
  obtain ⟨name, body⟩ := definition
  obtain rfl : body = .sum sum := hbody
  cases shows_of_run hrun hmem with
  | enumeration hsimple =>
      rw [hcompound] at hsimple
      cases hsimple
  | compound _ hget _ hsum => exact ⟨_, Named.mem_of_lookup hget, hsum⟩

section

variable (hrun : synthesis.run = .ok space) {type : SumType κ} (htype : .sum type ∈ space.types)
include hrun htype

theorem length_variants : type.constructors.length = type.sum.constructors.length := by
  obtain ⟨definition, -, -, -, hvariants⟩ := sum_of_run hrun htype
  exact (variants_ok hvariants).1

theorem variant_names : Named.names type.constructors = Named.names type.sum.constructors := by
  obtain ⟨definition, -, -, -, hvariants⟩ := sum_of_run hrun htype
  exact variants_names hvariants

theorem variant_names_nodup : (Named.names type.constructors).Nodup := by
  obtain ⟨definition, hmem, hbody, hcompound, -⟩ := sum_of_run hrun htype
  rw [variant_names hrun htype]
  exact constructors_nodup hrun hmem hbody hcompound

theorem get?_sum : space.get? type.sum.name = some (.sum type) :=
  Named.lookup_name (names_nodup hrun) htype

/-- What stands at the position of a constructor is bound under its name. -/
theorem variant_at {position : Nat} {constructor : Constructor}
    (hconstructor : type.sum.constructors[position]? = some constructor) :
    ∃ variant, type.constructors[position]? = some variant ∧
      space.get? constructor.name = some (.record variant) ∧
      variant.origin = .constructor type.sum (tagAt position) := by
  obtain ⟨⟨name, body⟩, hmem, hbody, hcompound, -⟩ := sum_of_run hrun htype
  obtain rfl : body = .sum type.sum := hbody
  cases shows_of_run hrun hmem with
  | enumeration hsimple =>
      rw [hcompound] at hsimple
      cases hsimple
  | @compound _ _ found _ hget _ _ _ hvariants =>
      rw [get?_sum hrun htype] at hget
      obtain rfl : type = found := GeneratedType.sum.inj (Option.some.inj hget)
      obtain ⟨variant, hvariant, hbound, -, horigin, -⟩ :=
        hvariants position constructor hconstructor
      exact ⟨variant, hvariant, hbound, horigin⟩

theorem hasVariant_of_mem {variant : RecordType κ} (hmem : variant ∈ type.constructors) :
    type.hasVariant variant = true := by
  obtain ⟨position, hposition⟩ := List.mem_iff_getElem?.mp hmem
  obtain ⟨hbound, -⟩ := List.getElem?_eq_some_iff.mp hposition
  rw [length_variants hrun htype] at hbound
  obtain ⟨found, hfound, -, horigin⟩ :=
    variant_at hrun htype (List.getElem?_eq_getElem hbound)
  obtain rfl : found = variant := Option.some.inj (hfound.symm.trans hposition)
  rw [SumType.hasVariant, horigin, Origin.isConstructorOf]
  exact beq_self_eq_true _

/-- No two sum types are made from the same sum. -/
theorem sum_unique {other : SumType κ} (hother : .sum other ∈ space.types)
    (hsum : other.sum = type.sum) : other = type := by
  have hfound := get?_sum hrun hother
  rw [hsum, get?_sum hrun htype] at hfound
  exact (GeneratedType.sum.inj (Option.some.inj hfound)).symm

/-- To belong to a sum is to be one of its constructors. -/
theorem hasVariant_iff_mem {variant : RecordType κ} (hholds : space.Holds variant) :
    type.hasVariant variant = true ↔ variant ∈ type.constructors := by
  constructor
  · intro hvariant
    rcases product_or_variant hrun hholds with ⟨product, horigin⟩ | ⟨other, hother, hmem⟩
    · rw [SumType.hasVariant, horigin] at hvariant
      cases hvariant
    · have hotherVariant := hasVariant_of_mem hrun hother hmem
      have hsum : other.sum = type.sum :=
        SumType.sum_eq_of_hasVariant hvariant hotherVariant
      rw [← sum_unique hrun htype hother hsum]
      exact hmem
  · intro hmem
    exact hasVariant_of_mem hrun htype hmem

theorem position?_name {position : Nat} {constructor : Constructor}
    (hconstructor : type.sum.constructors[position]? = some constructor) :
    type.sum.position? constructor.name = some position := by
  obtain ⟨definition, hmem, hbody, hcompound, -⟩ := sum_of_run hrun htype
  have hlocate : Named.locate constructor.name type.sum.constructors =
      some (position, constructor) :=
    Named.locate_name (constructors_nodup hrun hmem hbody hcompound) hconstructor
  rw [Sum.position?, hlocate]
  rfl

theorem constructor?_eq (name : String) :
    type.constructor? name =
      (type.sum.position? name).bind fun position => type.constructors[position]? :=
  Named.lookup_eq_getElem? (variant_names hrun htype) name

/-- The tag table and the declaration agree on every name. -/
theorem tags_get? (hsize : type.sum.constructors.length < UInt32.size) (name : String) :
    (type.tags.get? name).map UInt32.toNat = (type.sum.position? name).map (· + 1) := by
  obtain ⟨definition, -, -, -, hvariants⟩ := sum_of_run hrun htype
  have hlisting : type.tags.entries.map (fun entry => (entry.1, entry.2.toNat)) =
      type.sum.constructors.mapIdx fun position constructor =>
        (constructor.name, position + 1) :=
    congrArg Prod.snd (tags_listing hsize hvariants)
  have hnumbered := find?_numbered type.sum.constructors name 0
  simp only [Nat.zero_add] at hnumbered
  rw [Sum.position?, ← hnumbered, ← hlisting, List.find?_map, TagTable.get?, Option.map_map,
    Option.map_map]
  rfl

/-- A constructor has the tag of its position in the table. -/
theorem tags_get?_name (hsize : type.sum.constructors.length < UInt32.size) {position : Nat}
    {constructor : Constructor}
    (hconstructor : type.sum.constructors[position]? = some constructor) :
    (tagAt position).toNat = position + 1 ∧
      type.tags.get? constructor.name = some (tagAt position) := by
  obtain ⟨hposition, -⟩ := List.getElem?_eq_some_iff.mp hconstructor
  have hsmall : position + 1 < UInt32.size := by omega
  have htag : (tagAt position).toNat = position + 1 := toNat_tagAt hsmall
  have hfound := tags_get? hrun htype hsize constructor.name
  rw [position?_name hrun htype hconstructor, Option.map_some, Option.map_eq_some_iff] at hfound
  obtain ⟨tag, hget, hnumber⟩ := hfound
  have hsame : tag = tagAt position := UInt32.toNat_inj.mp (hnumber.trans htag.symm)
  exact ⟨htag, hsame ▸ hget⟩

theorem routes_of_other_name (hsize : type.sum.constructors.length < UInt32.size) {name : String}
    (hother : name ∉ Named.names type.sum.constructors) :
    type.sum.position? name = none ∧ type.constructor? name = none ∧
      type.tags.get? name = none := by
  have hposition : type.sum.position? name = none := by
    rw [Sum.position?, Named.locate_eq_none_iff.mpr hother]
    rfl
  have htag := tags_get? hrun htype hsize name
  have hvariant := constructor?_eq hrun htype name
  rw [hposition] at htag hvariant
  exact ⟨hposition, hvariant, Option.map_eq_none_iff.mp htag⟩

end

/-- All routes to the constructors of a compound sum agree. The record type at a
position of the sum type is found under the name of the constructor, from the sum
and from the namespace, and its tag, one more than the position, is the one that
the declaration, the sum and the namespace give for the name. Other names have
neither a record type in the sum nor a tag. A record belongs to the sum exactly
when its type is one of these record types, exactly then it conforms to the sum,
and it belongs to no other sum of the namespace. -/
theorem routes_agree (hrun : synthesis.run = .ok space) {definition : Definition}
    (hmem : definition ∈ synthesis.schema.definitions) {sum : Sum}
    (hbody : definition.body = .sum sum) (hcompound : sum.isSimple = false)
    (hsize : sum.constructors.length < UInt32.size) :
    ∃ type, space.sum? sum.name = some type ∧ type.sum = sum ∧
      type.constructors.length = sum.constructors.length ∧
      (∀ (position : Nat) (constructor : Constructor),
        sum.constructors[position]? = some constructor →
        ∃ variant tag, type.constructors[position]? = some variant ∧
          type.constructor? constructor.name = some variant ∧
          space.record? constructor.name = some variant ∧
          variant.tag? = some tag ∧ tag.toNat = position + 1 ∧
          sum.position? constructor.name = some position ∧
          type.tags.get? constructor.name = some tag ∧
          (space.tags? (sum.name ++ "_e")).bind (fun table => table.get? constructor.name) =
            some tag) ∧
      (∀ name, name ∉ Named.names sum.constructors →
        sum.position? name = none ∧ type.constructor? name = none ∧
          type.tags.get? name = none ∧
          (space.tags? (sum.name ++ "_e")).bind (fun table => table.get? name) = none) ∧
      ∀ record : Record κ, space.Holds record.type →
        (type.hasVariant record.type = true ↔ record.type ∈ type.constructors) ∧
        (record.isVariantOf type = true ↔ record.type ∈ type.constructors) ∧
        ((Value.record record).conforms (.sum sum) = true ↔ record.type ∈ type.constructors) ∧
        ∀ name other, space.sum? name = some other → record.isVariantOf type = true →
          record.isVariantOf other = true → other = type := by
  obtain ⟨type, htype, rfl⟩ := sum_of_definition hrun hmem hbody hcompound
  have hget := get?_sum hrun htype
  have htags : space.tags? (type.sum.name ++ "_e") = some type.tags :=
    (run_coherent hrun).tagged type htype
  refine ⟨type, Namespace.sum?_eq_some_iff.mpr hget, rfl, length_variants hrun htype, ?_, ?_, ?_⟩
  · intro position constructor hconstructor
    obtain ⟨variant, hvariant, hbound, horigin⟩ := variant_at hrun htype hconstructor
    obtain ⟨hnumber, htag⟩ := tags_get?_name hrun htype hsize hconstructor
    have hposition := position?_name hrun htype hconstructor
    refine ⟨variant, tagAt position, hvariant, ?_, Namespace.record?_eq_some_iff.mpr hbound, ?_,
      hnumber, hposition, htag, ?_⟩
    · rw [constructor?_eq hrun htype, hposition]
      exact hvariant
    · rw [RecordType.tag?, horigin]
      rfl
    · rw [htags]
      exact htag
  · intro name hother
    obtain ⟨hposition, hvariant, htag⟩ := routes_of_other_name hrun htype hsize hother
    rw [htags]
    exact ⟨hposition, hvariant, htag, htag⟩
  · intro record hholds
    have hiff := hasVariant_iff_mem hrun htype hholds
    refine ⟨hiff, hiff, ?_, ?_⟩
    · rw [← hiff, Value.conforms, hcompound]
      rfl
    · intro name other hfound hvariant hotherVariant
      have hother := Named.mem_of_lookup (Namespace.sum?_eq_some_iff.mp hfound)
      exact sum_unique hrun htype hother (SumType.sum_eq_of_hasVariant hvariant hotherVariant)

/-- The second constructor of a sum, with a product beside the sum. -/
theorem routes_agree_apply :
    let fields : List Field := [⟨"f", "expr", false, false⟩, ⟨"at", "point", true, false⟩]
    let expr : Sum := ⟨0, "expr", [⟨"Const", [⟨"n", "int", false, false⟩]⟩, ⟨"Apply", fields⟩]⟩
    let schema : Schema :=
      ⟨"lang", [⟨"expr", .sum expr⟩, ⟨"point", .product ⟨1, "point", []⟩⟩]⟩
    let synthesis : Synthesis Empty := ⟨0, schema, .descriptor⟩
    ∃ space type variant, synthesis.run = .ok space ∧ space.sum? "expr" = some type ∧
      type.constructor? "Apply" = some variant ∧ space.record? "Apply" = some variant ∧
      type.tags.get? "Apply" = some 2 ∧ type.tags.get? "point" = none ∧
      (Record.blank variant).isVariantOf type = true ∧
      (Value.record (Record.blank variant)).conforms (.sum expr) = true := by
  intro fields expr schema synthesis
  obtain ⟨space, hrun⟩ : ∃ space, synthesis.run = .ok space := ⟨_, rfl⟩
  have hmem : (⟨"expr", .sum expr⟩ : Definition) ∈ schema.definitions := List.mem_cons_self
  obtain ⟨type, htype, -, -, hvariants, hothers, hrecords⟩ :=
    routes_agree hrun hmem rfl rfl (by decide)
  obtain ⟨variant, tag, hvariant, hname, hbound, -, hnumber, -, htag, -⟩ :=
    hvariants 1 ⟨"Apply", fields⟩ rfl
  obtain rfl : tag = 2 := UInt32.toNat_inj.mp hnumber
  have hholds : space.Holds variant :=
    .inl (Named.mem_of_lookup (Namespace.record?_eq_some_iff.mp hbound))
  obtain ⟨-, hvariantOf, hconforms, -⟩ := hrecords (Record.blank variant) hholds
  have hin := List.mem_of_getElem? hvariant
  exact ⟨space, type, variant, hrun, htype, hname, hbound, htag, (hothers "point" (by decide)).2.2.1,
    hvariantOf.mpr hin, hconforms.mpr hin⟩

end Synthesis

end TreeSchema
