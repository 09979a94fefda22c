import TreeSchema.Proofs.Synthesis.Contents

/-!
Namespaces laid over one another. The upper one decides every name that it has,
for types and for tables apart. So the table of a sum may outlive the sum, and
what keeps sums and tables together is that no table stands without a type of
its base name: whatever replaces the type under that name replaces the table as
well, or is no sum.
-/

namespace TreeSchema

namespace Named

variable {α : Type} [Named α]

/-- Puts entries one after the other, each over what is there. -/
def putAll (entries base : List α) : List α :=
  entries.foldl (fun reached entry => put entry reached) base

theorem lookup_putAll {entries : List α} (hdistinct : (names entries).Nodup) (base : List α)
    (wanted : String) :
    lookup wanted (putAll entries base) = (lookup wanted entries).or (lookup wanted base) := by
  induction entries generalizing base with
  | nil => rfl
  | cons entry rest ih =>
      obtain ⟨hnew, hrest⟩ := List.nodup_cons.mp hdistinct
      have hlater : lookup wanted (putAll (entry :: rest) base) =
          (lookup wanted rest).or (lookup wanted (put entry base)) := ih hrest _
      rw [hlater, lookup_put]
      by_cases hsame : name entry = wanted
      · have hnone : lookup wanted rest = none := by
          rw [← Option.not_isSome_iff_eq_none, lookup_isSome, bound_iff, ← hsame]
          exact hnew
        rw [hnone]
        simp [hsame, lookup]
      · simp [hsame, lookup]

theorem nodup_put {entry : α} {entries : List α} (hdistinct : (names entries).Nodup) :
    (names (put entry entries)).Nodup := by
  rw [names_put]
  split
  · exact hdistinct
  case isFalse hnew =>
    rw [(List.perm_append_singleton _ _).nodup_iff]
    exact List.nodup_cons.mpr ⟨hnew, hdistinct⟩

theorem nodup_putAll {base : List α} (hdistinct : (names base).Nodup) (entries : List α) :
    (names (putAll entries base)).Nodup := by
  induction entries generalizing base with
  | nil => exact hdistinct
  | cons entry rest ih => exact ih (nodup_put hdistinct)

theorem mem_put {entry found : α} {entries : List α} (hmem : found ∈ put entry entries) :
    found = entry ∨ found ∈ entries := by
  induction entries with
  | nil => exact .inl (List.mem_singleton.mp hmem)
  | cons first rest ih =>
      rw [put] at hmem
      split at hmem
      case isTrue => exact (List.mem_cons.mp hmem).imp_right (List.mem_cons_of_mem first)
      case isFalse =>
        rcases List.mem_cons.mp hmem with rfl | hlater
        · exact .inr List.mem_cons_self
        · exact (ih hlater).imp_right (List.mem_cons_of_mem first)

theorem mem_putAll {entries base : List α} {found : α} (hmem : found ∈ putAll entries base) :
    found ∈ entries ∨ found ∈ base := by
  induction entries generalizing base with
  | nil => exact .inr hmem
  | cons entry rest ih =>
      rcases ih hmem with hrest | hput
      · exact .inl (List.mem_cons_of_mem entry hrest)
      · rcases mem_put hput with rfl | hbase
        · exact .inl List.mem_cons_self
        · exact .inr hbase

theorem mem_of_lookup {wanted : String} {entries : List α} {entry : α}
    (hfound : lookup wanted entries = some entry) : entry ∈ entries :=
  List.mem_of_find?_eq_some hfound

end Named

variable {κ : Type}

namespace Namespace

theorem overlay_eq (upper base : Namespace κ) :
    upper.overlay base =
      ⟨Named.putAll upper.types base.types, Named.putAll upper.tables base.tables⟩ := by
  have htypes (types : List (GeneratedType κ)) (space : Namespace κ) :
      (types.map Installation.type).foldl receive space =
        { space with types := Named.putAll types space.types } := by
    induction types generalizing space with
    | nil => rfl
    | cons type rest ih => exact ih _
  have htables (tables : List TagTable) (space : Namespace κ) :
      (tables.map Installation.tags).foldl receive space =
        { space with tables := Named.putAll tables space.tables } := by
    induction tables generalizing space with
    | nil => rfl
    | cons table rest ih => exact ih _
  rw [overlay, installInto, installations, List.foldl_append, htypes, htables]

theorem mem_overlay {upper base : Namespace κ} {type : GeneratedType κ}
    (hmem : type ∈ (upper.overlay base).types) : type ∈ upper.types ∨ type ∈ base.types := by
  rw [overlay_eq] at hmem
  exact Named.mem_putAll hmem

/-- Types and tables fit together: each is alone under its name, no table stands
without a type of its base name, and a sum has its own table. -/
structure Coherent (space : Namespace κ) : Prop where
  types_distinct : space.names.Nodup
  tables_distinct : (Named.names space.tables).Nodup
  based : ∀ table ∈ space.tables, ∃ base ∈ space.names, table.name = base ++ "_e"
  tagged : ∀ sum, GeneratedType.sum sum ∈ space.types →
    space.tags? (sum.name ++ "_e") = some sum.tags

theorem get?_isSome_iff {space : Namespace κ} {name : String} :
    (space.get? name).isSome = true ↔ name ∈ space.names := by
  rw [get?, Named.lookup_isSome, Named.bound_iff]
  rfl

namespace Coherent

variable {upper base : Namespace κ}

theorem get?_overlay (h : upper.Coherent) (base : Namespace κ) (name : String) :
    (upper.overlay base).get? name = (upper.get? name).or (base.get? name) := by
  rw [overlay_eq]
  exact Named.lookup_putAll h.types_distinct base.types name

theorem tags?_overlay (h : upper.Coherent) (base : Namespace κ) (name : String) :
    (upper.overlay base).tags? name = (upper.tags? name).or (base.tags? name) := by
  rw [overlay_eq]
  exact Named.lookup_putAll h.tables_distinct base.tables name

/-- A table whose base name is not bound is not there either. -/
theorem tags?_of_unbound (h : upper.Coherent) {name : String} (hunbound : name ∉ upper.names) :
    upper.tags? (name ++ "_e") = none := by
  cases hfound : upper.tags? (name ++ "_e") with
  | none => rfl
  | some table =>
      obtain ⟨owner, howner, hname⟩ := h.based table (Named.mem_of_lookup hfound)
      have hsame : table.name = name ++ "_e" := Named.name_of_lookup hfound
      have howned : owner = name := by simpa using hname.symm.trans hsame
      exact absurd (howned ▸ howner) hunbound

theorem empty : (Namespace.empty : Namespace κ).Coherent :=
  ⟨List.nodup_nil, List.nodup_nil, nofun, nofun⟩

theorem overlay (hupper : upper.Coherent) (hbase : base.Coherent) :
    (upper.overlay base).Coherent := by
  have htypes : (upper.overlay base).names.Nodup := by
    rw [overlay_eq]
    exact Named.nodup_putAll hbase.types_distinct upper.types
  have htables : (Named.names (upper.overlay base).tables).Nodup := by
    rw [overlay_eq]
    exact Named.nodup_putAll hbase.tables_distinct upper.tables
  have hbound {name : String} (h : name ∈ upper.names ∨ name ∈ base.names) :
      name ∈ (upper.overlay base).names := by
    rw [← get?_isSome_iff, hupper.get?_overlay, Option.isSome_or, Bool.or_eq_true,
      get?_isSome_iff, get?_isSome_iff]
    exact h
  refine ⟨htypes, htables, ?_, ?_⟩
  · intro table hmem
    have hfound : (upper.overlay base).tags? table.name = some table :=
      Named.lookup_name htables hmem
    rw [hupper.tags?_overlay, Option.or_eq_some_iff] at hfound
    rcases hfound with hfound | ⟨-, hfound⟩
    · obtain ⟨owner, howner, hname⟩ := hupper.based table (Named.mem_of_lookup hfound)
      exact ⟨owner, hbound (.inl howner), hname⟩
    · obtain ⟨owner, howner, hname⟩ := hbase.based table (Named.mem_of_lookup hfound)
      exact ⟨owner, hbound (.inr howner), hname⟩
  · intro sum hmem
    have hfound : (upper.overlay base).get? sum.name = some (.sum sum) :=
      Named.lookup_name htypes hmem
    rw [hupper.get?_overlay, Option.or_eq_some_iff] at hfound
    rw [hupper.tags?_overlay]
    rcases hfound with hfound | ⟨hnone, hfound⟩
    · rw [hupper.tagged sum (Named.mem_of_lookup hfound)]
      rfl
    · -- The sum is from below, so the upper namespace has no type of its name and
      -- no table of it either: the table from below is not hidden.
      have hunbound : sum.name ∉ upper.names := by
        rw [← get?_isSome_iff, hnone]
        exact nofun
      rw [hupper.tags?_of_unbound hunbound, hbase.tagged sum (Named.mem_of_lookup hfound)]
      rfl

end Coherent

end Namespace

namespace Synthesis

theorem mem_tablesOf {types : List (GeneratedType κ)} {table : TagTable} :
    table ∈ tablesOf types ↔ ∃ sum, GeneratedType.sum sum ∈ types ∧ sum.tags = table := by
  rw [tablesOf, List.mem_filterMap]
  constructor
  · rintro ⟨type, hmem, htable⟩
    split at htable
    case h_1 sum => exact ⟨sum, hmem, Option.some.inj htable⟩
    case h_2 => cases htable
  · rintro ⟨sum, hmem, rfl⟩
    exact ⟨.sum sum, hmem, rfl⟩

theorem run_coherent {synthesis : Synthesis κ} {space : Namespace κ}
    (hrun : synthesis.run = .ok space) : space.Coherent := by
  obtain ⟨htypes, htables, -⟩ := List.nodup_append.mp (boundNames_nodup hrun)
  refine ⟨htypes, htables, ?_, ?_⟩
  all_goals obtain ⟨parts, -, rfl⟩ := run_ok hrun
  · intro table hmem
    obtain ⟨sum, hsum, rfl⟩ := mem_tablesOf.mp hmem
    exact ⟨sum.name, List.mem_map_of_mem hsum, rfl⟩
  · intro sum hsum
    exact Named.lookup_name htables (mem_tablesOf.mpr ⟨sum, hsum, rfl⟩)

end Synthesis

namespace Namespace

/-- Synthesis into a namespace leaves it alone or lays a synthesized one over it. -/
theorem deliver_cases (synthesis : Synthesis κ) (target : Namespace κ) :
    synthesis.deliver receive target = target ∨
      ∃ upper, synthesis.run = .ok upper ∧
        synthesis.deliver receive target = upper.overlay target := by
  cases hrun : synthesis.run with
  | error error => exact .inl (Synthesis.deliver_of_error receive hrun target)
  | ok upper => exact .inr ⟨upper, rfl, Synthesis.deliver_of_ok receive hrun target⟩

/-- Namespaces that come from synthesis and from laying such namespaces over one
another, in any order. -/
inductive Reachable : Namespace κ → Prop
  | empty : Reachable Namespace.empty
  | synthesized {synthesis : Synthesis κ} {space : Namespace κ} :
      synthesis.run = .ok space → Reachable space
  | synthesizedInto (synthesis : Synthesis κ) {target : Namespace κ} : Reachable target →
      Reachable (synthesis.deliver receive target)
  | installed {upper base : Namespace κ} : Reachable upper → Reachable base →
      Reachable (upper.overlay base)

theorem Reachable.coherent {space : Namespace κ} (h : space.Reachable) : space.Coherent := by
  induction h with
  | empty => exact Coherent.empty
  | synthesized hrun => exact Synthesis.run_coherent hrun
  | @synthesizedInto synthesis target _ ih =>
      rcases deliver_cases synthesis target with hsame | ⟨upper, hrun, hover⟩
      · rw [hsame]
        exact ih
      · rw [hover]
        exact (Synthesis.run_coherent hrun).overlay ih
  | installed _ _ hupper hbase => exact hupper.overlay hbase

/-- Laying namespaces over one another makes no new types. -/
theorem Reachable.type_of_run {space : Namespace κ} (h : space.Reachable) {type : GeneratedType κ}
    (hmem : type ∈ space.types) :
    ∃ (synthesis : Synthesis κ) (made : Namespace κ), synthesis.run = .ok made ∧
      type ∈ made.types := by
  induction h with
  | empty => cases hmem
  | @synthesized synthesis space hrun => exact ⟨synthesis, space, hrun, hmem⟩
  | @synthesizedInto synthesis target _ ih =>
      rcases deliver_cases synthesis target with hsame | ⟨upper, hrun, hover⟩
      · rw [hsame] at hmem
        exact ih hmem
      · rw [hover] at hmem
        rcases mem_overlay hmem with hupper | htarget
        · exact ⟨synthesis, upper, hrun, hupper⟩
        · exact ih htarget
  | installed _ _ hupper hbase =>
      rcases mem_overlay hmem with hmem | hmem
      · exact hupper hmem
      · exact hbase hmem

theorem Reachable.fieldNames_nodup {space : Namespace κ} (h : space.Reachable) {type : RecordType κ}
    (hholds : space.Holds type) : type.fieldNames.Nodup := by
  rcases hholds with hrecord | ⟨sum, hsum, hvariant⟩
  · obtain ⟨synthesis, made, hrun, hmem⟩ := h.type_of_run hrecord
    exact Synthesis.fieldNames_nodup hrun (.inl hmem)
  · obtain ⟨synthesis, made, hrun, hmem⟩ := h.type_of_run hsum
    exact Synthesis.fieldNames_nodup hrun (.inr ⟨sum, hmem, hvariant⟩)

/-- In every reachable namespace the listed names are those that can be looked
up, each under its own type; every tag table is found under its own name; every
sum has its own table, whatever stood under its name before; and a synthesis
into the namespace that fails leaves it as it was. -/
theorem Reachable.lookups_agree {space : Namespace κ} (h : space.Reachable) :
    space.names.Nodup ∧ space.names.length = space.size ∧
      (∀ name, (space.get? name).isSome = true ↔ name ∈ space.names) ∧
      (∀ name type, space.get? name = some type → type.name = name) ∧
      (∀ table ∈ space.tables, space.tags? table.name = some table) ∧
      (∀ name sum, space.get? name = some (.sum sum) →
        space.tags? (sum.name ++ "_e") = some sum.tags) ∧
      ∀ (synthesis : Synthesis κ) (error : Malformed), synthesis.run = .error error →
        (synthesis.fill receive).run space = .error error space := by
  have hcoherent := h.coherent
  refine ⟨hcoherent.types_distinct, List.length_map _, ?_, ?_, ?_, ?_, ?_⟩
  · intro name
    exact get?_isSome_iff
  · intro name type hfound
    exact Named.name_of_lookup hfound
  · intro table hmem
    exact Named.lookup_name hcoherent.tables_distinct hmem
  · intro name sum hfound
    exact hcoherent.tagged sum (Named.mem_of_lookup hfound)
  · intro synthesis error hrun
    exact Synthesis.fill_of_error receive hrun space

/-- A sum, a product of the same name laid over it, and another sum over that. -/
theorem Reachable.lookups_agree_replaced :
    let fields : List Field := [⟨"n", "int", false, false⟩]
    let run (serial : Nat) (declaration : Declaration) : Synthesis Empty :=
      ⟨serial, Schema.declare serial "lang" [declaration], .descriptor⟩
    let first := (run 0 (.sum "expr" [⟨"Const", fields⟩])).deliver receive Namespace.empty
    let second := (run 1 (.product "expr" fields)).deliver receive first
    let third := (run 2 (.sum "expr" [⟨"Leaf", []⟩, ⟨"Const", fields⟩])).deliver receive second
    second.tags? "expr_e" = some ⟨"expr_e", [("Const", 1)]⟩ ∧ third.Reachable ∧
      third.names = ["expr", "Const", "Leaf"] ∧
      ∃ sum, third.get? "expr" = some (.sum sum) ∧ third.tags? "expr_e" = some sum.tags := by
  intro fields run first second third
  have hreachable : third.Reachable := .synthesizedInto _ (.synthesizedInto _
    (.synthesizedInto _ .empty))
  obtain ⟨-, -, -, -, -, htags, -⟩ := hreachable.lookups_agree
  obtain ⟨sum, hsum⟩ : ∃ sum, third.get? "expr" = some (.sum sum) := ⟨_, rfl⟩
  have hname : sum.name = "expr" := Named.name_of_lookup hsum
  refine ⟨rfl, hreachable, rfl, sum, hsum, ?_⟩
  have htable := htags "expr" sum hsum
  rw [hname] at htable
  exact htable

end Namespace

end TreeSchema
