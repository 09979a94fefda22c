import TreeSchema.Proofs.Synthesis.Overlays

/-!
Laws of laying namespaces over one another. Entries of distinct names are told
by their names in order and by what is found under each. Putting them over
others keeps the names that are there, adds the new ones behind them, and
decides what is found. All laws follow from these two facts.
-/

namespace TreeSchema

namespace Named

variable {α : Type} [Named α] {entries others base : List α}

/-- Entries of distinct names are determined by names and lookups. -/
theorem ext_lookup (hdistinct : (names entries).Nodup) (hnames : names entries = names others)
    (hfound : ∀ wanted, lookup wanted entries = lookup wanted others) : entries = others := by
  apply List.ext_getElem?
  intro position
  have hname : entries[position]?.map name = others[position]?.map name := by
    rw [← List.getElem?_map, ← List.getElem?_map]
    exact congrArg (·[position]?) hnames
  cases hentry : entries[position]? with
  | none =>
      rw [hentry] at hname
      exact (Option.map_eq_none_iff.mp hname.symm).symm
  | some entry =>
      rw [hentry] at hname
      obtain ⟨other, hother, hsame⟩ := Option.map_eq_some_iff.mp hname.symm
      have hleft := lookup_name hdistinct (List.mem_of_getElem? hentry)
      have hright := lookup_name (hnames ▸ hdistinct) (List.mem_of_getElem? hother)
      rw [← hsame, hfound, hright] at hleft
      rw [hother, hleft]

theorem names_putAll (hdistinct : (names entries).Nodup) (base : List α) :
    names (putAll entries base) =
      names base ++ (names entries).filter fun wanted => wanted ∉ names base := by
  induction entries generalizing base with
  | nil => exact (List.append_nil _).symm
  | cons entry rest ih =>
      obtain ⟨hnew, hrest⟩ := List.nodup_cons.mp hdistinct
      have hlater : names (putAll (entry :: rest) base) =
          names (put entry base) ++
            (names rest).filter fun wanted => wanted ∉ names (put entry base) :=
        ih hrest _
      have hcons : names (entry :: rest) = name entry :: names rest := rfl
      rw [hlater, names_put, hcons]
      by_cases hbound : name entry ∈ names base
      · rw [if_pos hbound, List.filter_cons_of_neg (by simpa using hbound)]
      · -- the new name stands in no later entry, so it keeps none of them out
        have hothers : ((names rest).filter fun wanted => wanted ∉ names base ++ [name entry]) =
            (names rest).filter fun wanted => wanted ∉ names base := by
          apply List.filter_congr
          intro wanted hmem
          have hother : wanted ≠ name entry := fun h => hnew (h ▸ hmem)
          simp [hother]
        rw [if_neg hbound, hothers, List.filter_cons_of_pos (by simpa using hbound),
          List.append_assoc]
        rfl

theorem putAll_nil_right (hdistinct : (names entries).Nodup) : putAll entries [] = entries := by
  have hnil : (names ([] : List α)).Nodup := List.nodup_nil
  refine ext_lookup (nodup_putAll hnil entries) ?_ ?_
  · rw [names_putAll hdistinct]
    simp [names]
  · intro wanted
    rw [lookup_putAll hdistinct]
    exact Option.or_none

theorem putAll_putAll_self (hentries : (names entries).Nodup) (hbase : (names base).Nodup) :
    putAll entries (putAll entries base) = putAll entries base := by
  refine ext_lookup (nodup_putAll (nodup_putAll hbase entries) entries) ?_ ?_
  · have hall : ((names entries).filter fun wanted => wanted ∉ names (putAll entries base)) = [] := by
      rw [List.filter_eq_nil_iff, names_putAll hentries]
      intro wanted hmem
      by_cases hbound : wanted ∈ names base <;> simp [hbound, hmem]
    rw [names_putAll hentries, hall, List.append_nil]
  · intro wanted
    rw [lookup_putAll hentries, lookup_putAll hentries, ← Option.or_assoc, Option.or_self]

theorem putAll_assoc (hentries : (names entries).Nodup) (hothers : (names others).Nodup)
    (hbase : (names base).Nodup) :
    putAll (putAll entries others) base = putAll entries (putAll others base) := by
  have hupper : (names (putAll entries others)).Nodup := nodup_putAll hothers entries
  refine ext_lookup (nodup_putAll hbase _) ?_ ?_
  · have hnew : ((names entries).filter fun wanted =>
          wanted ∉ names base ++ (names others).filter fun other => other ∉ names base) =
        ((names entries).filter fun wanted => wanted ∉ names others).filter
          fun wanted => wanted ∉ names base := by
      rw [List.filter_filter]
      apply List.filter_congr
      intro wanted _
      by_cases hbound : wanted ∈ names base <;> simp [hbound]
    rw [names_putAll hupper, names_putAll hentries, names_putAll hentries, names_putAll hothers,
      hnew, List.filter_append, List.append_assoc]
  · intro wanted
    rw [lookup_putAll hupper, lookup_putAll hentries, lookup_putAll hentries,
      lookup_putAll hothers, Option.or_assoc]

end Named

namespace Namespace

variable {κ : Type} {upper middle base : Namespace κ}

namespace Coherent

theorem names_overlay (h : upper.Coherent) (base : Namespace κ) :
    (upper.overlay base).names =
      base.names ++ upper.names.filter fun name => name ∉ base.names := by
  rw [overlay_eq]
  exact Named.names_putAll h.types_distinct base.types

theorem overlay_empty (h : upper.Coherent) : upper.overlay Namespace.empty = upper := by
  rw [overlay_eq]
  exact congrArg₂ Namespace.mk (Named.putAll_nil_right h.types_distinct)
    (Named.putAll_nil_right h.tables_distinct)

theorem overlay_overlay_self (hupper : upper.Coherent) (hbase : base.Coherent) :
    upper.overlay (upper.overlay base) = upper.overlay base := by
  rw [overlay_eq upper (upper.overlay base), overlay_eq upper base]
  exact congrArg₂ Namespace.mk
    (Named.putAll_putAll_self hupper.types_distinct hbase.types_distinct)
    (Named.putAll_putAll_self hupper.tables_distinct hbase.tables_distinct)

theorem overlay_assoc (hupper : upper.Coherent) (hmiddle : middle.Coherent)
    (hbase : base.Coherent) :
    (upper.overlay middle).overlay base = upper.overlay (middle.overlay base) := by
  rw [overlay_eq (upper.overlay middle), overlay_eq upper (middle.overlay base),
    overlay_eq upper middle, overlay_eq middle base]
  exact congrArg₂ Namespace.mk
    (Named.putAll_assoc hupper.types_distinct hmiddle.types_distinct hbase.types_distinct)
    (Named.putAll_assoc hupper.tables_distinct hmiddle.tables_distinct hbase.tables_distinct)

end Coherent

/-- Laying a namespace over another decides every name that the upper one has,
for types and for tables, and leaves the others; names keep their place, and new
ones follow in their own order. So doing it twice changes nothing more, the
empty namespace does nothing on either side, and of three namespaces it does not
matter which two are laid over one another first. -/
theorem Reachable.overlay_laws (hupper : upper.Reachable) (hmiddle : middle.Reachable)
    (hbase : base.Reachable) :
    (∀ name, (upper.overlay base).get? name = (upper.get? name).or (base.get? name)) ∧
      (∀ name, (upper.overlay base).tags? name = (upper.tags? name).or (base.tags? name)) ∧
      (upper.overlay base).names =
        base.names ++ (upper.names.filter fun name => name ∉ base.names) ∧
      upper.overlay (upper.overlay base) = upper.overlay base ∧
      Namespace.empty.overlay upper = upper ∧ upper.overlay Namespace.empty = upper ∧
      (upper.overlay middle).overlay base = upper.overlay (middle.overlay base) := by
  have hcoherent := hupper.coherent
  refine ⟨hcoherent.get?_overlay base, hcoherent.tags?_overlay base,
    hcoherent.names_overlay base, ?_, rfl, hcoherent.overlay_empty, ?_⟩
  · exact hcoherent.overlay_overlay_self hbase.coherent
  · exact hcoherent.overlay_assoc hmiddle.coherent hbase.coherent

/-- A sum and a product laid over a product and a sum of the sum's name. -/
theorem Reachable.overlay_laws_shared_names :
    let fields : List Field := [⟨"n", "int", false, false⟩]
    let space (serial : Nat) (declarations : List Declaration) : Namespace Empty :=
      Synthesis.deliver ⟨serial, Schema.declare serial "lang" declarations, .descriptor⟩
        receive Namespace.empty
    let upper := space 0 [.product "point" fields, .sum "expr" [⟨"Const", fields⟩]]
    let middle := space 1 [.product "line" fields, .product "expr" fields]
    let base := space 2 [.sum "expr" [⟨"Leaf", []⟩, ⟨"Const", fields⟩]]
    upper.Reachable ∧ middle.Reachable ∧ base.Reachable ∧
      (upper.overlay base).names = ["expr", "Leaf", "Const", "point"] ∧
      (upper.overlay base).tags? "expr_e" = some ⟨"expr_e", [("Const", 1)]⟩ ∧
      (upper.overlay middle).overlay base = upper.overlay (middle.overlay base) := by
  intro fields space upper middle base
  have hspace (serial : Nat) (declarations : List Declaration) :
      (space serial declarations).Reachable :=
    .synthesizedInto _ .empty
  obtain ⟨-, htags, hnames, -, -, -, hassoc⟩ :=
    Reachable.overlay_laws (hspace 0 _ : upper.Reachable) (hspace 1 _ : middle.Reachable)
      (hspace 2 _ : base.Reachable)
  exact ⟨hspace 0 _, hspace 1 _, hspace 2 _, hnames.trans rfl, (htags "expr_e").trans rfl, hassoc⟩

end Namespace

end TreeSchema
