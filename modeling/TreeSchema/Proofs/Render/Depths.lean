import TreeSchema.Proofs.Render.Paths
import TreeSchema.Proofs.Render.TopDown

/-!
When a node takes one line, for every indentation. With four columns or more a
level of indentation may cost more than a child saves, so a node whose own line
fits is broken when a node below it does not fit at its own depth. The budgets
shrink level by level and are cut off at zero; at a depth they amount to the
width less the indentation of that depth.
-/

namespace TreeSchema.Render.Tree

/-- Every node with children, the root included, has room for its inlined text
in what its depth leaves of the budget. -/
def HasRoom (tree : Tree) (indent budget : Nat) : Prop :=
  ∀ path below, tree.at? path = some below → below.isInner = true →
    below.inlined.length ≤ budget - path.length * indent

/-- Below the root the depths are those of the children, one level deeper. -/
theorem hasRoom_children_iff {label : String} {children : List Tree} {indent budget : Nat} :
    (∀ child ∈ children, child.HasRoom indent (budget - indent)) ↔
      ∀ path below, path ≠ [] → (node label children).at? path = some below →
        below.isInner = true → below.inlined.length ≤ budget - path.length * indent := by
  have hdeeper (depth : Nat) :
      budget - indent - depth * indent = budget - (depth + 1) * indent := by
    rw [Nat.succ_mul, Nat.add_comm, Nat.sub_sub]
  constructor
  · intro hroom path below hpath hbelow hinner
    cases path with
    | nil => exact absurd rfl hpath
    | cons position rest =>
        obtain ⟨child, hchild, hfound⟩ := Option.bind_eq_some_iff.mp hbelow
        have hfits := hroom child (List.mem_of_getElem? hchild) rest below hfound hinner
        rw [hdeeper] at hfits
        exact hfits
  · intro hroom child hmem rest below hbelow hinner
    obtain ⟨position, hchild⟩ := List.mem_iff_getElem?.mp hmem
    rw [hdeeper]
    apply hroom (position :: rest) below (List.cons_ne_nil _ _) _ hinner
    rw [at?_node_cons, hchild]
    exact hbelow

theorem hasRoom_node_iff {label : String} {children : List Tree} (hchildren : children ≠ [])
    {indent budget : Nat} :
    (node label children).HasRoom indent budget ↔
      (node label children).inlined.length ≤ budget ∧
        ∀ child ∈ children, child.HasRoom indent (budget - indent) := by
  have hinner : (node label children).isInner = true := by simpa [isInner] using hchildren
  rw [hasRoom_children_iff]
  constructor
  · intro hroom
    refine ⟨?_, fun path below _ => hroom path below⟩
    simpa using hroom [] _ (at?_nil _) hinner
  · rintro ⟨hroot, hbelow⟩ path below hfound
    cases path with
    | nil =>
        rw [at?_nil] at hfound
        obtain rfl := Option.some.inj hfound
        intro _
        simpa using hroot
    | cons position rest => exact hbelow _ below (List.cons_ne_nil _ _) hfound

theorem hasRoom_of_not_isInner {tree : Tree} (hinner : tree.isInner = false) (indent budget : Nat) :
    tree.HasRoom indent budget := by
  intro path below hbelow hbelowInner
  cases path with
  | nil =>
      rw [at?_nil] at hbelow
      obtain rfl := Option.some.inj hbelow
      rw [hinner] at hbelowInner
      cases hbelowInner
  | cons position rest =>
      cases tree with
      | leaf text => cases hbelow
      | node label children =>
          obtain rfl : children = [] := by simpa [isInner] using hinner
          cases hbelow

/-- A node with children takes one line when no leaf breaks it, its own line fits
and its children have room, once this is known of the children. -/
theorem fit_node_isLine_iff {indent : Nat} {label : String} {children : List Tree}
    (hchildren : children ≠ []) (hlabels : (node label children).HasPlainLabels)
    {budget : Nat} (hbelow : ∀ child ∈ children,
      ((laidWithin indent (budget - indent) child).isLine = true ∧ '\n' ∉ child.inlined.toList) ↔
        child.HasPlainLeaves ∧ child.HasRoom indent (budget - indent)) (firstLine : Nat) :
    (fit indent (node label children) budget firstLine).1.isLine = true ↔
      (node label children).HasPlainLeaves ∧
        (node label children).inlined.length ≤ firstLine ∧
        ∀ child ∈ children, child.HasRoom indent (budget - indent) := by
  have hline : (fit indent (node label children) budget firstLine).1.isLine = true ↔
      (∀ child ∈ children, (laidWithin indent (budget - indent) child).isLine = true ∧
        '\n' ∉ child.inlined.toList) ∧ (node label children).inlined.length ≤ firstLine := by
    rw [fit_node_plain hchildren hlabels.label]
    split
    case isTrue hfits => exact ⟨fun _ => hfits, fun _ => rfl⟩
    case isFalse hbroken => exact ⟨nofun, fun hfits => absurd hfits hbroken⟩
  rw [hline, hasPlainLeaves_node]
  constructor
  · rintro ⟨hlines, hfits⟩
    refine ⟨?_, hfits, ?_⟩
    · exact fun child hchild => ((hbelow child hchild).mp (hlines child hchild)).1
    · exact fun child hchild => ((hbelow child hchild).mp (hlines child hchild)).2
  · rintro ⟨hleaves, hfits, hroom⟩
    exact ⟨fun child hchild => (hbelow child hchild).mpr ⟨hleaves child hchild, hroom child hchild⟩,
      hfits⟩

/-- The invariant of the induction: a tree goes into the line of its parent when
no leaf breaks it and all of its nodes have room. -/
theorem laidWithin_unbroken_iff {indent : Nat} {tree : Tree} (hlabels : tree.HasPlainLabels)
    (budget : Nat) :
    ((laidWithin indent budget tree).isLine = true ∧ '\n' ∉ tree.inlined.toList) ↔
      tree.HasPlainLeaves ∧ tree.HasRoom indent budget := by
  rw [inlined_unbroken_iff hlabels]
  induction tree generalizing budget with
  | leaf text =>
      have hroom : (leaf text).HasRoom indent budget := hasRoom_of_not_isInner rfl _ _
      simp [laidWithin, fit, Layout.isLine, hroom]
  | node label children ih =>
      by_cases hchildren : children = []
      · subst hchildren
        have hroom : (node label []).HasRoom indent budget := hasRoom_of_not_isInner rfl _ _
        simp [laidWithin, fit, Layout.isLine, hroom]
      have hbelow (child) (hchild : child ∈ children) :
          ((laidWithin indent (budget - indent) child).isLine = true ∧
              '\n' ∉ child.inlined.toList) ↔
            child.HasPlainLeaves ∧ child.HasRoom indent (budget - indent) := by
        rw [inlined_unbroken_iff (hlabels.child hchild)]
        exact ih child hchild (hlabels.child hchild) _
      rw [laidWithin, fit_node_isLine_iff hchildren hlabels hbelow, hasRoom_node_iff hchildren]
      constructor
      · rintro ⟨⟨hleaves, hroom⟩, -⟩
        exact ⟨hleaves, hroom⟩
      · rintro ⟨hleaves, hroom⟩
        exact ⟨⟨hleaves, hroom⟩, hleaves⟩

/-- A node with children is laid out as a line exactly when no leaf below it has
a line break, its inlined text has room behind the columns in use, and every
node with children below it would have room on a line of its own. The line is
then the inlined text. -/
theorem layoutAt_isLine_iff {label : String} {children : List Tree} (hchildren : children ≠ [])
    (hlabels : (node label children).HasPlainLabels) (style : Style) (column : Nat) :
    let tree := node label children
    ((tree.layoutAt style column).isLine = true ↔
      tree.HasPlainLeaves ∧ tree.inlined.length ≤ style.width - column ∧
        ∀ path below, path ≠ [] → tree.at? path = some below → below.isInner = true →
          below.inlined.length ≤ style.width - path.length * style.indent) ∧
    ∀ text, tree.layoutAt style column = .line text → text = tree.inlined := by
  intro tree
  refine ⟨?_, fun text hline => fit_line hline⟩
  rw [← hasRoom_children_iff]
  apply fit_node_isLine_iff hchildren hlabels
  intro child hchild
  exact laidWithin_unbroken_iff (hlabels.child hchild) _

/-- Six columns of indentation: the whole just fits in seventeen columns, but two
levels down the nine columns of `(add 1 2)` do not fit in the five that are left. -/
theorem layoutAt_isLine_iff_six_columns :
    let inner := node "add" [leaf "1", leaf "2"]
    let children := [node "f" [inner]]
    let tree := node "g" children
    let style : Style := { width := 17, indent := 6 }
    children ≠ [] ∧ tree.HasPlainLabels ∧ tree.inlined.length ≤ style.width - 0 ∧
      (tree.layoutAt style 0).isLine = false := by
  intro inner children tree style
  have hchildren : children ≠ [] := List.cons_ne_nil _ _
  have hlabels : tree.HasPlainLabels := by decide
  obtain ⟨hiff, -⟩ := layoutAt_isLine_iff hchildren hlabels style 0
  refine ⟨hchildren, hlabels, by decide, ?_⟩
  rw [Bool.eq_false_iff]
  intro hline
  obtain ⟨-, -, hroom⟩ := hiff.mp hline
  have hfits : inner.inlined.length ≤ style.width - 2 * style.indent :=
    hroom [0, 0] inner (List.cons_ne_nil _ _) rfl rfl
  revert hfits
  decide

end TreeSchema.Render.Tree
