import TreeSchema.Proofs.Render.Collapse

/-!
Inline if it fits, break otherwise. The rule decides from the root downwards,
on whole inlined texts; fitting decides from the leaves upwards, with budgets
that shrink on the way. While a level of indentation costs at most three
columns the two agree, because a line is at least three columns longer than
the line of any of its children.
-/

namespace TreeSchema.Render.Tree

/-- No leaf text spans lines. -/
def HasPlainLeaves (tree : Tree) : Prop :=
  ∀ text ∈ tree.leaves, '\n' ∉ text.toList

instance (tree : Tree) : Decidable tree.HasPlainLeaves :=
  inferInstanceAs (Decidable (∀ text ∈ tree.leaves, '\n' ∉ text.toList))

theorem hasPlainLeaves_node {label : String} {children : List Tree} :
    (node label children).HasPlainLeaves ↔ ∀ child ∈ children, child.HasPlainLeaves := by
  simp only [HasPlainLeaves, leaves_node, List.mem_flatMap]
  constructor
  · intro h child hchild text htext
    exact h text ⟨child, hchild, htext⟩
  · rintro h text ⟨child, hchild, htext⟩
    exact h child hchild text htext

/-- With labels on one line, only leaves can break the inlined text. -/
theorem inlined_unbroken_iff {tree : Tree} (hlabels : tree.HasPlainLabels) :
    '\n' ∉ tree.inlined.toList ↔ tree.HasPlainLeaves := by
  induction tree with
  | leaf text => simp [inlined, HasPlainLeaves, leaves_leaf]
  | node label children ih =>
      rw [hasPlainLeaves_node, inlined_node_unbroken_iff hlabels.label]
      constructor
      · intro h child hchild
        exact (ih child hchild (hlabels.child hchild)).mp (h child hchild)
      · intro h child hchild
        exact (ih child hchild (hlabels.child hchild)).mpr (h child hchild)

mutual

/-- The layout by the rule alone: a node with children takes one line when its
inlined text has no line break and at most `firstLine` characters. Otherwise
each child starts a line of its own, with the budget one level deeper. -/
def topDown (indent : Nat) : Tree → (budget firstLine : Nat) → Layout
  | .leaf text, _, _ => .line text
  | .node label children, budget, firstLine =>
      if children.isEmpty then .line (node label children).inlined
      else if (node label children).HasPlainLeaves ∧
          (node label children).inlined.length ≤ firstLine then
        .line (node label children).inlined
      else .block label (topDownAll indent children (budget - indent))

def topDownAll (indent : Nat) : List Tree → (budget : Nat) → List Layout
  | [], _ => []
  | child :: rest, budget =>
      topDown indent child budget budget :: topDownAll indent rest budget

end

theorem topDownAll_eq_map (indent budget : Nat) (children : List Tree) :
    topDownAll indent children budget =
      children.map fun child => topDown indent child budget budget := by
  induction children with
  | nil => rfl
  | cons child rest ih => simp only [topDownAll, ih, List.map_cons]

theorem topDown_isLine {indent budget firstLine : Nat} {tree : Tree}
    (hleaves : tree.HasPlainLeaves) (hfits : tree.inlined.length ≤ firstLine) :
    (topDown indent tree budget firstLine).isLine = true := by
  cases tree with
  | leaf text => rfl
  | node label children =>
      rw [topDown]
      split
      · rfl
      · rw [if_pos ⟨hleaves, hfits⟩]
        rfl

/-- Both decisions agree at every depth as long as the first line is not given
more room than the lines below. -/
theorem fit_eq_topDown {indent : Nat} (hindent : indent ≤ 3) {tree : Tree}
    (hlabels : tree.HasPlainLabels) {budget firstLine : Nat} (hfirst : firstLine ≤ budget) :
    (fit indent tree budget firstLine).1 = topDown indent tree budget firstLine := by
  induction tree generalizing budget firstLine with
  | leaf text => rfl
  | node label children ih =>
      have hbelow (child) (hchild : child ∈ children) :
          laidWithin indent (budget - indent) child =
            topDown indent child (budget - indent) (budget - indent) :=
        ih child hchild (hlabels.child hchild) (Nat.le_refl _)
      by_cases hchildren : children = []
      · subst hchildren
        rw [topDown, inlined_childless]
        rfl
      have hsame :
          ((∀ child ∈ children, (laidWithin indent (budget - indent) child).isLine = true ∧
              '\n' ∉ child.inlined.toList) ∧
            (node label children).inlined.length ≤ firstLine) ↔
          ((node label children).HasPlainLeaves ∧
            (node label children).inlined.length ≤ firstLine) := by
        rw [hasPlainLeaves_node]
        constructor
        · rintro ⟨hlines, hfits⟩
          refine ⟨fun child hchild => ?_, hfits⟩
          exact (inlined_unbroken_iff (hlabels.child hchild)).mp (hlines child hchild).2
        · rintro ⟨hleaves, hfits⟩
          refine ⟨fun child hchild => ⟨?_, ?_⟩, hfits⟩
          · -- the three columns saved below pay for the indentation
            have hsaved := inlined_length_child label hchild
            rw [hbelow child hchild]
            exact topDown_isLine (hleaves child hchild) (by omega)
          · exact (inlined_unbroken_iff (hlabels.child hchild)).mpr (hleaves child hchild)
      have hnonempty : ¬ children.isEmpty = true := by simpa using hchildren
      rw [fit_node_plain hchildren hlabels.label, topDown, topDownAll_eq_map, if_neg hnonempty,
        List.map_congr_left hbelow]
      exact ite_congr (propext hsame) (fun _ => rfl) (fun _ => rfl)

/-- Inline if it fits, break otherwise: with at most three columns of
indentation per level, no node is broken whose inlined text has room at its
depth. -/
theorem layoutAt_eq_topDown (tree : Tree) (style : Style) (column : Nat)
    (hlabels : tree.HasPlainLabels) (hindent : style.indent ≤ 3) :
    tree.layoutAt style column =
      tree.topDown style.indent style.width (style.width - column) :=
  fit_eq_topDown hindent hlabels (Nat.sub_le _ _)

/-- A root past the width, a leaf of two lines, and a node that just fits. -/
theorem layoutAt_eq_topDown_past_width :
    (node "op" [node "add" [leaf "1", leaf "2"], node "e" [], leaf "p\nq"]).layoutAt
        { width := 12, indent := 3 } 20 =
      .block "op" [.line "(add 1 2)", .line "(e)", .line "p\nq"] := by
  rw [layoutAt_eq_topDown _ _ _ (by decide) (by decide)]
  rfl

end TreeSchema.Render.Tree
