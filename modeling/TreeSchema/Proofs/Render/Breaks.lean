import TreeSchema.Proofs.Render.Paths

/-!
Line breaks in labels and leaves. An attempt at a single line looks for a break
in the lines of the children. These hold every label and every leaf below the
node, so a break anywhere below makes a block of the node. The label of the node
itself is written without such a look: a node whose label spans lines may come
out as a line, with the breaks of its label in it, and only the node above
notices.
-/

namespace TreeSchema.Render

theorem newline_mem_spaced_iff {texts : List String} :
    '\n' ∈ (spaced texts).toList ↔ ∃ text ∈ texts, '\n' ∈ text.toList := by
  induction texts with
  | nil => simp
  | cons text rest ih => simp [← ih]

theorem newline_mem_joined_iff {label : String} {texts : List String} :
    '\n' ∈ (joined label texts).toList ↔
      '\n' ∈ label.toList ∨ ∃ text ∈ texts, '\n' ∈ text.toList := by
  rw [← newline_mem_spaced_iff]
  simp [joined]

/-- A break starts a new line, so it never takes text further to the right. -/
theorem columnAfter_le (column : Nat) (text : String) :
    columnAfter column text ≤ column + text.length := by
  rw [columnAfter, String.foldl_eq_foldl_toList, ← String.length_toList]
  generalize text.toList = characters
  induction characters generalizing column with
  | nil => exact Nat.le_refl _
  | cons c rest ih =>
      rw [List.foldl_cons, List.length_cons]
      split
      case isTrue =>
        have hrest := ih 0
        omega
      case isFalse =>
        have hrest := ih (column + 1)
        omega

namespace Tree

/-- Some label or leaf of the tree spans lines. -/
def HasBreak (tree : Tree) : Prop :=
  ∃ text ∈ tree.labels ++ tree.leaves, '\n' ∈ text.toList

instance (tree : Tree) : Decidable tree.HasBreak :=
  inferInstanceAs (Decidable (∃ text ∈ tree.labels ++ tree.leaves, '\n' ∈ text.toList))

theorem hasBreak_leaf {text : String} : (leaf text).HasBreak ↔ '\n' ∈ text.toList := by
  have htexts : (leaf text).labels ++ (leaf text).leaves = [text] := rfl
  rw [HasBreak, htexts]
  simp

theorem hasBreak_node {label : String} {children : List Tree} :
    (node label children).HasBreak ↔
      '\n' ∈ label.toList ∨ ∃ child ∈ children, child.HasBreak := by
  simp only [HasBreak, labels_node, leaves_node, List.mem_append, List.mem_cons,
    List.mem_flatMap]
  constructor
  · rintro ⟨text, (rfl | ⟨child, hchild, htext⟩) | ⟨child, hchild, htext⟩, hbreak⟩
    · exact .inl hbreak
    · exact .inr ⟨child, hchild, text, .inl htext, hbreak⟩
    · exact .inr ⟨child, hchild, text, .inr htext, hbreak⟩
  · rintro (hbreak | ⟨child, hchild, text, htext | htext, hbreak⟩)
    · exact ⟨label, .inl (.inl rfl), hbreak⟩
    · exact ⟨text, .inl (.inr ⟨child, hchild, htext⟩), hbreak⟩
    · exact ⟨text, .inr ⟨child, hchild, htext⟩, hbreak⟩

/-- No break of a label or a leaf is lost in the inlined text, and none is added. -/
theorem newline_mem_inlined_iff {tree : Tree} : '\n' ∈ tree.inlined.toList ↔ tree.HasBreak := by
  induction tree with
  | leaf text => rw [hasBreak_leaf, inlined]
  | node label children ih =>
      rw [hasBreak_node, inlined_node, newline_mem_joined_iff]
      apply or_congr_right
      constructor
      · rintro ⟨text, htext, hbreak⟩
        obtain ⟨child, hchild, rfl⟩ := List.mem_map.mp htext
        exact ⟨child, hchild, (ih child hchild).mp hbreak⟩
      · rintro ⟨child, hchild, hbreak⟩
        exact ⟨child.inlined, List.mem_map_of_mem hchild, (ih child hchild).mpr hbreak⟩

/-- A node with children that takes one line has no break below it. -/
theorem fit_line_unbroken_below {indent budget firstLine : Nat} {label line : String}
    {children : List Tree} (hchildren : children ≠ [])
    (hline : (fit indent (node label children) budget firstLine).1 = .line line) :
    ∀ child ∈ children, ¬ child.HasBreak := by
  rcases fit_node_cases hchildren budget firstLine with ⟨text, -, -, hattempt⟩ | ⟨hblock, -⟩
  · obtain ⟨texts, hlaid, hunbroken, -⟩ := Layout.singleLine?_eq_some_iff.mp hattempt
    obtain ⟨rfl, -⟩ := laidWithin_eq_lines_iff.mp hlaid
    intro child hchild hbreak
    apply hunbroken child.inlined (List.mem_map_of_mem hchild)
    exact newline_mem_inlined_iff.mpr hbreak
  · rw [hline] at hblock
    cases hblock

/-- The break of a child makes a block, however much room there is. -/
theorem fit_eq_block {indent : Nat} {label : String} {children : List Tree} {child : Tree}
    (hchild : child ∈ children) (hbreak : child.HasBreak) (budget firstLine : Nat) :
    (fit indent (node label children) budget firstLine).1 =
      .block label (children.map (laidWithin indent (budget - indent))) := by
  have hchildren : children ≠ [] := List.ne_nil_of_mem hchild
  rcases fit_node_cases hchildren budget firstLine with ⟨line, hline, -⟩ | ⟨hblock, -⟩
  · exact absurd hbreak (fit_line_unbroken_below hchildren hline child hchild)
  · exact hblock

/-- A node is a line when its children are lines without breaks and it fits. Its
label may be any. -/
theorem fit_eq_line {indent budget firstLine : Nat} {label : String} {children : List Tree}
    (hchildren : children ≠ [])
    (hlines : ∀ child ∈ children, (laidWithin indent (budget - indent) child).isLine = true)
    (hunbroken : ∀ child ∈ children, ¬ child.HasBreak)
    (hfits : (node label children).inlined.length ≤ firstLine) :
    (fit indent (node label children) budget firstLine).1 =
      .line (node label children).inlined := by
  have hcolumn : columnAfter 0 (node label children).inlined ≤ firstLine := by
    have hbound := columnAfter_le 0 (node label children).inlined
    omega
  have hflat : (node label children).flatWidth ≤ firstLine :=
    Nat.le_trans (flatWidth_le_inlined _) hfits
  have hattempt : Layout.singleLine? label (children.map (laidWithin indent (budget - indent)))
      firstLine = some (node label children).inlined := by
    refine Layout.singleLine?_eq_some_iff.mpr
      ⟨children.map inlined, laidWithin_eq_lines_iff.mpr ⟨rfl, hlines⟩, ?_, inlined_node _ _, hcolumn⟩
    intro text htext hbreak
    obtain ⟨child, hchild, rfl⟩ := List.mem_map.mp htext
    exact hunbroken child hchild (newline_mem_inlined_iff.mp hbreak)
  rcases fit_node_cases hchildren budget firstLine with ⟨line, hline, -⟩ | ⟨-, hnone⟩
  · rw [hline, fit_line hline]
  · rw [hnone hflat] at hattempt
    cases hattempt

/-- A node with children is a block when there is a break below it; when it is a
line, only its label can break that line. -/
theorem fit_breaks {indent : Nat} {label : String} {children : List Tree}
    (hchildren : children ≠ []) (budget firstLine : Nat) :
    let laid := (fit indent (node label children) budget firstLine).1
    ((∃ child ∈ children, child.HasBreak) → ∃ below, laid = .block label below) ∧
      ∀ line, laid = .line line → ('\n' ∈ line.toList ↔ '\n' ∈ label.toList) := by
  intro laid
  constructor
  · rintro ⟨child, hchild, hbreak⟩
    exact ⟨_, fit_eq_block hchild hbreak budget firstLine⟩
  · intro line hline
    have hbelow := fit_line_unbroken_below hchildren hline
    have hnone : ¬ ∃ child ∈ children, child.HasBreak :=
      fun ⟨child, hchild, hbreak⟩ => hbelow child hchild hbreak
    rw [fit_line hline, newline_mem_inlined_iff, hasBreak_node, or_iff_left hnone]

/-- What a path leads to in a layout is the layout of what it leads to in the
tree, with the columns left there. -/
theorem exists_fit_of_at? {indent budget firstLine : Nat} {tree : Tree} {path : List Nat}
    {part : Layout} (hpart : (fit indent tree budget firstLine).1.at? path = some part)
    {found : Tree} (hfound : tree.at? path = some found) :
    ∃ room first, part = (fit indent found room first).1 := by
  induction path generalizing tree budget firstLine with
  | nil =>
      rw [Layout.at?_nil] at hpart
      rw [at?_nil] at hfound
      obtain rfl := Option.some.inj hpart
      obtain rfl := Option.some.inj hfound
      exact ⟨budget, firstLine, rfl⟩
  | cons position path ih =>
      cases tree with
      | leaf text => cases hfound
      | node label children =>
          obtain ⟨child, hchild, hbelow⟩ := Option.bind_eq_some_iff.mp hfound
          have hchildren : children ≠ [] := List.ne_nil_of_mem (List.mem_of_getElem? hchild)
          rcases fit_node_cases hchildren budget firstLine with ⟨line, hline, -⟩ | ⟨hblock, -⟩
          · rw [hline] at hpart
            cases hpart
          · rw [hblock, Layout.at?_block_cons, List.getElem?_map, hchild] at hpart
            exact ih hpart hbelow

/-- A node with children is laid out as a block as soon as a label or a leaf below
it has a line break, at any depth. Its own label does not count: a line has just
the breaks of the label of its node. The same holds of every node with children
that the layout shows. -/
theorem layoutAt_breaks {label : String} {children : List Tree} (hchildren : children ≠ [])
    (style : Style) (column : Nat) :
    let tree := node label children
    let layout := tree.layoutAt style column
    ((∃ child ∈ children, child.HasBreak) → ∃ laid, layout = .block label laid) ∧
      (∀ line, layout = .line line → ('\n' ∈ line.toList ↔ '\n' ∈ label.toList)) ∧
      ∀ path name below part, tree.at? path = some (node name below) → below ≠ [] →
        layout.at? path = some part →
          ((∃ child ∈ below, child.HasBreak) → ∃ laid, part = .block name laid) ∧
            ∀ line, part = .line line → ('\n' ∈ line.toList ↔ '\n' ∈ name.toList) := by
  intro tree layout
  obtain ⟨hblock, hline⟩ := @fit_breaks style.indent label children hchildren style.width
    (style.width - column)
  refine ⟨hblock, hline, ?_⟩
  intro path name below part hnode hbelow hpart
  obtain ⟨room, first, rfl⟩ := exists_fit_of_at? hpart hnode
  exact fit_breaks hbelow room first

/-- A label of two lines: its own node is a line, and the two nodes above it are
blocks although all would fit. -/
theorem layoutAt_breaks_two_levels_up :
    let inner := node "x\ny" [leaf "1"]
    let tree := node "f" [node "g" [inner]]
    let layout := tree.layoutAt {} 0
    (∃ laid, layout = .block "f" laid) ∧
      layout.at? [0] = some (.block "g" [.line "(x\ny 1)"]) ∧
      layout.at? [0, 0] = some (.line "(x\ny 1)") ∧ '\n' ∈ "(x\ny 1)".toList := by
  intro inner tree layout
  have hinner : inner.HasBreak := hasBreak_node.mpr (.inl (by decide))
  have hbreak : (node "g" [inner]).HasBreak :=
    hasBreak_node.mpr (.inr ⟨inner, List.mem_cons_self, hinner⟩)
  have hchildren : [node "g" [inner]] ≠ [] := List.cons_ne_nil _ _
  obtain ⟨hblock, -, hnodes⟩ := @layoutAt_breaks "f" _ hchildren {} 0
  have hlaid : laidWithin 2 76 inner = .line "(x\ny 1)" :=
    fit_eq_line (List.cons_ne_nil _ _) (by decide) (by decide) (by decide)
  have hlayout : layout = .block "f" [.block "g" [.line "(x\ny 1)"]] := by
    rw [← hlaid]
    refine (fit_eq_block List.mem_cons_self hbreak 80 80).trans ?_
    rw [List.map_singleton, laidWithin, fit_eq_block List.mem_cons_self hinner]
    rfl
  have hline : layout.at? [0, 0] = some (.line "(x\ny 1)") := by
    rw [hlayout]
    rfl
  obtain ⟨-, hlabel⟩ := hnodes [0, 0] "x\ny" [leaf "1"] _ rfl (List.cons_ne_nil _ _) hline
  refine ⟨hblock ⟨_, List.mem_cons_self, hbreak⟩, ?_, hline, (hlabel _ rfl).mpr (by decide)⟩
  rw [hlayout]
  rfl

/-- The label of the root is not looked at: a node with a child whose own label
spans lines is laid out as a line, and that line spans lines. -/
theorem label_break_in_line :
    let tree := node "a\nb" [leaf "c"]
    tree.layoutAt {} 0 = .line "(a\nb c)" ∧ '\n' ∈ "a\nb".toList ∧ '\n' ∈ "(a\nb c)".toList := by
  have hline : ((node "a\nb" [leaf "c"]).layoutAt {} 0) = .line "(a\nb c)" :=
    fit_eq_line (List.cons_ne_nil _ _) (by decide) (by decide) (by decide)
  exact ⟨hline, by decide, by decide⟩

end Tree

end TreeSchema.Render
