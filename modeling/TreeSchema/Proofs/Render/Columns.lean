import TreeSchema.Proofs.Render.Lines

/-!
Where collapsed nodes end. Every node with children takes up one stretch of
the written text. The budget of a node at a depth is the width less the
indentation of that depth, and the root pays for the columns in use, so a
stretch without a line break ends within the width. What passes the width is a
single piece that no layout could have broken.
-/

namespace TreeSchema.Render

/-- The stretch of a text that a node takes up. -/
structure Stretch where
  node : Tree
  before : String
  text : String

/-- The stretch is found inside `text`, which is written after `before`. A
stretch on one line is the inlined text of its node. -/
def Stretch.LiesIn (stretch : Stretch) (before text : String) : Prop :=
  ('\n' ∉ stretch.text.toList → stretch.text = stretch.node.inlined) ∧
    ∃ lead rest, stretch.before = before ++ lead ∧ text = lead ++ stretch.text ++ rest

theorem Stretch.LiesIn.embed {stretch : Stretch} {before lead text : String}
    (h : stretch.LiesIn (before ++ lead) text) (rest : String) :
    stretch.LiesIn before (lead ++ text ++ rest) := by
  obtain ⟨hinlined, inner, after, hbefore, rfl⟩ := h
  refine ⟨hinlined, lead ++ inner, after ++ rest, ?_, ?_⟩
  · rw [hbefore, String.append_assoc]
  · simp only [String.append_assoc]

namespace Tree

mutual

/-- The stretches of the nodes with children, for a tree written on one line
after `before`. -/
def inlineStretches : Tree → (before : String) → List Stretch
  | .leaf _, _ => []
  | .node label children, before =>
      if children.isEmpty then []
      else
        ⟨.node label children, before, (node label children).inlined⟩ ::
          inlineStretchesOfAll children (before ++ "(" ++ label)

def inlineStretchesOfAll : List Tree → (before : String) → List Stretch
  | [], _ => []
  | child :: rest, before =>
      inlineStretches child (before ++ " ") ++
        inlineStretchesOfAll rest (before ++ " " ++ child.inlined)

end

end Tree

namespace Layout

mutual

/-- The stretches of the nodes with children, for a tree written in a layout
after `before`, which ends with the indentation of the first line. -/
def stretches (step indent : Nat) : Layout → Tree → (before : String) → List Stretch
  | .line _, tree, before => tree.inlineStretches before
  | .block label laid, .node name children, before =>
      ⟨.node name children, before, (Layout.block label laid).body step indent⟩ ::
        stretchesOfAll step (indent + step) laid children (before ++ "(" ++ label)
  | .block .., .leaf _, _ => []

def stretchesOfAll (step indent : Nat) : List Layout → List Tree → (before : String) →
    List Stretch
  | first :: rest, child :: others, before =>
      stretches step indent first child (before ++ "\n" ++ spaces indent) ++
        stretchesOfAll step indent rest others
          (before ++ "\n" ++ spaces indent ++ first.body step indent)
  | _, _, _ => []

end

end Layout

namespace Tree

mutual

/-- Each node with children has one stretch, in the order of the nodes. -/
theorem inlineStretches_nodes : ∀ (tree : Tree) (before : String),
    (tree.inlineStretches before).map Stretch.node = tree.subtrees.filter isInner
  | .leaf text, before => rfl
  | .node label children, before => by
      cases children with
      | nil => rfl
      | cons child rest =>
          have hbelow := inlineStretchesOfAll_nodes (child :: rest) (before ++ "(" ++ label)
          simp [inlineStretches, subtrees, isInner, hbelow]

theorem inlineStretchesOfAll_nodes : ∀ (children : List Tree) (before : String),
    (inlineStretchesOfAll children before).map Stretch.node =
      (subtreesOfAll children).filter isInner
  | [], before => rfl
  | child :: rest, before => by
      simp only [inlineStretchesOfAll, subtreesOfAll, List.map_append, List.filter_append,
        inlineStretches_nodes child, inlineStretchesOfAll_nodes rest]

end

mutual

theorem inlineStretches_lie : ∀ (tree : Tree) (before : String) (stretch : Stretch),
    stretch ∈ tree.inlineStretches before → stretch.LiesIn before tree.inlined
  | .leaf text, before, stretch, hmem => by cases hmem
  | .node label children, before, stretch, hmem => by
      rw [inlineStretches] at hmem
      split at hmem
      · cases hmem
      · rcases List.mem_cons.mp hmem with rfl | hbelow
        · exact ⟨fun _ => rfl, "", "", by simp, by simp⟩
        · have hlies := inlineStretchesOfAll_lie children _ stretch hbelow
          rw [String.append_assoc] at hlies
          exact hlies.embed ")"

theorem inlineStretchesOfAll_lie : ∀ (children : List Tree) (before : String)
    (stretch : Stretch), stretch ∈ inlineStretchesOfAll children before →
      stretch.LiesIn before (spaced (inlinedAll children))
  | [], before, stretch, hmem => by cases hmem
  | child :: rest, before, stretch, hmem => by
      rw [inlineStretchesOfAll] at hmem
      rw [inlinedAll, spaced_cons]
      rcases List.mem_append.mp hmem with hfirst | hlater
      · exact (inlineStretches_lie child _ stretch hfirst).embed _
      · have hlies := inlineStretchesOfAll_lie rest _ stretch hlater
        simp only [String.append_assoc] at hlies
        simpa only [String.append_assoc, String.append_empty] using hlies.embed ""

end

end Tree

namespace Layout

mutual

theorem stretches_nodes (step : Nat) : ∀ (indent : Nat) (layout : Layout) (tree : Tree)
    (before : String), layout.Shows tree →
      (layout.stretches step indent tree before).map Stretch.node =
        tree.subtrees.filter Tree.isInner
  | indent, .line text, tree, before, _ => tree.inlineStretches_nodes before
  | indent, .block label laid, .leaf text, before, hshows => hshows.elim
  | indent, .block label laid, .node name children, before, hshows => by
      obtain ⟨-, hchildren, hall⟩ := hshows
      have hinner : (Tree.node name children).isInner = true := by
        simpa [Tree.isInner] using hchildren
      rw [stretches, List.map_cons, stretchesOfAll_nodes step _ laid children _ hall,
        Tree.subtrees, List.filter_cons_of_pos hinner]

theorem stretchesOfAll_nodes (step : Nat) : ∀ (indent : Nat) (laid : List Layout)
    (children : List Tree) (before : String), ShowsAll laid children →
      (stretchesOfAll step indent laid children before).map Stretch.node =
        (Tree.subtreesOfAll children).filter Tree.isInner
  | indent, [], [], before, _ => rfl
  | indent, [], _ :: _, before, hall => hall.elim
  | indent, _ :: _, [], before, hall => hall.elim
  | indent, first :: rest, child :: others, before, hall => by
      simp only [stretchesOfAll, Tree.subtreesOfAll, List.map_append, List.filter_append,
        stretches_nodes step indent first child _ hall.1,
        stretchesOfAll_nodes step indent rest others _ hall.2]

end

mutual

theorem stretches_lie (step : Nat) : ∀ (indent : Nat) (layout : Layout) (tree : Tree)
    (before : String) (stretch : Stretch), layout.Shows tree →
      stretch ∈ layout.stretches step indent tree before →
      stretch.LiesIn before (layout.body step indent)
  | indent, .line text, tree, before, stretch, hshows, hmem => by
      rw [body, show text = tree.inlined from hshows]
      exact tree.inlineStretches_lie before stretch hmem
  | indent, .block label laid, .leaf text, before, stretch, hshows, _ => hshows.elim
  | indent, .block label laid, .node name children, before, stretch, hshows, hmem => by
      obtain ⟨-, -, hall⟩ := hshows
      rcases List.mem_cons.mp hmem with rfl | hbelow
      · exact ⟨fun h => absurd (by simp [body]) h, "", "", by simp, by simp⟩
      · have hlies := stretchesOfAll_lie step _ laid children _ stretch hall hbelow
        rw [String.append_assoc] at hlies
        simpa only [body, String.append_assoc] using
          hlies.embed ("\n" ++ spaces indent ++ ")")

theorem stretchesOfAll_lie (step : Nat) : ∀ (indent : Nat) (laid : List Layout)
    (children : List Tree) (before : String) (stretch : Stretch), ShowsAll laid children →
      stretch ∈ stretchesOfAll step indent laid children before →
      stretch.LiesIn before (inside step indent laid)
  | indent, [], [], before, stretch, _, hmem => by cases hmem
  | indent, [], _ :: _, before, stretch, hall, _ => hall.elim
  | indent, _ :: _, [], before, stretch, hall, _ => hall.elim
  | indent, first :: rest, child :: others, before, stretch, hall, hmem => by
      rw [stretchesOfAll] at hmem
      rw [inside]
      rcases List.mem_append.mp hmem with hfirst | hlater
      · have hlies := stretches_lie step indent first child _ stretch hall.1 hfirst
        rw [String.append_assoc] at hlies
        exact hlies.embed _
      · have hlies := stretchesOfAll_lie step indent rest others _ stretch hall.2 hlater
        simp only [String.append_assoc] at hlies
        simpa only [String.append_assoc, String.append_empty] using hlies.embed ""

end

end Layout

/-- In a text without line breaks no stretch ends after the text does. -/
theorem Stretch.LiesIn.column_le {stretch : Stretch} {before text : String}
    (h : stretch.LiesIn before text) (hunbroken : '\n' ∉ text.toList) (start : Nat) :
    columnAfter start (stretch.before ++ stretch.text) ≤ columnAfter start before + text.length := by
  obtain ⟨-, lead, rest, hbefore, rfl⟩ := h
  have hlead : '\n' ∉ (lead ++ stretch.text).toList := by
    intro hmem
    apply hunbroken
    rw [String.toList_append]
    exact List.mem_append_left _ hmem
  rw [hbefore, String.append_assoc, columnAfter_append, columnAfter_of_unbroken _ hlead,
    String.length_append (lead ++ stretch.text)]
  omega

theorem columnAfter_fresh (start : Nat) (before : String) (n : Nat) :
    columnAfter start (before ++ "\n" ++ spaces n) = n := by
  rw [columnAfter_append, columnAfter_append, columnAfter_of_unbroken _ (spaces_unbroken n)]
  simp [columnAfter, spaces]

theorem Layout.mem_stretchesOfAll {step indent : Nat} {lay : Tree → Layout}
    {children : List Tree} {before : String} {stretch : Stretch}
    (hmem : stretch ∈ stretchesOfAll step indent (children.map lay) children before) :
    ∃ child ∈ children, ∃ earlier,
      stretch ∈ (lay child).stretches step indent child (earlier ++ "\n" ++ spaces indent) := by
  induction children generalizing before with
  | nil => cases hmem
  | cons child rest ih =>
      rw [List.map_cons, stretchesOfAll] at hmem
      rcases List.mem_append.mp hmem with hfirst | hlater
      · exact ⟨child, List.mem_cons_self, before, hfirst⟩
      · obtain ⟨other, hother, earlier, hin⟩ := ih hlater
        exact ⟨other, List.mem_cons_of_mem _ hother, earlier, hin⟩

namespace Tree

/-- The budget invariant: what the first line may use is what the columns in
use leave of the width, and what the lines below may use is what the
indentation leaves of it. Each level of depth charges both the same. -/
theorem fit_stretch_column_le {step width start : Nat} {tree : Tree}
    (hlabels : tree.HasPlainLabels) {indent budget firstLine : Nat} {before : String}
    (hfirst : firstLine ≤ width - columnAfter start before) (hbudget : budget ≤ width - indent)
    {stretch : Stretch}
    (hmem : stretch ∈ (fit step tree budget firstLine).1.stretches step indent tree before)
    (hunbroken : '\n' ∉ stretch.text.toList) :
    columnAfter start (stretch.before ++ stretch.text) ≤ width := by
  induction tree generalizing indent budget firstLine before with
  | leaf text => cases hmem
  | node label children ih =>
      by_cases hchildren : children = []
      · subst hchildren
        cases hmem
      rw [fit_node_plain hchildren hlabels.label] at hmem
      split at hmem
      · rename_i hcollapsed
        obtain ⟨hlines, hfits⟩ := hcollapsed
        have hline : '\n' ∉ (node label children).inlined.toList :=
          (inlined_node_unbroken_iff hlabels.label).mpr fun child hchild =>
            (hlines child hchild).2
        have hends := (inlineStretches_lie _ before stretch hmem).column_le hline start
        -- a line is never empty, so no budget was cut off at zero
        have hpositive := inlined_node_pos label children
        omega
      · rcases List.mem_cons.mp hmem with rfl | hbelow
        · exact absurd (by simp [Layout.body]) hunbroken
        · obtain ⟨child, hchild, earlier, hin⟩ := Layout.mem_stretchesOfAll hbelow
          refine ih child hchild (hlabels.child hchild) ?_ ?_ hin
          · rw [columnAfter_fresh]
            omega
          · omega

end Tree

/-- What stands on a line as one piece under every layout of a tree: one line
of a leaf, a childless node, the opening of a block or its closing. -/
inductive Tree.Piece (tree : Tree) : List Char → Prop where
  | leaf {text : String} {part : List Char} :
      Tree.leaf text ∈ tree.subtrees → part ∈ physicalLines text → Piece tree part
  | childless {label : String} :
      Tree.node label [] ∈ tree.subtrees → Piece tree ("(" ++ label ++ ")").toList
  | opening {label : String} {children : List Tree} :
      Tree.node label children ∈ tree.subtrees → children ≠ [] →
      Piece tree ("(" ++ label).toList
  | closing : Piece tree [')']

theorem Tree.Piece.of_child {label : String} {children : List Tree} {child : Tree}
    {piece : List Char} (hchild : child ∈ children) (h : child.Piece piece) :
    (Tree.node label children).Piece piece := by
  cases h with
  | leaf hleaf hpart => exact .leaf (mem_subtrees_of_child hchild hleaf) hpart
  | childless hnode => exact .childless (mem_subtrees_of_child hchild hnode)
  | opening hnode hchildren => exact .opening (mem_subtrees_of_child hchild hnode) hchildren
  | closing => exact .closing

/-- A line of one piece, behind the indentation of some depth. -/
def Tree.IsPieceLine (step : Nat) (tree : Tree) (line : List Char) : Prop :=
  ∃ depth piece, line = List.replicate (depth * step) ' ' ++ piece ∧ tree.Piece piece

namespace Tree

theorem IsPieceLine.of_child {step : Nat} {label : String} {children : List Tree} {child : Tree}
    {line : List Char} (hchild : child ∈ children) (h : child.IsPieceLine step line) :
    (node label children).IsPieceLine step line := by
  obtain ⟨depth, piece, hshape, hpiece⟩ := h
  exact ⟨depth, piece, hshape, hpiece.of_child hchild⟩

theorem isPieceLine_leaf {step depth : Nat} {text : String} {line : List Char}
    (hmem : line ∈ physicalLines (spaces (depth * step) ++ text)) :
    (leaf text).IsPieceLine step line := by
  obtain ⟨part, hpart, hshape⟩ := mem_physicalLines_lead (spaces_unbroken _) hmem
  have hpiece : (leaf text).Piece part := .leaf (mem_subtrees_self _) hpart
  rcases hshape with rfl | rfl
  · exact ⟨depth, part, by simp [spaces], hpiece⟩
  · exact ⟨0, line, by simp, hpiece⟩

theorem isPieceLine_childless {step depth : Nat} {label : String} {line : List Char}
    (hlabel : '\n' ∉ label.toList)
    (hmem : line ∈ physicalLines (spaces (depth * step) ++ ("(" ++ label ++ ")"))) :
    (node label []).IsPieceLine step line := by
  have hunbroken : '\n' ∉ (spaces (depth * step) ++ ("(" ++ label ++ ")")).toList := by
    simp [spaces_unbroken, hlabel]
  rw [physicalLines_unbroken hunbroken, List.mem_singleton] at hmem
  refine ⟨depth, ("(" ++ label ++ ")").toList, ?_, .childless (mem_subtrees_self _)⟩
  rw [hmem, String.toList_append, spaces, String.toList_ofList]

/-- A collapsed node that fits stands on one line, which is not too wide. -/
theorem collapsed_line_le {width offset indent firstLine : Nat} {label : String}
    {children : List Tree} (hfirst : firstLine ≤ width - (offset + indent))
    (hunbroken : '\n' ∉ (node label children).inlined.toList)
    (hfits : (node label children).inlined.length ≤ firstLine) {i : Nat} {line : List Char}
    (hline : (physicalLines (spaces indent ++ (node label children).inlined))[i]? = some line) :
    (if i = 0 then offset else 0) + line.length ≤ width := by
  have hindented : '\n' ∉ (spaces indent ++ (node label children).inlined).toList := by
    rw [String.toList_append, List.mem_append, not_or]
    exact ⟨spaces_unbroken _, hunbroken⟩
  rw [physicalLines_unbroken hindented] at hline
  cases i with
  | zero =>
      obtain rfl := Option.some.inj hline
      have hpositive := inlined_node_pos label children
      simp only [String.length_toList, String.length_append, spaces_length, if_true]
      omega
  | succ i => cases hline

/-- The same budget invariant, told of the lines: at a depth the first line
starts after `offset` columns and the indentation of that depth. -/
theorem fit_wide_line {step width : Nat} {tree : Tree} (hlabels : tree.HasPlainLabels)
    {depth offset budget firstLine : Nat}
    (hfirst : firstLine ≤ width - (offset + depth * step))
    (hbudget : budget ≤ width - depth * step) {i : Nat} {line : List Char}
    (hline : (physicalLines (spaces (depth * step) ++
      (fit step tree budget firstLine).1.body step (depth * step)))[i]? = some line)
    (hwide : width < (if i = 0 then offset else 0) + line.length) :
    tree.IsPieceLine step line := by
  induction tree generalizing depth offset budget firstLine i with
  | leaf text => exact isPieceLine_leaf (List.mem_of_getElem? hline)
  | node label children ih =>
      by_cases hchildren : children = []
      · subst hchildren
        exact isPieceLine_childless hlabels.label (List.mem_of_getElem? hline)
      rw [fit_node_plain hchildren hlabels.label] at hline
      split at hline
      · rename_i hcollapsed
        obtain ⟨hlines, hfits⟩ := hcollapsed
        have hunbroken : '\n' ∉ (node label children).inlined.toList :=
          (inlined_node_unbroken_iff hlabels.label).mpr fun child hchild =>
            (hlines child hchild).2
        exact absurd hwide (Nat.not_lt_of_le (collapsed_line_le hfirst hunbroken hfits hline))
      · rw [Layout.physicalLines_block hlabels.label, List.cons_append] at hline
        cases i with
        | zero =>
            refine ⟨depth, ("(" ++ label).toList, ?_, .opening (mem_subtrees_self _) hchildren⟩
            simpa [spaces] using hline.symm
        | succ i =>
            rcases List.mem_append.mp (List.mem_of_getElem? hline) with hmiddle | hlast
            · obtain ⟨laid, hlaid, hin⟩ := List.mem_flatMap.mp hmiddle
              obtain ⟨child, hchild, rfl⟩ := List.mem_map.mp hlaid
              obtain ⟨j, hj⟩ := List.mem_iff_getElem?.mp hin
              have hdeeper : depth * step + step = (depth + 1) * step :=
                (Nat.succ_mul depth step).symm
              rw [hdeeper] at hj
              have hroom : budget - step ≤ width - (0 + (depth + 1) * step) := by omega
              have hroomBelow : budget - step ≤ width - (depth + 1) * step := by omega
              have hwideBelow : width < (if j = 0 then 0 else 0) + line.length := by
                simpa using hwide
              have hbelow : child.IsPieceLine step line :=
                ih child hchild (hlabels.child hchild) hroom hroomBelow hj hwideBelow
              exact hbelow.of_child hchild
            · refine ⟨depth, [')'], ?_, .closing⟩
              rw [List.mem_singleton] at hlast
              simpa [spaces] using hlast

end Tree

/-- No collapsed node ends past the width, at any depth and from any column
that the page has reached: each node with children has one stretch of the text
that is written, and a stretch on one line ends within the width. A line that
passes the width is a single piece behind its indentation. -/
theorem Page.writeTree_collapsed_within_width (page : Page) (style : Style) (tree : Tree)
    (hlabels : tree.HasPlainLabels) :
    let layout := tree.layoutAt style page.column
    let text := layout.body style.indent 0
    let stretches := layout.stretches style.indent 0 tree ""
    page.writeTree style tree = page.write text ∧
      stretches.map Stretch.node = tree.subtrees.filter Tree.isInner ∧
      (∀ stretch ∈ stretches,
        (∃ rest, text = stretch.before ++ stretch.text ++ rest) ∧
        ('\n' ∉ stretch.text.toList → stretch.text = stretch.node.inlined ∧
          columnAfter page.column (stretch.before ++ stretch.text) ≤ style.width)) ∧
      ∀ i line, (physicalLines text)[i]? = some line →
        style.width < (if i = 0 then page.column else 0) + line.length →
        tree.IsPieceLine style.indent line := by
  intro layout text stretches
  have hshows : layout.Shows tree := tree.layoutAt_shows style page.column
  refine ⟨page.writeTree_eq_write style tree, ?_, ?_, ?_⟩
  · exact Layout.stretches_nodes style.indent 0 layout tree "" hshows
  · intro stretch hmem
    obtain ⟨hinlined, lead, rest, hbefore, htext⟩ :=
      Layout.stretches_lie style.indent 0 layout tree "" stretch hshows hmem
    rw [String.empty_append] at hbefore
    refine ⟨⟨rest, hbefore ▸ htext⟩, fun hunbroken => ⟨hinlined hunbroken, ?_⟩⟩
    refine Tree.fit_stretch_column_le hlabels ?_ ?_ hmem hunbroken
    · exact Nat.le_of_eq (by rw [columnAfter_empty])
    · exact Nat.le_refl _
  · intro i line hline hwide
    have hroom : style.width - page.column ≤ style.width - (page.column + 0 * style.indent) := by
      omega
    have hroomBelow : style.width ≤ style.width - 0 * style.indent := by omega
    refine Tree.fit_wide_line hlabels hroom hroomBelow ?_ hwide
    rw [Nat.zero_mul, show spaces 0 = "" from rfl, String.empty_append]
    exact hline

/-- A page continued at its fourth column: of the two nodes with children, the
one on a line by itself just fits. -/
theorem Page.writeTree_collapsed_within_eleven :
    let inner := Tree.node "add" [.leaf "1", .leaf "2"]
    let tree := Tree.node "op" [inner, .leaf "overlong leaf"]
    let stretches := (tree.layoutAt { width := 11 } 4).stretches 2 0 tree ""
    tree.HasPlainLabels ∧ stretches.map Stretch.node = [tree, inner] ∧
      ∀ stretch ∈ stretches, '\n' ∉ stretch.text.toList →
        columnAfter 4 (stretch.before ++ stretch.text) ≤ 11 := by
  intro inner tree stretches
  have hlabels : tree.HasPlainLabels := by decide
  obtain ⟨-, hnodes, hends, -⟩ :=
    Page.writeTree_collapsed_within_width ⟨"x :=", 4⟩ { width := 11 } tree hlabels
  refine ⟨hlabels, hnodes.trans rfl, ?_⟩
  intro stretch hmem hline
  exact ((hends stretch hmem).2 hline).2

end TreeSchema.Render
