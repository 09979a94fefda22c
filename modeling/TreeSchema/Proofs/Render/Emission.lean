import TreeSchema.Proofs.Render.Collapse

/-!
What a layout writes. Writing a layout to a page appends a text that depends
on the layout and the indentation alone. The layouts that come from fitting
show their tree: every line is the inlined text of the tree in its place, and
every block has the label and the children of its node.
-/

namespace TreeSchema.Render

namespace Layout

mutual

/-- The text of a layout after the indentation of its first line. -/
def body (step indent : Nat) : Layout → String
  | .line text => text
  | .block label children =>
      "(" ++ label ++ inside step (indent + step) children ++ "\n" ++ spaces indent ++ ")"

/-- The lines of a block between the label and the closing parenthesis. -/
def inside (step indent : Nat) : List Layout → String
  | [] => ""
  | child :: rest =>
      "\n" ++ spaces indent ++ body step indent child ++ inside step indent rest

end

mutual

theorem writeLayout_eq_write (step : Nat) :
    ∀ (indent : Nat) (layout : Layout) (page : Page),
      page.writeLayout step indent layout =
        page.write (spaces indent ++ layout.body step indent)
  | indent, .line text, page => by
      simp only [Page.writeLayout, Page.indent_eq_write, Page.write_write, body]
  | indent, .block label children, page => by
      simp only [Page.writeLayout, Page.indent_eq_write, Page.newline_eq_write,
        writeLines_eq_write step (indent + step) children, Page.write_write, body,
        String.append_assoc]

theorem writeLines_eq_write (step : Nat) :
    ∀ (indent : Nat) (laid : List Layout) (page : Page),
      page.writeLines step indent laid = page.write (inside step indent laid)
  | indent, [], page => by
      simp only [Page.writeLines, inside, Page.write_empty]
  | indent, child :: rest, page => by
      simp only [Page.writeLines, Page.newline_eq_write, Page.write_write,
        writeLayout_eq_write step indent child, writeLines_eq_write step indent rest, inside,
        String.append_assoc]

end

/-- The text of a layout on a fresh page. -/
theorem writeLayout_empty_text (step indent : Nat) (layout : Layout) :
    (Page.empty.writeLayout step indent layout).text = spaces indent ++ layout.body step indent := by
  rw [writeLayout_eq_write]
  exact String.empty_append

mutual

/-- The layout is one of the ways to write the tree. -/
def Shows : Layout → Tree → Prop
  | .line text, tree => text = tree.inlined
  | .block label laid, .node name children =>
      label = name ∧ children ≠ [] ∧ ShowsAll laid children
  | .block .., .leaf _ => False

def ShowsAll : List Layout → List Tree → Prop
  | [], [] => True
  | first :: rest, child :: others => Shows first child ∧ ShowsAll rest others
  | _, _ => False

end

theorem showsAll_map {lay : Tree → Layout} {children : List Tree}
    (hshows : ∀ child ∈ children, (lay child).Shows child) :
    ShowsAll (children.map lay) children := by
  induction children with
  | nil => trivial
  | cons child rest ih =>
      obtain ⟨hchild, hrest⟩ := List.forall_mem_cons.mp hshows
      exact ⟨hchild, ih hrest⟩

end Layout

namespace Tree

theorem fit_shows (indent : Nat) (tree : Tree) (budget firstLine : Nat) :
    (fit indent tree budget firstLine).1.Shows tree := by
  induction tree generalizing budget firstLine with
  | leaf text => exact rfl
  | node label children ih =>
      by_cases hchildren : children = []
      · subst hchildren
        exact (inlined_childless label).symm
      rcases fit_node_cases hchildren budget firstLine with ⟨line, hfit, -⟩ | ⟨hfit, -⟩
      · rw [hfit]
        exact fit_line hfit
      · rw [hfit]
        exact ⟨rfl, hchildren, Layout.showsAll_map fun child hchild => ih child hchild _ _⟩

theorem layoutAt_shows (tree : Tree) (style : Style) (column : Nat) :
    (tree.layoutAt style column).Shows tree :=
  fit_shows style.indent tree style.width (style.width - column)

end Tree

namespace Page

theorem writeTree_eq_write (page : Page) (style : Style) (tree : Tree) :
    page.writeTree style tree =
      page.write ((tree.layoutAt style page.column).body style.indent 0) := by
  rw [writeTree, Layout.writeLayout_eq_write]
  exact congrArg page.write String.empty_append

end Page

theorem Tree.render_eq_body (tree : Tree) (style : Style) :
    tree.render style = (tree.layout style).body style.indent 0 := by
  rw [render, Page.writeTree_eq_write]
  exact String.empty_append

end TreeSchema.Render
