import TreeSchema.Proofs.Render.Emission

/-!
Layouts differ in blanks and line breaks alone. Without these, a line and a
block of the same tree spell the same text: the parentheses, labels and leaves
of the tree, depth first. What an attempt at a single line has written before
it was given up is in neither of them.
-/

namespace TreeSchema.Render

/-- A text without its blanks and line breaks. -/
def compact (text : String) : String :=
  String.ofList (text.toList.filter fun c => c ≠ ' ' ∧ c ≠ '\n')

theorem compact_append (left right : String) :
    compact (left ++ right) = compact left ++ compact right := by
  simp [compact, String.ofList_append]

theorem compact_newline : compact "\n" = "" := by
  simp [compact]

theorem compact_spaces (n : Nat) : compact (spaces n) = "" := by
  simp [compact, spaces]

theorem compact_blank : compact " " = "" :=
  compact_spaces 1

namespace Tree

mutual

/-- Parentheses, labels and leaf texts in their order, with nothing between
them. -/
def spelled : Tree → String
  | .leaf text => text
  | .node label children => "(" ++ label ++ spelledAll children ++ ")"

def spelledAll : List Tree → String
  | [] => ""
  | child :: rest => spelled child ++ spelledAll rest

end

mutual

theorem compact_inlined : ∀ tree : Tree, compact tree.inlined = compact tree.spelled
  | .leaf text => rfl
  | .node label children => by
      simp only [inlined, joined, spelled, compact_append, compact_spaced children]

theorem compact_spaced : ∀ children : List Tree,
    compact (spaced (inlinedAll children)) = compact (spelledAll children)
  | [] => rfl
  | child :: rest => by
      simp only [inlinedAll, spaced_cons, spelledAll, compact_append, compact_blank,
        compact_inlined child, compact_spaced rest, String.empty_append]

end

end Tree

namespace Layout

mutual

/-- Every layout of a tree spells the tree, line or block. -/
theorem Shows.compact_body (step : Nat) : ∀ (indent : Nat) (layout : Layout) (tree : Tree),
    layout.Shows tree → compact (layout.body step indent) = compact tree.spelled
  | indent, .line text, tree, hshows => by
      rw [body, show text = tree.inlined from hshows]
      exact tree.compact_inlined
  | indent, .block label laid, .leaf text, hshows => hshows.elim
  | indent, .block label laid, .node name children, hshows => by
      obtain ⟨rfl, -, hall⟩ := hshows
      have hinside := ShowsAll.compact_inside step (indent + step) laid children hall
      simp only [body, Tree.spelled, compact_append, hinside, compact_newline, compact_spaces,
        String.append_empty]

theorem ShowsAll.compact_inside (step : Nat) : ∀ (indent : Nat) (laid : List Layout)
    (children : List Tree), ShowsAll laid children →
      compact (inside step indent laid) = compact (Tree.spelledAll children)
  | indent, [], [], _ => rfl
  | indent, [], _ :: _, hall => hall.elim
  | indent, _ :: _, [], hall => hall.elim
  | indent, first :: rest, child :: others, hall => by
      have hfirst := Shows.compact_body step indent first child hall.1
      have hrest := ShowsAll.compact_inside step indent rest others hall.2
      simp only [inside, Tree.spelledAll, compact_append, hfirst, hrest, compact_newline,
        compact_spaces, String.empty_append]

end

end Layout

namespace Tree

/-- Whatever the style, the column that the layout is made for and the
indentation at which it is written, the written text spells the tree: any two
choices give texts that differ in blanks and line breaks alone. -/
theorem writeLayout_spells (tree : Tree) :
    (∀ (style : Style) (column step indent : Nat) (page : Page), ∃ text,
      page.writeLayout step indent (tree.layoutAt style column) = page.write text ∧
        compact text = compact tree.spelled) ∧
      ∀ (style other : Style) (column start indent shift : Nat),
        compact (Page.empty.writeLayout style.indent indent (tree.layoutAt style column)).text =
          compact (Page.empty.writeLayout other.indent shift (tree.layoutAt other start)).text := by
  have hbody (style : Style) (column step indent : Nat) :
      compact (spaces indent ++ (tree.layoutAt style column).body step indent) =
        compact tree.spelled := by
    have hshows : (tree.layoutAt style column).Shows tree := tree.layoutAt_shows style column
    rw [compact_append, compact_spaces, String.empty_append]
    exact hshows.compact_body step indent _ tree
  have hempty (style : Style) (column indent : Nat) :
      compact (Page.empty.writeLayout style.indent indent (tree.layoutAt style column)).text =
        compact tree.spelled := by
    rw [Layout.writeLayout_empty_text]
    exact hbody style column style.indent indent
  constructor
  · intro style column step indent page
    exact ⟨_, Layout.writeLayout_eq_write step indent _ page, hbody style column step indent⟩
  · intro style other column start indent shift
    rw [hempty style column indent, hempty other start shift]

end Tree

end TreeSchema.Render
