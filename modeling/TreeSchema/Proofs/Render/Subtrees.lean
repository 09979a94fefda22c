import TreeSchema.Render.Tree

/-!
Trees as data: induction over a node and its children at once, the list of
all subtrees, and the labels and leaf texts found among them.
-/

namespace TreeSchema.Render.Tree

@[elab_as_elim, induction_eliminator]
theorem induct {motive : Tree → Prop}
    (leaf : ∀ text, motive (.leaf text))
    (node : ∀ label children, (∀ child ∈ children, motive child) →
      motive (.node label children)) :
    ∀ tree, motive tree
  | .leaf text => leaf text
  | .node label children => node label children fun child _ => induct leaf node child

mutual

/-- The tree itself and every tree below it; a node stands before its
children. -/
def subtrees : Tree → List Tree
  | .leaf text => [.leaf text]
  | .node label children => .node label children :: subtreesOfAll children

def subtreesOfAll : List Tree → List Tree
  | [] => []
  | child :: rest => subtrees child ++ subtreesOfAll rest

end

theorem subtreesOfAll_eq_flatMap (children : List Tree) :
    subtreesOfAll children = children.flatMap subtrees := by
  induction children with
  | nil => rfl
  | cons child rest ih => simp only [subtreesOfAll, ih, List.flatMap_cons]

theorem mem_subtrees_self (tree : Tree) : tree ∈ tree.subtrees := by
  cases tree with
  | leaf text => simp [subtrees]
  | node label children => simp [subtrees]

theorem mem_subtrees_node {label : String} {children : List Tree} {tree : Tree} :
    tree ∈ (node label children).subtrees ↔
      tree = node label children ∨ ∃ child ∈ children, tree ∈ child.subtrees := by
  simp only [subtrees, subtreesOfAll_eq_flatMap, List.mem_cons, List.mem_flatMap]

theorem mem_subtrees_of_child {label : String} {children : List Tree} {child tree : Tree}
    (hchild : child ∈ children) (htree : tree ∈ child.subtrees) :
    tree ∈ (node label children).subtrees :=
  mem_subtrees_node.mpr (.inr ⟨child, hchild, htree⟩)

def label? : Tree → Option String
  | .leaf _ => none
  | .node label _ => some label

def text? : Tree → Option String
  | .leaf text => some text
  | .node .. => none

/-- Labels of all nodes of a tree. -/
def labels (tree : Tree) : List String := tree.subtrees.filterMap label?

/-- Texts of all leaves of a tree. -/
def leaves (tree : Tree) : List String := tree.subtrees.filterMap text?

theorem leaves_leaf (text : String) : (leaf text).leaves = [text] := rfl

theorem labels_node (label : String) (children : List Tree) :
    (node label children).labels = label :: children.flatMap labels := by
  simp only [labels, subtrees, subtreesOfAll_eq_flatMap, List.filterMap_cons, label?,
    List.filterMap_flatMap]
  rfl

theorem leaves_node (label : String) (children : List Tree) :
    (node label children).leaves = children.flatMap leaves := by
  simp only [leaves, subtrees, subtreesOfAll_eq_flatMap, List.filterMap_cons, text?,
    List.filterMap_flatMap]
  rfl

/-- A node with at least one child. -/
def isInner : Tree → Bool
  | .leaf _ => false
  | .node _ children => !children.isEmpty

/-- No label spans lines; leaf texts may. -/
def HasPlainLabels (tree : Tree) : Prop :=
  ∀ label ∈ tree.labels, '\n' ∉ label.toList

instance (tree : Tree) : Decidable tree.HasPlainLabels :=
  inferInstanceAs (Decidable (∀ label ∈ tree.labels, '\n' ∉ label.toList))

theorem HasPlainLabels.label {label : String} {children : List Tree}
    (h : (node label children).HasPlainLabels) : '\n' ∉ label.toList := by
  apply h
  rw [labels_node]
  exact List.mem_cons_self

theorem HasPlainLabels.child {label : String} {children : List Tree} {child : Tree}
    (h : (node label children).HasPlainLabels) (hchild : child ∈ children) :
    child.HasPlainLabels := by
  intro inside hinside
  apply h
  rw [labels_node]
  exact List.mem_cons_of_mem _ (List.mem_flatMap.mpr ⟨child, hchild, hinside⟩)

end TreeSchema.Render.Tree
