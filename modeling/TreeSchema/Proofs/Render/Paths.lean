import TreeSchema.Proofs.Related
import TreeSchema.Proofs.Render.Emission

/-!
Nodes by their paths. A path lists the positions of the children to take from
the root; its length is the depth of what it leads to. In a layout of a tree a
path leads to a layout of the node that it leads to in the tree, unless it
passes a node that was collapsed to a line.
-/

namespace TreeSchema.Render

namespace Tree

/-- The tree that a path leads to. -/
def at? : Tree → List Nat → Option Tree
  | tree, [] => some tree
  | .leaf _, _ :: _ => none
  | .node _ children, position :: path =>
      children[position]?.bind fun child => child.at? path

@[simp] theorem at?_nil (tree : Tree) : tree.at? [] = some tree := by
  cases tree <;> rfl

theorem at?_node_cons (label : String) (children : List Tree) (position : Nat) (path : List Nat) :
    (node label children).at? (position :: path) =
      children[position]?.bind fun child => child.at? path :=
  rfl

end Tree

namespace Layout

/-- The layout of the node that a path leads to, unless a node above it was
collapsed. -/
def at? : Layout → List Nat → Option Layout
  | layout, [] => some layout
  | .line _, _ :: _ => none
  | .block _ laid, position :: path =>
      laid[position]?.bind fun child => child.at? path

@[simp] theorem at?_nil (layout : Layout) : layout.at? [] = some layout := by
  cases layout <;> rfl

theorem at?_block_cons (label : String) (laid : List Layout) (position : Nat) (path : List Nat) :
    (block label laid).at? (position :: path) =
      laid[position]?.bind fun child => child.at? path :=
  rfl

/-- A path that goes on leads through a child of a block. -/
theorem at?_cons_eq_some_iff {layout part : Layout} {position : Nat} {path : List Nat} :
    layout.at? (position :: path) = some part ↔
      ∃ label laid child, layout = block label laid ∧ laid[position]? = some child ∧
        child.at? path = some part := by
  constructor
  · intro hpart
    cases layout with
    | line text => cases hpart
    | block label laid =>
        obtain ⟨child, hchild, hbelow⟩ := Option.bind_eq_some_iff.mp hpart
        exact ⟨label, laid, child, rfl, hchild, hbelow⟩
  · rintro ⟨label, laid, child, rfl, hchild, hbelow⟩
    rw [at?_block_cons, hchild]
    exact hbelow

/-- What the path leads to lies inside a node that is one line. -/
def CollapsedAbove (layout : Layout) (path : List Nat) : Prop :=
  ∃ above, above <+: path ∧ above ≠ path ∧ ∃ whole, layout.at? above = some (.line whole)

theorem collapsedAbove_line (whole : String) (position : Nat) (path : List Nat) :
    (line whole).CollapsedAbove (position :: path) :=
  ⟨[], List.nil_prefix, nofun, whole, rfl⟩

theorem CollapsedAbove.of_child {label : String} {laid : List Layout} {position : Nat}
    {child : Layout} (hchild : laid[position]? = some child) {path : List Nat}
    (h : child.CollapsedAbove path) : (block label laid).CollapsedAbove (position :: path) := by
  obtain ⟨above, hprefix, hproper, whole, hline⟩ := h
  refine ⟨position :: above, (List.prefix_cons_inj position).mpr hprefix, ?_, whole, ?_⟩
  · exact fun hsame => hproper (List.cons.inj hsame).2
  · rw [at?_block_cons, hchild]
    exact hline

theorem ShowsAll.forall₂ {laid : List Layout} {children : List Tree}
    (hall : ShowsAll laid children) : List.Forall₂ Shows laid children := by
  induction laid generalizing children with
  | nil =>
      cases children with
      | nil => exact .nil
      | cons child others => exact hall.elim
  | cons first rest ih =>
      cases children with
      | nil => exact hall.elim
      | cons child others => exact .cons hall.1 (ih hall.2)

theorem Shows.at?_or_above {layout : Layout} {tree : Tree} (hshows : layout.Shows tree)
    {path : List Nat} {node : Tree} (hnode : tree.at? path = some node) :
    layout.CollapsedAbove path ∨ ∃ part, layout.at? path = some part ∧ part.Shows node := by
  induction path generalizing layout tree with
  | nil =>
      rw [Tree.at?_nil] at hnode
      obtain rfl := Option.some.inj hnode
      exact .inr ⟨layout, at?_nil layout, hshows⟩
  | cons position path ih =>
      cases layout with
      | line text => exact .inl (collapsedAbove_line text position path)
      | block label laid =>
          cases tree with
          | leaf text => cases hnode
          | node name children =>
              obtain ⟨-, -, hall⟩ := hshows
              obtain ⟨child, hchild, hbelow⟩ := Option.bind_eq_some_iff.mp hnode
              rcases forall₂_getElem? hall.forall₂ position with
                ⟨-, hnone⟩ | ⟨first, found, hfirst, hfound, hchildShows⟩
              · rw [hnone] at hchild
                cases hchild
              · obtain rfl : found = child := Option.some.inj (hfound.symm.trans hchild)
                refine (ih hchildShows hbelow).imp (CollapsedAbove.of_child hfirst) ?_
                rw [at?_block_cons, hfirst]
                exact id

end Layout

end TreeSchema.Render
