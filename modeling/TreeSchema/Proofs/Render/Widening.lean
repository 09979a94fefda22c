import TreeSchema.Proofs.Render.Paths
import TreeSchema.Proofs.Render.TopDown

/-!
More room never breaks a node. Of two layouts of a tree the one with more
columns is coarser: it has the lines of the other or collapses nodes above
them, and it has no block that the other does not have. The induction is on the
tree and carries both budgets; the flat width of a node is the same under both,
and an attempt at a single line that succeeds within a limit succeeds within
every wider one.
-/

namespace TreeSchema.Render

def lineBreaks (text : String) : Nat := text.toList.count '\n'

@[simp] theorem lineBreaks_append (left right : String) :
    lineBreaks (left ++ right) = lineBreaks left + lineBreaks right := by
  simp only [lineBreaks, String.toList_append, List.count_append]

theorem lineBreaks_eq_zero_iff {text : String} :
    lineBreaks text = 0 ↔ '\n' ∉ text.toList :=
  List.count_eq_zero

namespace Layout

theorem singleLine?_of_le {label : String} {laid : List Layout} {limit wider : Nat}
    {line : String} (hlimit : limit ≤ wider) (h : singleLine? label laid limit = some line) :
    singleLine? label laid wider = some line := by
  obtain ⟨texts, hlaid, hunbroken, hline, hfits⟩ := singleLine?_eq_some_iff.mp h
  exact singleLine?_eq_some_iff.mpr
    ⟨texts, hlaid, hunbroken, hline, Nat.le_trans hfits hlimit⟩

mutual

/-- The first layout has all lines of the second one and may have more nodes
collapsed; where it has a block, the second has a block of the same label. -/
def Coarser : Layout → Layout → Prop
  | .line text, .line other => text = other
  | .line _, .block .. => True
  | .block label laid, .block name others => label = name ∧ CoarserAll laid others
  | .block .., .line _ => False

def CoarserAll : List Layout → List Layout → Prop
  | [], [] => True
  | first :: rest, other :: others => Coarser first other ∧ CoarserAll rest others
  | _, _ => False

end

theorem coarserAll_map {loose tight : Tree → Layout} {children : List Tree}
    (hcoarser : ∀ child ∈ children, (loose child).Coarser (tight child)) :
    CoarserAll (children.map loose) (children.map tight) := by
  induction children with
  | nil => trivial
  | cons child rest ih =>
      obtain ⟨hchild, hrest⟩ := List.forall_mem_cons.mp hcoarser
      exact ⟨hchild, ih hrest⟩

theorem Coarser.eq_line {layout : Layout} {text : String} (h : layout.Coarser (.line text)) :
    layout = .line text := by
  cases layout with
  | line other => exact congrArg Layout.line h
  | block label laid => exact h.elim

theorem CoarserAll.eq_lines {laid : List Layout} {texts : List String}
    (hall : CoarserAll laid (texts.map .line)) : laid = texts.map .line := by
  induction laid generalizing texts with
  | nil =>
      cases texts with
      | nil => rfl
      | cons text others => exact hall.elim
  | cons first rest ih =>
      cases texts with
      | nil => exact hall.elim
      | cons text others => rw [hall.1.eq_line, ih hall.2, List.map_cons]

theorem CoarserAll.forall₂ {laid others : List Layout} (hall : CoarserAll laid others) :
    List.Forall₂ Coarser laid others := by
  induction laid generalizing others with
  | nil =>
      cases others with
      | nil => exact .nil
      | cons other rest => exact hall.elim
  | cons first rest ih =>
      cases others with
      | nil => exact hall.elim
      | cons other others => exact .cons hall.1 (ih hall.2)

/-- What the finer layout has at a path the coarser one has there too, or it has
collapsed a node above. -/
theorem Coarser.at?_or_above {loose tight : Layout} (h : loose.Coarser tight) {path : List Nat}
    {part : Layout} (hpart : tight.at? path = some part) :
    (∃ other, loose.at? path = some other ∧ other.Coarser part) ∨ loose.CollapsedAbove path := by
  induction path generalizing loose tight with
  | nil =>
      rw [at?_nil] at hpart
      obtain rfl := Option.some.inj hpart
      exact .inl ⟨loose, at?_nil loose, h⟩
  | cons position path ih =>
      cases tight with
      | line text => cases hpart
      | block label others =>
          obtain ⟨child, hchild, hbelow⟩ := Option.bind_eq_some_iff.mp hpart
          cases loose with
          | line whole => exact .inr (collapsedAbove_line whole position path)
          | block name laid =>
              rcases forall₂_getElem? h.2.forall₂ position with
                ⟨-, hnone⟩ | ⟨first, other, hfirst, hother, hcoarser⟩
              · rw [hnone] at hchild
                cases hchild
              · obtain rfl : other = child := Option.some.inj (hother.symm.trans hchild)
                refine (ih hcoarser hbelow).imp ?_ (CollapsedAbove.of_child hfirst)
                rw [at?_block_cons, hfirst]
                exact id

/-- All that the coarser layout has at a path the finer one has there too. -/
theorem Coarser.at? {loose tight : Layout} (h : loose.Coarser tight) {path : List Nat}
    {part : Layout} (hpart : loose.at? path = some part) :
    ∃ other, tight.at? path = some other ∧ part.Coarser other := by
  induction path generalizing loose tight with
  | nil =>
      rw [at?_nil] at hpart
      obtain rfl := Option.some.inj hpart
      exact ⟨tight, at?_nil tight, h⟩
  | cons position path ih =>
      obtain ⟨name, laid, child, rfl, hchild, hbelow⟩ := at?_cons_eq_some_iff.mp hpart
      cases tight with
      | line whole => exact h.elim
      | block label others =>
          rcases forall₂_getElem? h.2.forall₂ position with
            ⟨hnone, -⟩ | ⟨first, other, hfirst, hother, hcoarser⟩
          · rw [hnone] at hchild
            cases hchild
          · obtain rfl : first = child := Option.some.inj (hfirst.symm.trans hchild)
            rw [at?_block_cons, hother]
            exact ih hcoarser hbelow

theorem Coarser.at?_block {loose tight : Layout} (h : loose.Coarser tight) {path : List Nat}
    {label : String} {laid : List Layout} (hblock : loose.at? path = some (.block label laid)) :
    ∃ others, tight.at? path = some (.block label others) := by
  obtain ⟨other, hother, hcoarser⟩ := h.at? hblock
  cases other with
  | line text => exact hcoarser.elim
  | block name others =>
      obtain ⟨rfl, -⟩ := hcoarser
      exact ⟨others, hother⟩

mutual

/-- No way to write a tree has fewer line breaks than its inlined text. -/
theorem Shows.lineBreaks_le (step : Nat) : ∀ (indent : Nat) (layout : Layout) (tree : Tree),
    layout.Shows tree → lineBreaks tree.inlined ≤ lineBreaks (layout.body step indent)
  | indent, .line text, tree, hshows => by
      obtain rfl : text = tree.inlined := hshows
      exact Nat.le_of_eq (by rw [body])
  | indent, .block label laid, .leaf text, hshows => hshows.elim
  | indent, .block label laid, .node name children, hshows => by
      obtain ⟨rfl, -, hall⟩ := hshows
      have hinside := ShowsAll.lineBreaks_le step (indent + step) laid children hall
      simp only [Tree.inlined, joined, body, lineBreaks_append]
      omega

theorem ShowsAll.lineBreaks_le (step : Nat) : ∀ (indent : Nat) (laid : List Layout)
    (children : List Tree), ShowsAll laid children →
      lineBreaks (spaced (Tree.inlinedAll children)) ≤ lineBreaks (inside step indent laid)
  | indent, [], [], _ => Nat.le_refl _
  | indent, [], _ :: _, hall => hall.elim
  | indent, _ :: _, [], hall => hall.elim
  | indent, first :: rest, child :: others, hall => by
      have hfirst := Shows.lineBreaks_le step indent first child hall.1
      have hrest := ShowsAll.lineBreaks_le step indent rest others hall.2
      have hblank : lineBreaks " " = 0 := rfl
      simp only [Tree.inlinedAll, spaced_cons, inside, lineBreaks_append]
      omega

end

mutual

theorem Coarser.lineBreaks_le (step : Nat) : ∀ (indent : Nat) (loose tight : Layout)
    (tree : Tree), loose.Coarser tight → loose.Shows tree → tight.Shows tree →
      lineBreaks (loose.body step indent) ≤ lineBreaks (tight.body step indent)
  | indent, .line text, tight, tree, _, hloose, htight => by
      rw [body, show text = tree.inlined from hloose]
      exact htight.lineBreaks_le step indent tight tree
  | indent, .block _ _, .line _, tree, hcoarser, _, _ => hcoarser.elim
  | indent, .block _ _, .block _ _, .leaf _, _, hloose, _ => hloose.elim
  | indent, .block label laid, .block name others, .node _ children, hcoarser, hloose, htight => by
      obtain ⟨rfl, hall⟩ := hcoarser
      have hinside := CoarserAll.lineBreaks_le step (indent + step) laid others children hall
        hloose.2.2 htight.2.2
      simp only [body, lineBreaks_append]
      omega

theorem CoarserAll.lineBreaks_le (step : Nat) : ∀ (indent : Nat) (laid others : List Layout)
    (children : List Tree), CoarserAll laid others → ShowsAll laid children →
      ShowsAll others children →
      lineBreaks (inside step indent laid) ≤ lineBreaks (inside step indent others)
  | indent, [], [], _, _, _, _ => Nat.le_refl _
  | indent, [], _ :: _, _, hall, _, _ => hall.elim
  | indent, _ :: _, [], _, hall, _, _ => hall.elim
  | indent, _ :: _, _ :: _, [], _, hloose, _ => hloose.elim
  | indent, first :: rest, other :: others, child :: children, hall, hloose, htight => by
      have hfirst := Coarser.lineBreaks_le step indent first other child hall.1 hloose.1 htight.1
      have hrest := CoarserAll.lineBreaks_le step indent rest others children hall.2 hloose.2
        htight.2
      simp only [inside, lineBreaks_append]
      omega

end

end Layout

namespace Tree

theorem fit_coarser {indent : Nat} {tree : Tree} {budget roomier firstLine roomierFirst : Nat}
    (hbudget : budget ≤ roomier) (hfirst : firstLine ≤ roomierFirst) :
    (fit indent tree roomier roomierFirst).1.Coarser (fit indent tree budget firstLine).1 := by
  induction tree generalizing budget roomier firstLine roomierFirst with
  | leaf text => exact rfl
  | node label children ih =>
      by_cases hchildren : children = []
      · subst hchildren
        exact rfl
      have hall : Layout.CoarserAll (children.map (laidWithin indent (roomier - indent)))
          (children.map (laidWithin indent (budget - indent))) :=
        Layout.coarserAll_map fun child hchild =>
          ih child hchild (Nat.sub_le_sub_right hbudget indent)
            (Nat.sub_le_sub_right hbudget indent)
      rcases fit_node_cases hchildren roomier roomierFirst with
        ⟨line, hloose, -⟩ | ⟨hloose, hfailed⟩
      · cases htight : (fit indent (node label children) budget firstLine).1 with
        | line text =>
            rw [hloose]
            exact (fit_line hloose).trans (fit_line htight).symm
        | block name laid =>
            rw [hloose]
            trivial
      · rcases fit_node_cases hchildren budget firstLine with
          ⟨line, -, hflat, hattempt⟩ | ⟨htight, -⟩
        · -- the attempt that succeeds in less room finds the same lines here
          obtain ⟨texts, hlaid, -⟩ := Layout.singleLine?_eq_some_iff.mp hattempt
          have hsame := (hlaid ▸ hall).eq_lines
          rw [hlaid, ← hsame] at hattempt
          have hwider := Layout.singleLine?_of_le hfirst hattempt
          rw [hfailed (Nat.le_trans hflat hfirst)] at hwider
          cases hwider
        · rw [hloose, htight]
          exact ⟨rfl, hall⟩

theorem layoutAt_coarser (tree : Tree) {narrow wide : Style} {column earlier : Nat}
    (hindent : narrow.indent = wide.indent) (hwidth : narrow.width ≤ wide.width)
    (hcolumn : earlier ≤ column) :
    (tree.layoutAt wide earlier).Coarser (tree.layoutAt narrow column) := by
  have hfirst : narrow.width - column ≤ wide.width - earlier := by omega
  rw [layoutAt, layoutAt, ← hindent]
  exact fit_coarser hwidth hfirst

/-- With more width, or fewer columns in use, a node that was collapsed still is
or lies inside a collapsed node, and no node is broken that was not. So on any
page the coarser layout has no more line breaks, and a rendered text that was one
line stays one line. -/
theorem layoutAt_monotone (tree : Tree) {narrow wide : Style} {column earlier : Nat}
    (hindent : narrow.indent = wide.indent) (hwidth : narrow.width ≤ wide.width)
    (hcolumn : earlier ≤ column) :
    let tight := tree.layoutAt narrow column
    let loose := tree.layoutAt wide earlier
    (∀ path node, tree.at? path = some node →
      (tight.CollapsedAbove path ∨ ∃ part, tight.at? path = some part ∧ part.Shows node) ∧
      (loose.CollapsedAbove path ∨ ∃ part, loose.at? path = some part ∧ part.Shows node) ∧
      (∀ text, tight.at? path = some (.line text) →
        loose.at? path = some (.line text) ∨ loose.CollapsedAbove path) ∧
      ∀ label laid, loose.at? path = some (.block label laid) →
        ∃ others, tight.at? path = some (.block label others)) ∧
    (∀ indent (page : Page),
      lineBreaks (page.writeLayout wide.indent indent loose).text ≤
        lineBreaks (page.writeLayout narrow.indent indent tight).text) ∧
    lineBreaks (tree.render wide) ≤ lineBreaks (tree.render narrow) ∧
    ('\n' ∉ (tree.render narrow).toList → '\n' ∉ (tree.render wide).toList) := by
  intro tight loose
  have htight : tight.Shows tree := layoutAt_shows tree narrow column
  have hloose : loose.Shows tree := layoutAt_shows tree wide earlier
  have hcoarser : loose.Coarser tight := tree.layoutAt_coarser hindent hwidth hcolumn
  have hrendered : lineBreaks (tree.render wide) ≤ lineBreaks (tree.render narrow) := by
    rw [render_eq_body, render_eq_body, hindent]
    exact Layout.Coarser.lineBreaks_le _ _ _ _ tree
      (tree.layoutAt_coarser hindent hwidth (Nat.le_refl 0)) (layoutAt_shows tree wide 0)
      (layoutAt_shows tree narrow 0)
  refine ⟨?_, ?_, hrendered, ?_⟩
  · intro path node hnode
    refine ⟨htight.at?_or_above hnode, hloose.at?_or_above hnode, ?_, ?_⟩
    · intro text hline
      refine (hcoarser.at?_or_above hline).imp_left ?_
      rintro ⟨other, hother, hsame⟩
      rw [hother, hsame.eq_line]
    · intro label laid hblock
      exact hcoarser.at?_block hblock
  · intro indent page
    have hbody := Layout.Coarser.lineBreaks_le wide.indent indent loose tight tree hcoarser
      hloose htight
    rw [Layout.writeLayout_eq_write, Layout.writeLayout_eq_write, hindent]
    simp only [Page.write, lineBreaks_append]
    omega
  · intro hunbroken
    rw [← lineBreaks_eq_zero_iff] at hunbroken ⊢
    omega

/-- A node that is on a line of its own in thirteen columns and goes into the line
of its parent in eighteen; the root, which has a leaf of two lines below it, is a
block in both. -/
theorem layoutAt_monotone_thirteen_eighteen :
    let tree := node "op" [node "neg" [node "add" [leaf "1", leaf "2"]], leaf "x\ny"]
    let narrow : Style := { width := 13 }
    let wide : Style := { width := 18 }
    narrow.indent = wide.indent ∧ narrow.width ≤ wide.width ∧
      (tree.layoutAt narrow 4).at? [0, 0] = some (.line "(add 1 2)") ∧
      (tree.layoutAt wide 3).CollapsedAbove [0, 0] ∧
      ∃ laid others, (tree.layoutAt wide 3).at? [] = some (.block "op" laid) ∧
        (tree.layoutAt narrow 4).at? [] = some (.block "op" others) := by
  intro tree narrow wide
  have hlabels : tree.HasPlainLabels := by decide
  have hwidth : narrow.width ≤ wide.width := by decide
  have hcolumn : 3 ≤ 4 := by decide
  have hnarrow : tree.layoutAt narrow 4 =
      .block "op" [.block "neg" [.line "(add 1 2)"], .line "x\ny"] := by
    rw [layoutAt, fit_eq_topDown (by decide) hlabels (by decide)]
    rfl
  have hwide : tree.layoutAt wide 3 =
      .block "op" [.line "(neg (add 1 2))", .line "x\ny"] := by
    rw [layoutAt, fit_eq_topDown (by decide) hlabels (by decide)]
    rfl
  have hline : (tree.layoutAt narrow 4).at? [0, 0] = some (.line "(add 1 2)") := by
    rw [hnarrow]
    rfl
  obtain ⟨hnodes, -⟩ := @layoutAt_monotone tree narrow wide 4 3 rfl hwidth hcolumn
  obtain ⟨-, -, hcollapsed, -⟩ := hnodes [0, 0] _ rfl
  obtain ⟨-, -, -, hblocks⟩ := hnodes [] _ rfl
  have hroot : (tree.layoutAt wide 3).at? [] = some (tree.layoutAt wide 3) := Layout.at?_nil _
  rw [hwide] at hroot
  rw [hwide] at hcollapsed hblocks ⊢
  obtain ⟨others, hothers⟩ := hblocks "op" _ hroot
  refine ⟨rfl, hwidth, hline, ?_, _, others, hroot, hothers⟩
  apply (hcollapsed "(add 1 2)" hline).resolve_left
  exact nofun

end Tree

end TreeSchema.Render
