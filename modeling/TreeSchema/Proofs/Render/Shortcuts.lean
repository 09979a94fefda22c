import TreeSchema.Proofs.Render.Collapse

/-!
Fitting stops as early as it can. A node whose flat width is past the limit is
not tried on one line at all, and an attempt is given up on the first overflow.
The plain decision has neither shortcut: it writes the whole line and counts its
characters once. The two agree for labels on one line. They part after a label
with a line break, where an attempt is back at column 0 and the count goes on.
-/

namespace TreeSchema.Render

namespace Layout

/-- The text of a line that is not broken. -/
def unbrokenText? : Layout → Option String
  | .line text => if '\n' ∈ text.toList then none else some text
  | .block .. => none

/-- The single-line form, written to its end and then measured. -/
def wholeLine? (label : String) (children : List Layout) (limit : Nat) : Option String := do
  let texts ← children.mapM unbrokenText?
  let line := joined label texts
  if line.length ≤ limit then some line else none

theorem unbrokenText?_eq_some_iff {laid : Layout} {text : String} :
    laid.unbrokenText? = some text ↔ laid = .line text ∧ '\n' ∉ text.toList := by
  cases laid with
  | block label children => simp [unbrokenText?]
  | line other =>
      simp only [unbrokenText?, Option.ite_none_left_eq_some, Option.some.injEq, line.injEq]
      constructor
      · rintro ⟨hother, rfl⟩
        exact ⟨rfl, hother⟩
      · rintro ⟨rfl, htext⟩
        exact ⟨htext, rfl⟩

theorem mapM_unbrokenText?_eq_some_iff {laid : List Layout} {texts : List String} :
    laid.mapM unbrokenText? = some texts ↔
      laid = texts.map .line ∧ ∀ text ∈ texts, '\n' ∉ text.toList := by
  induction laid generalizing texts with
  | nil =>
      simp only [List.mapM_nil, Option.pure_def, Option.some.injEq]
      constructor
      · rintro rfl
        exact ⟨rfl, by simp⟩
      · rintro ⟨hlaid, -⟩
        exact (List.map_eq_nil_iff.mp hlaid.symm).symm
  | cons first rest ih =>
      simp only [List.mapM_cons, Option.bind_eq_bind, Option.bind_eq_some_iff, Option.pure_def,
        Option.some.injEq, unbrokenText?_eq_some_iff]
      constructor
      · rintro ⟨text, ⟨rfl, htext⟩, others, hothers, rfl⟩
        obtain ⟨rfl, hunbroken⟩ := ih.mp hothers
        exact ⟨rfl, List.forall_mem_cons.mpr ⟨htext, hunbroken⟩⟩
      · rintro ⟨hlaid, hunbroken⟩
        obtain ⟨text, others, rfl, rfl, rfl⟩ := List.map_eq_cons_iff.mp hlaid.symm
        obtain ⟨htext, hothers⟩ := List.forall_mem_cons.mp hunbroken
        exact ⟨text, ⟨rfl, htext⟩, others, ih.mpr ⟨rfl, hothers⟩, rfl⟩

theorem wholeLine?_eq_some_iff {label : String} {laid : List Layout} {limit : Nat}
    {line : String} :
    wholeLine? label laid limit = some line ↔
      ∃ texts : List String, laid = texts.map .line ∧
        (∀ text ∈ texts, '\n' ∉ text.toList) ∧
        line = joined label texts ∧ line.length ≤ limit := by
  simp only [wholeLine?, Option.bind_eq_bind, Option.bind_eq_some_iff,
    mapM_unbrokenText?_eq_some_iff, Option.ite_none_right_eq_some, Option.some.injEq]
  constructor
  · rintro ⟨texts, ⟨hlaid, hunbroken⟩, hfits, rfl⟩
    exact ⟨texts, hlaid, hunbroken, rfl, hfits⟩
  · rintro ⟨texts, hlaid, hunbroken, rfl, hfits⟩
    exact ⟨texts, ⟨hlaid, hunbroken⟩, hfits, rfl⟩

/-- An attempt that is given up on the first overflow would not have fitted at its
end either. -/
theorem singleLine?_eq_wholeLine? {label : String} (hlabel : '\n' ∉ label.toList)
    (laid : List Layout) (limit : Nat) :
    singleLine? label laid limit = wholeLine? label laid limit := by
  apply Option.ext
  intro line
  rw [singleLine?_eq_some_iff, wholeLine?_eq_some_iff]
  constructor
  · rintro ⟨texts, hlaid, hunbroken, rfl, hfits⟩
    rw [columnAfter_joined hlabel hunbroken] at hfits
    exact ⟨texts, hlaid, hunbroken, rfl, hfits⟩
  · rintro ⟨texts, hlaid, hunbroken, rfl, hfits⟩
    rw [← columnAfter_joined hlabel hunbroken] at hfits
    exact ⟨texts, hlaid, hunbroken, rfl, hfits⟩

end Layout

namespace Tree

mutual

/-- The layout by the plain decision, at the node and at every node below. -/
def fitWhole (indent : Nat) : Tree → (budget firstLine : Nat) → Layout
  | .leaf text, _, _ => .line text
  | .node label children, budget, firstLine =>
      if children.isEmpty then .line ("(" ++ label ++ ")")
      else
        let laid := fitWholeAll indent children (budget - indent)
        match Layout.wholeLine? label laid firstLine with
        | some line => .line line
        | none => .block label laid

def fitWholeAll (indent : Nat) : List Tree → (budget : Nat) → List Layout
  | [], _ => []
  | child :: rest, budget =>
      fitWhole indent child budget budget :: fitWholeAll indent rest budget

end

theorem fitWholeAll_eq_map (indent budget : Nat) (children : List Tree) :
    fitWholeAll indent children budget =
      children.map fun child => fitWhole indent child budget budget := by
  induction children with
  | nil => rfl
  | cons child rest ih => simp only [fitWholeAll, ih, List.map_cons]

/-- No node is passed over by its flat width that has a whole line within the
limit. -/
theorem flatWidth_le_of_wholeLine? {indent budget limit : Nat} {label : String}
    {children : List Tree} {line : String}
    (hline : Layout.wholeLine? label (children.map (laidWithin indent budget)) limit =
      some line) :
    (node label children).flatWidth ≤ limit := by
  obtain ⟨texts, hlaid, -, rfl, hfits⟩ := Layout.wholeLine?_eq_some_iff.mp hline
  obtain ⟨rfl, -⟩ := laidWithin_eq_lines_iff.mp hlaid
  calc
    (node label children).flatWidth ≤ (node label children).inlined.length :=
      flatWidth_le_inlined _
    _ = (joined label (children.map inlined)).length := by rw [inlined_node]
    _ ≤ limit := hfits

/-- The two shortcuts at one node, with the children laid out by fitting. -/
theorem fit_node_whole {indent : Nat} {label : String} {children : List Tree}
    (hchildren : children ≠ []) (hlabel : '\n' ∉ label.toList) (budget firstLine : Nat) :
    (fit indent (node label children) budget firstLine).1 =
      match Layout.wholeLine? label (children.map (laidWithin indent (budget - indent)))
          firstLine with
      | some line => .line line
      | none => .block label (children.map (laidWithin indent (budget - indent))) := by
  rcases fit_node_cases hchildren budget firstLine with
    ⟨line, hfit, -, hattempt⟩ | ⟨hfit, hfailed⟩
  · rw [Layout.singleLine?_eq_wholeLine? hlabel] at hattempt
    rw [hfit, hattempt]
  · -- a whole line within the limit passes the width test, and then the attempt
    -- that failed would have found it
    have hnone : Layout.wholeLine? label
        (children.map (laidWithin indent (budget - indent))) firstLine = none := by
      rw [Option.eq_none_iff_forall_ne_some]
      intro line hline
      have hattempt := hfailed (flatWidth_le_of_wholeLine? hline)
      rw [Layout.singleLine?_eq_wholeLine? hlabel, hline] at hattempt
      cases hattempt
    rw [hfit, hnone]

theorem fit_eq_fitWhole {indent : Nat} {tree : Tree} (hlabels : tree.HasPlainLabels)
    (budget firstLine : Nat) :
    (fit indent tree budget firstLine).1 = fitWhole indent tree budget firstLine := by
  induction tree generalizing budget firstLine with
  | leaf text => rfl
  | node label children ih =>
      by_cases hchildren : children = []
      · subst hchildren
        rfl
      have hnonempty : ¬ children.isEmpty = true := by simpa using hchildren
      have hbelow : fitWholeAll indent children (budget - indent) =
          children.map (laidWithin indent (budget - indent)) := by
        rw [fitWholeAll_eq_map]
        apply List.map_congr_left
        intro child hchild
        exact (ih child hchild (hlabels.child hchild) _ _).symm
      rw [fit_node_whole hchildren hlabels.label, fitWhole, if_neg hnonempty, hbelow]

/-- The shortcuts change no decision. The width that fitting keeps on the way is
the flat width of the tree, and for labels on one line the layout is that of the
plain decision, for any columns. -/
theorem fit_without_shortcuts (indent : Nat) (tree : Tree) (budget firstLine : Nat) :
    (fit indent tree budget firstLine).2 = tree.flatWidth ∧
      (tree.HasPlainLabels →
        (fit indent tree budget firstLine).1 = fitWhole indent tree budget firstLine) :=
  ⟨fit_snd indent tree budget firstLine, fun hlabels => fit_eq_fitWhole hlabels _ _⟩

/-- The line of the inner node fills its eighteen columns. The flat width of the
root is low enough for an attempt, which then needs more than twenty columns. -/
theorem fit_without_shortcuts_eighteen_columns :
    let tree := node "neg" [node "add" [leaf "11", leaf "22", node "zero" []]]
    tree.HasPlainLabels ∧ (fit 2 tree 20 20).2 = 14 ∧
      (fit 2 tree 20 20).1 = .block "neg" [.line "(add 11 22 (zero))"] := by
  intro tree
  have hlabels : tree.HasPlainLabels := by decide
  obtain ⟨hwidth, hlayout⟩ := fit_without_shortcuts 2 tree 20 20
  refine ⟨hlabels, hwidth, ?_⟩
  rw [hlayout hlabels]
  rfl

end Tree

end TreeSchema.Render
