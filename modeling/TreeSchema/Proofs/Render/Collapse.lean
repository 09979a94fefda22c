import TreeSchema.Proofs.Render.Subtrees
import TreeSchema.Render.Layout

/-!
When a node takes one line. The attempt at a single line, abandoned on the
first overflow, succeeds exactly when the whole line fits. Every line that
fitting gives is the inlined text of its tree, and for trees whose labels stay
on one line the flat width never rules out a line that fits.
-/

namespace TreeSchema.Render

/-- Texts in a row, with a blank before each. -/
def spaced (texts : List String) : String :=
  String.join (texts.map (" " ++ ·))

/-- A label and the texts that follow it, in parentheses. -/
def joined (label : String) (texts : List String) : String :=
  "(" ++ label ++ spaced texts ++ ")"

@[simp] theorem spaced_nil : spaced [] = "" := rfl

@[simp] theorem spaced_cons (text : String) (rest : List String) :
    spaced (text :: rest) = " " ++ text ++ spaced rest := by
  simp [spaced, String.append_assoc]

theorem spaced_unbroken_iff {texts : List String} :
    '\n' ∉ (spaced texts).toList ↔ ∀ text ∈ texts, '\n' ∉ text.toList := by
  induction texts with
  | nil => simp
  | cons text rest ih => simp [← ih]

theorem joined_unbroken_iff {label : String} {texts : List String}
    (hlabel : '\n' ∉ label.toList) :
    '\n' ∉ (joined label texts).toList ↔ ∀ text ∈ texts, '\n' ∉ text.toList := by
  rw [← spaced_unbroken_iff]
  simp [joined, hlabel]

/-- A single line without breaks ends at its length. -/
theorem columnAfter_joined {label : String} {texts : List String}
    (hlabel : '\n' ∉ label.toList) (htexts : ∀ text ∈ texts, '\n' ∉ text.toList) :
    columnAfter 0 (joined label texts) = (joined label texts).length := by
  rw [columnAfter_of_unbroken 0 ((joined_unbroken_iff hlabel).mpr htexts), Nat.zero_add]

theorem write_unbroken_column {page : Page} {text : String} (htext : '\n' ∉ text.toList) :
    (page.write text).column = page.column + text.length :=
  columnAfter_of_unbroken page.column htext

namespace Layout

private theorem joinLine_eq_some_iff {limit : Nat} {page next : Page} {child : Layout} :
    joinLine limit page child = some next ↔
      ∃ text, child = .line text ∧ '\n' ∉ text.toList ∧
        next = page.write (" " ++ text) ∧ next.column ≤ limit := by
  cases child with
  | block label children => simp [joinLine]
  | line text =>
      by_cases hbroken : '\n' ∈ text.toList
      · have hnewline : hasNewline text = true := hasNewline_iff.mpr hbroken
        simp [joinLine, hnewline, hbroken]
      · have hnewline : ¬ hasNewline text = true := fun h => hbroken (hasNewline_iff.mp h)
        have hjoin : joinLine limit page (.line text) =
            (page.write (" " ++ text)).within limit := by
          simp [joinLine, hnewline, Page.space_eq_write]
        rw [hjoin, Page.within_eq_some_iff]
        constructor
        · rintro ⟨rfl, hfits⟩
          exact ⟨text, rfl, hbroken, rfl, hfits⟩
        · rintro ⟨_, ⟨⟩, -, rfl, hfits⟩
          exact ⟨rfl, hfits⟩

/-- Children are taken in while the page stays within the limit. Only blanks
and unbroken lines are written meanwhile, so the last column bounds every
column before it. -/
private theorem joinLines_eq_some_iff {limit : Nat} {laid : List Layout} {page filled : Page}
    (hpage : page.column ≤ limit) :
    laid.foldlM (joinLine limit) page = some filled ↔
      ∃ texts : List String, laid = texts.map .line ∧
        (∀ text ∈ texts, '\n' ∉ text.toList) ∧
        filled = page.write (spaced texts) ∧ filled.column ≤ limit := by
  induction laid generalizing page with
  | nil =>
      simp only [List.foldlM_nil, Option.pure_def, Option.some.injEq]
      constructor
      · rintro rfl
        exact ⟨[], rfl, by simp, by simp, hpage⟩
      · rintro ⟨texts, hlaid, -, hfilled, -⟩
        obtain rfl : texts = [] := List.map_eq_nil_iff.mp hlaid.symm
        simpa using hfilled.symm
  | cons child rest ih =>
      simp only [List.foldlM_cons, Option.bind_eq_bind, Option.bind_eq_some_iff]
      constructor
      · rintro ⟨next, hchild, hrest⟩
        obtain ⟨text, rfl, htext, rfl, hnext⟩ := joinLine_eq_some_iff.mp hchild
        obtain ⟨texts, rfl, htexts, rfl, hfilled⟩ := (ih hnext).mp hrest
        refine ⟨text :: texts, rfl, ?_, ?_, hfilled⟩
        · simpa [htext] using htexts
        · simp
      · rintro ⟨_ | ⟨text, texts⟩, hlaid, hunbroken, rfl, hfilled⟩
        · cases hlaid
        obtain ⟨rfl, rfl⟩ := List.cons.inj hlaid
        obtain ⟨htext, htexts⟩ := List.forall_mem_cons.mp hunbroken
        have hcolumns : (page.write (spaced (text :: texts))).column =
            (page.write (" " ++ text)).column + (spaced texts).length := by
          rw [spaced_cons, ← Page.write_write, write_unbroken_column (spaced_unbroken_iff.mpr htexts)]
        have hnext : (page.write (" " ++ text)).column ≤ limit := by omega
        refine ⟨_, joinLine_eq_some_iff.mpr ⟨text, rfl, htext, rfl, hnext⟩, ?_⟩
        refine (ih hnext).mpr ⟨texts, rfl, htexts, ?_, hfilled⟩
        simp

private theorem write_joined (label : String) (texts : List String) :
    ((Page.empty.write ("(" ++ label)).write (spaced texts)).write ")" =
      Page.empty.write (joined label texts) := by
  simp only [Page.write_write, joined, String.append_assoc]

/-- The single-line form exists exactly when all children are unbroken lines
and the whole line ends within the limit. -/
theorem singleLine?_eq_some_iff {label : String} {laid : List Layout} {limit : Nat}
    {line : String} :
    singleLine? label laid limit = some line ↔
      ∃ texts : List String, laid = texts.map .line ∧
        (∀ text ∈ texts, '\n' ∉ text.toList) ∧
        line = joined label texts ∧ columnAfter 0 line ≤ limit := by
  simp only [singleLine?, Page.write_write, Option.bind_eq_bind, Option.bind_eq_some_iff,
    Option.pure_def, Option.some.injEq, Page.within_eq_some_iff]
  constructor
  · rintro ⟨opened, ⟨rfl, hopened⟩, filled, hfilled, closed, ⟨rfl, hclosed⟩, rfl⟩
    obtain ⟨texts, rfl, htexts, rfl, -⟩ := (joinLines_eq_some_iff hopened).mp hfilled
    rw [write_joined] at hclosed ⊢
    exact ⟨texts, rfl, htexts, String.empty_append, hclosed⟩
  · rintro ⟨texts, rfl, htexts, rfl, hline⟩
    have hcolumns : columnAfter 0 (joined label texts) =
        columnAfter 0 ("(" ++ label) + (spaced texts).length + 1 := by
      rw [joined, columnAfter_append, columnAfter_append,
        columnAfter_of_unbroken _ (spaced_unbroken_iff.mpr htexts), columnAfter_of_unbroken]
      · rfl
      · simp
    have hopened : (Page.empty.write ("(" ++ label)).column ≤ limit := by
      change columnAfter 0 ("(" ++ label) ≤ limit
      omega
    have hfilled : ((Page.empty.write ("(" ++ label)).write (spaced texts)).column ≤ limit := by
      rw [write_unbroken_column (spaced_unbroken_iff.mpr htexts)]
      change columnAfter 0 ("(" ++ label) + (spaced texts).length ≤ limit
      omega
    refine ⟨_, ⟨rfl, hopened⟩, _,
      (joinLines_eq_some_iff hopened).mpr ⟨texts, rfl, htexts, rfl, hfilled⟩, _,
      ⟨rfl, ?_⟩, ?_⟩
    · rw [write_joined]
      exact hline
    · rw [write_joined]
      exact String.empty_append

end Layout

namespace Tree

mutual

/-- The whole tree on one line. -/
def inlined : Tree → String
  | .leaf text => text
  | .node label children => joined label (inlinedAll children)

def inlinedAll : List Tree → List String
  | [] => []
  | child :: rest => inlined child :: inlinedAll rest

end

theorem inlinedAll_eq_map (children : List Tree) :
    inlinedAll children = children.map inlined := by
  induction children with
  | nil => rfl
  | cons child rest ih => simp only [inlinedAll, ih, List.map_cons]

theorem inlined_node (label : String) (children : List Tree) :
    (node label children).inlined = joined label (children.map inlined) := by
  rw [inlined, inlinedAll_eq_map]

theorem inlined_childless (label : String) :
    (node label []).inlined = "(" ++ label ++ ")" := by
  simp [inlined_node, joined]

theorem inlined_node_unbroken_iff {label : String} {children : List Tree}
    (hlabel : '\n' ∉ label.toList) :
    '\n' ∉ (node label children).inlined.toList ↔
      ∀ child ∈ children, '\n' ∉ child.inlined.toList := by
  rw [inlined_node, joined_unbroken_iff hlabel]
  exact List.forall_mem_map

theorem inlined_node_pos (label : String) (children : List Tree) :
    0 < (node label children).inlined.length := by
  have hopening : "(".length = 1 := rfl
  simp only [inlined_node, joined, String.length_append]
  omega

/-- A child leaves room for the two parentheses and the blank before it. -/
theorem inlined_length_child (label : String) {children : List Tree} {child : Tree}
    (hchild : child ∈ children) :
    child.inlined.length + 3 ≤ (node label children).inlined.length := by
  have hspaced : child.inlined.length + 1 ≤ (spaced (children.map inlined)).length := by
    induction children with
    | nil => cases hchild
    | cons first rest ih =>
        rw [List.map_cons, spaced_cons, String.length_append, String.length_append]
        rcases List.mem_cons.mp hchild with rfl | hrest
        · have hblank : " ".length = 1 := rfl
          omega
        · have hlater := ih hrest
          omega
  have hopening : "(".length = 1 := rfl
  have hclosing : ")".length = 1 := rfl
  simp only [inlined_node, joined, String.length_append]
  omega

theorem flatWidth_le_inlined (tree : Tree) : tree.flatWidth ≤ tree.inlined.length := by
  induction tree with
  | leaf text => exact Nat.le_refl _
  | node label children ih =>
      have hwidths : flatWidths children ≤ (spaced (children.map inlined)).length := by
        induction children with
        | nil => exact Nat.zero_le _
        | cons child rest ihrest =>
            have hchild := ih child List.mem_cons_self
            have hrest := ihrest fun other hother => ih other (List.mem_cons_of_mem _ hother)
            simp only [flatWidths, List.map_cons, spaced_cons, String.length_append]
            omega
      simp only [flatWidth, inlined_node, joined, String.length_append]
      omega

/-- The layout of a tree that starts on a fresh line. -/
def laidWithin (indent budget : Nat) (tree : Tree) : Layout :=
  (fit indent tree budget budget).1

private theorem fitAll_eq_of_widths {indent budget : Nat} {children : List Tree}
    (hwidths : ∀ child ∈ children, (fit indent child budget budget).2 = child.flatWidth) :
    fitAll indent children budget =
      (children.map (laidWithin indent budget), flatWidths children) := by
  induction children with
  | nil => rfl
  | cons child rest ih =>
      have hchild := hwidths child List.mem_cons_self
      have hrest := ih fun other hother => hwidths other (List.mem_cons_of_mem _ hother)
      simp only [fitAll, hchild, hrest, List.map_cons, flatWidths, laidWithin]

/-- A node with children, once its children are laid out. -/
private theorem fit_node_of_fitAll {indent budget width : Nat} {children : List Tree}
    {laid : List Layout} (label : String) (firstLine : Nat) (hchildren : children ≠ [])
    (hlaid : fitAll indent children (budget - indent) = (laid, width)) :
    fit indent (node label children) budget firstLine =
      (if laid.all Layout.isLine && label.length + width ≤ firstLine then
        match Layout.singleLine? label laid firstLine with
        | some line => .line line
        | none => .block label laid
      else .block label laid, label.length + width) := by
  have hnonempty : ¬ children.isEmpty = true := by simpa using hchildren
  simp only [fit, hnonempty, hlaid, Bool.false_eq_true, if_false]
  split
  · split <;> simp [*]
  · rfl

/-- The width that comes with a layout is the flat width of the tree. -/
theorem fit_snd (indent : Nat) (tree : Tree) (budget firstLine : Nat) :
    (fit indent tree budget firstLine).2 = tree.flatWidth := by
  induction tree generalizing budget firstLine with
  | leaf text => rfl
  | node label children ih =>
      by_cases hchildren : children = []
      · subst hchildren
        rfl
      · rw [fit_node_of_fitAll label firstLine hchildren
          (fitAll_eq_of_widths fun child hchild => ih child hchild _ _)]
        rfl

theorem fitAll_eq (indent budget : Nat) (children : List Tree) :
    fitAll indent children budget =
      (children.map (laidWithin indent budget), flatWidths children) :=
  fitAll_eq_of_widths fun child _ => fit_snd indent child budget budget

/-- What becomes of a node with children: a line when the flat width allows an
attempt and the attempt succeeds, and otherwise a block of its children. -/
theorem fit_node_cases {indent : Nat} {label : String} {children : List Tree}
    (hchildren : children ≠ []) (budget firstLine : Nat) :
    (∃ line, (fit indent (node label children) budget firstLine).1 = .line line ∧
      (node label children).flatWidth ≤ firstLine ∧
      Layout.singleLine? label (children.map (laidWithin indent (budget - indent))) firstLine =
        some line) ∨
    ((fit indent (node label children) budget firstLine).1 =
        .block label (children.map (laidWithin indent (budget - indent))) ∧
      ((node label children).flatWidth ≤ firstLine →
        Layout.singleLine? label (children.map (laidWithin indent (budget - indent))) firstLine =
          none)) := by
  have hfit := fit_node_of_fitAll label firstLine hchildren
    (fitAll_eq indent (budget - indent) children)
  generalize children.map (laidWithin indent (budget - indent)) = laid at hfit ⊢
  rw [hfit]
  cases hattempt : Layout.singleLine? label laid firstLine with
  | none => exact .inr ⟨by simp, fun _ => rfl⟩
  | some line =>
      obtain ⟨texts, rfl, -⟩ := Layout.singleLine?_eq_some_iff.mp hattempt
      by_cases hflat : (node label children).flatWidth ≤ firstLine
      · refine .inl ⟨line, ?_, hflat, rfl⟩
        rw [flatWidth] at hflat
        simp [Layout.isLine, hflat]
      · refine .inr ⟨?_, fun h => absurd h hflat⟩
        rw [flatWidth] at hflat
        simp [hflat]

private theorem texts_of_lines {indent budget : Nat} {children : List Tree}
    {texts : List String}
    (hlines : ∀ child ∈ children, ∀ line, laidWithin indent budget child = .line line →
      line = child.inlined)
    (hlaid : children.map (laidWithin indent budget) = texts.map .line) :
    texts = children.map inlined := by
  induction children generalizing texts with
  | nil => exact List.map_eq_nil_iff.mp hlaid.symm
  | cons child rest ih =>
      obtain ⟨text, others, rfl, htext, hothers⟩ := List.map_eq_cons_iff.mp hlaid.symm
      rw [List.map_cons, hlines child List.mem_cons_self text htext.symm,
        ih (fun other hother => hlines other (List.mem_cons_of_mem _ hother)) hothers.symm]

/-- A line is never anything but the inlined text of its tree. -/
theorem fit_line {indent budget firstLine : Nat} {tree : Tree} {line : String}
    (hline : (fit indent tree budget firstLine).1 = .line line) : line = tree.inlined := by
  induction tree generalizing budget firstLine line with
  | leaf text => exact (Layout.line.inj hline).symm
  | node label children ih =>
      by_cases hchildren : children = []
      · subst hchildren
        rw [inlined_childless]
        exact (Layout.line.inj hline).symm
      rcases fit_node_cases hchildren budget firstLine with
        ⟨text, hfit, -, hattempt⟩ | ⟨hfit, -⟩
      · obtain ⟨texts, hlaid, -, rfl, -⟩ := Layout.singleLine?_eq_some_iff.mp hattempt
        obtain rfl := Layout.line.inj (hline.symm.trans hfit)
        rw [inlined_node,
          texts_of_lines (fun child hchild _ hchildLine => ih child hchild hchildLine) hlaid]
      · rw [hline] at hfit
        cases hfit

/-- The children of a node are all laid out as lines exactly when the attempt
at a single line finds their inlined texts. -/
theorem laidWithin_eq_lines_iff {indent budget : Nat} {children : List Tree}
    {texts : List String} :
    children.map (laidWithin indent budget) = texts.map .line ↔
      texts = children.map inlined ∧
        ∀ child ∈ children, (laidWithin indent budget child).isLine = true := by
  constructor
  · intro hlaid
    refine ⟨texts_of_lines (fun _ _ _ hline => fit_line hline) hlaid, ?_⟩
    intro child hchild
    have hmem : laidWithin indent budget child ∈ texts.map .line :=
      hlaid ▸ List.mem_map_of_mem hchild
    obtain ⟨text, -, htext⟩ := List.mem_map.mp hmem
    rw [← htext]
    rfl
  · rintro ⟨rfl, hlines⟩
    rw [List.map_map]
    apply List.map_congr_left
    intro child hchild
    have hline := hlines child hchild
    cases hlaid : laidWithin indent budget child with
    | line text => rw [fit_line hlaid, Function.comp_apply]
    | block label laid => rw [hlaid] at hline; cases hline

/-- For a label on one line the flat width is no obstacle, and a line is as
wide as its text: a node with children takes one line exactly when all children
do, none of them is broken, and the whole fits. -/
theorem fit_node_plain {indent : Nat} {label : String} {children : List Tree}
    (hchildren : children ≠ []) (hlabel : '\n' ∉ label.toList) (budget firstLine : Nat) :
    (fit indent (node label children) budget firstLine).1 =
      if (∀ child ∈ children, (laidWithin indent (budget - indent) child).isLine = true ∧
          '\n' ∉ child.inlined.toList) ∧
        (node label children).inlined.length ≤ firstLine
      then .line (node label children).inlined
      else .block label (children.map (laidWithin indent (budget - indent))) := by
  have hwidth (hunbroken : ∀ text ∈ children.map inlined, '\n' ∉ text.toList) :
      columnAfter 0 (joined label (children.map inlined)) =
        (node label children).inlined.length := by
    rw [columnAfter_joined hlabel hunbroken, inlined_node]
  rcases fit_node_cases hchildren budget firstLine with
    ⟨line, hfit, -, hattempt⟩ | ⟨hfit, hfailed⟩
  · obtain ⟨texts, hlaid, hunbroken, rfl, hfits⟩ := Layout.singleLine?_eq_some_iff.mp hattempt
    obtain ⟨rfl, hlines⟩ := laidWithin_eq_lines_iff.mp hlaid
    rw [hwidth hunbroken] at hfits
    rw [hfit, ← inlined_node, if_pos]
    refine ⟨fun child hchild => ⟨hlines child hchild, ?_⟩, hfits⟩
    exact hunbroken _ (List.mem_map_of_mem hchild)
  · rw [hfit, if_neg]
    rintro ⟨hlines, hfits⟩
    have hunbroken : ∀ text ∈ children.map inlined, '\n' ∉ text.toList := by
      intro text htext
      obtain ⟨child, hchild, rfl⟩ := List.mem_map.mp htext
      exact (hlines child hchild).2
    have hattempt : Layout.singleLine? label (children.map (laidWithin indent (budget - indent)))
        firstLine = some (joined label (children.map inlined)) := by
      rw [Layout.singleLine?_eq_some_iff]
      rw [← hwidth hunbroken] at hfits
      refine ⟨children.map inlined, ?_, hunbroken, rfl, hfits⟩
      exact laidWithin_eq_lines_iff.mpr ⟨rfl, fun child hchild => (hlines child hchild).1⟩
    have hflat := Nat.le_trans (flatWidth_le_inlined (node label children)) hfits
    rw [hfailed hflat] at hattempt
    cases hattempt

end Tree

end TreeSchema.Render
