import TreeSchema.Proofs.Render.Lines
import TreeSchema.Proofs.Render.Paths

/-!
Layouts at a deeper indentation. As long as no label and no line of a layout
spans lines, the layout fixes its physical lines up to the blanks in front of
them: the indentation shifts all of them alike, and the opening and the closing
line of a block stand at its depth with its children one step further in.
-/

namespace TreeSchema.Render

/-- A text with `n` more blanks in front of every physical line. -/
def shifted (n : Nat) (text : String) : String :=
  String.ofList (['\n'].intercalate ((physicalLines text).map (List.replicate n ' ' ++ ·)))

/-- A text is told by its physical lines. -/
theorem eq_shifted {n : Nat} {left right : String}
    (h : physicalLines left = (physicalLines right).map (List.replicate n ' ' ++ ·)) :
    left = shifted n right := by
  have hjoined : ['\n'].intercalate (physicalLines left) = left.toList :=
    List.intercalate_splitOn '\n'
  rw [shifted, ← h, hjoined, String.ofList_toList]

theorem spaces_add (n m : Nat) (text : String) :
    (spaces (n + m) ++ text).toList = List.replicate n ' ' ++ (spaces m ++ text).toList := by
  simp only [spaces, String.toList_append, String.toList_ofList, List.replicate_add,
    List.append_assoc]

/-- What stands at a place in the list of an item stands in the joined list
behind the lists of the items before it. -/
theorem getElem?_flatMap {α β : Type} {f : α → List β} {items : List α} {position k : Nat}
    {item : α} {value : β} (hitem : items[position]? = some item)
    (hvalue : (f item)[k]? = some value) :
    (items.flatMap f)[((items.take position).flatMap f).length + k]? = some value := by
  obtain ⟨hposition, rfl⟩ := List.getElem?_eq_some_iff.mp hitem
  obtain ⟨hk, -⟩ := List.getElem?_eq_some_iff.mp hvalue
  have hsplit : items.flatMap f = (items.take position).flatMap f ++
      (f items[position] ++ (items.drop (position + 1)).flatMap f) := by
    rw [← List.flatMap_cons, ← List.drop_eq_getElem_cons hposition, ← List.flatMap_append,
      List.take_append_drop]
  rw [hsplit, List.getElem?_append_right (Nat.le_add_right _ _), Nat.add_sub_cancel_left,
    List.getElem?_append_left hk]
  exact hvalue

namespace Layout

@[elab_as_elim]
theorem induct {motive : Layout → Prop}
    (line : ∀ text, motive (.line text))
    (block : ∀ label laid, (∀ child ∈ laid, motive child) → motive (.block label laid)) :
    ∀ layout, motive layout
  | .line text => line text
  | .block label laid => block label laid fun child _ => induct line block child

mutual

/-- The labels and the lines of a layout. -/
def texts : Layout → List String
  | .line text => [text]
  | .block label laid => label :: textsOfAll laid

def textsOfAll : List Layout → List String
  | [] => []
  | child :: rest => texts child ++ textsOfAll rest

end

theorem textsOfAll_eq_flatMap (laid : List Layout) : textsOfAll laid = laid.flatMap texts := by
  induction laid with
  | nil => rfl
  | cons child rest ih => simp only [textsOfAll, ih, List.flatMap_cons]

/-- No label and no line of the layout spans lines. -/
def HasPlainTexts (layout : Layout) : Prop :=
  ∀ text ∈ layout.texts, '\n' ∉ text.toList

instance (layout : Layout) : Decidable layout.HasPlainTexts :=
  inferInstanceAs (Decidable (∀ text ∈ layout.texts, '\n' ∉ text.toList))

theorem hasPlainTexts_line {text : String} : (line text).HasPlainTexts ↔ '\n' ∉ text.toList := by
  simp [HasPlainTexts, texts]

theorem hasPlainTexts_block {label : String} {laid : List Layout} :
    (block label laid).HasPlainTexts ↔
      '\n' ∉ label.toList ∧ ∀ child ∈ laid, child.HasPlainTexts := by
  simp only [HasPlainTexts, texts, textsOfAll_eq_flatMap, List.forall_mem_cons, List.mem_flatMap]
  constructor
  · rintro ⟨hlabel, hbelow⟩
    exact ⟨hlabel, fun child hchild text htext => hbelow text ⟨child, hchild, htext⟩⟩
  · rintro ⟨hlabel, hbelow⟩
    refine ⟨hlabel, ?_⟩
    rintro text ⟨child, hchild, htext⟩
    exact hbelow child hchild text htext

/-- The physical lines of a layout that is written on a fresh page. -/
def rows (step indent : Nat) (layout : Layout) : List (List Char) :=
  physicalLines (Page.empty.writeLayout step indent layout).text

theorem rows_eq (step indent : Nat) (layout : Layout) :
    layout.rows step indent = physicalLines (spaces indent ++ layout.body step indent) := by
  rw [rows, writeLayout_empty_text]

theorem rows_line {text : String} (htext : '\n' ∉ text.toList) (step indent : Nat) :
    (line text).rows step indent = [(spaces indent ++ text).toList] := by
  have hunbroken : '\n' ∉ (spaces indent ++ text).toList := by
    simp [spaces_unbroken, htext]
  rw [rows_eq, body, physicalLines_unbroken hunbroken]

theorem rows_block {label : String} (hlabel : '\n' ∉ label.toList) (step indent : Nat)
    (laid : List Layout) :
    (block label laid).rows step indent =
      (spaces indent ++ "(" ++ label).toList ::
        laid.flatMap (rows step (indent + step)) ++ [(spaces indent ++ ")").toList] := by
  rw [rows_eq, physicalLines_block hlabel, funext (rows_eq step (indent + step))]

/-- Each line of a layout keeps its distance from the indentation of the whole. -/
theorem rows_add {layout : Layout} (hplain : layout.HasPlainTexts) (step n m : Nat) :
    layout.rows step (n + m) = (layout.rows step m).map (List.replicate n ' ' ++ ·) := by
  induction layout using induct generalizing m with
  | line text =>
      have htext := hasPlainTexts_line.mp hplain
      rw [rows_line htext, rows_line htext, spaces_add]
      rfl
  | block label laid ih =>
      obtain ⟨hlabel, hbelow⟩ := hasPlainTexts_block.mp hplain
      have hchildren : laid.flatMap (rows step (n + m + step)) =
          laid.flatMap fun child => (child.rows step (m + step)).map (List.replicate n ' ' ++ ·) := by
        rw [Nat.add_assoc]
        exact List.flatMap_congr fun child hchild => ih child hchild (hbelow child hchild) _
      rw [rows_block hlabel, rows_block hlabel, hchildren, String.append_assoc, spaces_add,
        spaces_add, List.map_append, List.map_cons, List.map_flatMap, String.append_assoc]
      rfl

mutual

/-- Physical lines of a layout: one for a line, and for a block two around those
of its children. -/
def rowCount : Layout → Nat
  | .line _ => 1
  | .block _ laid => 2 + rowCountOfAll laid

def rowCountOfAll : List Layout → Nat
  | [] => 0
  | child :: rest => rowCount child + rowCountOfAll rest

end

theorem length_flatMap_rows {laid : List Layout} {step indent : Nat}
    (hcounts : ∀ child ∈ laid, (child.rows step indent).length = child.rowCount) :
    (laid.flatMap (rows step indent)).length = rowCountOfAll laid := by
  induction laid with
  | nil => rfl
  | cons child rest ih =>
      obtain ⟨hchild, hrest⟩ := List.forall_mem_cons.mp hcounts
      rw [List.flatMap_cons, List.length_append, hchild, ih hrest, rowCountOfAll]

theorem length_rows {layout : Layout} (hplain : layout.HasPlainTexts) (step indent : Nat) :
    (layout.rows step indent).length = layout.rowCount := by
  induction layout using induct generalizing indent with
  | line text => rw [rows_line (hasPlainTexts_line.mp hplain), rowCount, List.length_singleton]
  | block label laid ih =>
      obtain ⟨hlabel, hbelow⟩ := hasPlainTexts_block.mp hplain
      have hchildren : (laid.flatMap (rows step (indent + step))).length = rowCountOfAll laid :=
        length_flatMap_rows fun child hchild => ih child hchild (hbelow child hchild) _
      rw [rows_block hlabel, rowCount, List.length_append, List.length_cons, hchildren,
        List.length_singleton]
      omega

/-- The position of the first line of what a path leads to. -/
def rowOf : Layout → List Nat → Nat
  | _, [] => 0
  | .line _, _ :: _ => 0
  | .block _ laid, position :: path =>
      1 + rowCountOfAll (laid.take position) + laid[position]?.elim 0 fun child => child.rowOf path

theorem rowOf_block_cons {label : String} {laid : List Layout} {position : Nat} {child : Layout}
    (hchild : laid[position]? = some child) (path : List Nat) :
    (block label laid).rowOf (position :: path) =
      1 + rowCountOfAll (laid.take position) + child.rowOf path := by
  rw [rowOf, hchild, Option.elim_some]

theorem HasPlainTexts.at? {layout : Layout} (hplain : layout.HasPlainTexts) {path : List Nat}
    {part : Layout} (hpart : layout.at? path = some part) : part.HasPlainTexts := by
  induction path generalizing layout with
  | nil =>
      rw [at?_nil] at hpart
      exact Option.some.inj hpart ▸ hplain
  | cons position path ih =>
      obtain ⟨label, laid, child, rfl, hchild, hbelow⟩ := at?_cons_eq_some_iff.mp hpart
      obtain ⟨-, hchildren⟩ := hasPlainTexts_block.mp hplain
      exact ih (hchildren child (List.mem_of_getElem? hchild)) hbelow

/-- The lines of a child stand in the lines of its block, behind the opening and
the children before it. -/
theorem getElem?_rows_of_child {label : String} {laid : List Layout}
    (hplain : (block label laid).HasPlainTexts) {step indent position k : Nat} {child : Layout}
    (hchild : laid[position]? = some child) {row : List Char}
    (hrow : (child.rows step (indent + step))[k]? = some row) :
    ((block label laid).rows step indent)[1 + rowCountOfAll (laid.take position) + k]? =
      some row := by
  obtain ⟨hlabel, hbelow⟩ := hasPlainTexts_block.mp hplain
  have hbefore : ((laid.take position).flatMap (rows step (indent + step))).length =
      rowCountOfAll (laid.take position) :=
    length_flatMap_rows fun other hother =>
      length_rows (hbelow other (List.mem_of_mem_take hother)) _ _
  have hinside := getElem?_flatMap hchild hrow
  rw [hbefore] at hinside
  have hafter : 1 + rowCountOfAll (laid.take position) + k =
      rowCountOfAll (laid.take position) + k + 1 := by
    omega
  obtain ⟨hk, -⟩ := List.getElem?_eq_some_iff.mp hinside
  rw [rows_block hlabel, hafter, List.cons_append, List.getElem?_cons_succ,
    List.getElem?_append_left hk]
  exact hinside

/-- The lines of what a path leads to stand together from its row on, at the
indentation of its depth. -/
theorem getElem?_rows_of_at? {layout : Layout} (hplain : layout.HasPlainTexts) {path : List Nat}
    {part : Layout} (hpart : layout.at? path = some part) {step indent k : Nat} {row : List Char}
    (hrow : (part.rows step (indent + path.length * step))[k]? = some row) :
    (layout.rows step indent)[layout.rowOf path + k]? = some row := by
  induction path generalizing layout indent with
  | nil =>
      rw [at?_nil] at hpart
      obtain rfl := Option.some.inj hpart
      rw [List.length_nil, Nat.zero_mul, Nat.add_zero] at hrow
      rw [rowOf, Nat.zero_add]
      exact hrow
  | cons position path ih =>
      -- the child is written one step further in, where the rest of the path starts
      obtain ⟨label, laid, child, rfl, hchild, hbelow⟩ := at?_cons_eq_some_iff.mp hpart
      obtain ⟨-, hchildren⟩ := hasPlainTexts_block.mp hplain
      have hdeeper : indent + (position :: path).length * step =
          indent + step + path.length * step := by
        rw [List.length_cons, Nat.succ_mul]
        omega
      rw [hdeeper] at hrow
      have hin : (child.rows step (indent + step))[child.rowOf path + k]? = some row :=
        ih (hchildren child (List.mem_of_getElem? hchild)) hbelow hrow
      rw [rowOf_block_cons hchild, Nat.add_assoc]
      exact getElem?_rows_of_child hplain hchild hin

/-- What a block shows in its first line, and a line in its only one. -/
def opening : Layout → String
  | .line text => text
  | .block label _ => "(" ++ label

theorem getElem?_rows_zero {layout : Layout} (hplain : layout.HasPlainTexts) (step indent : Nat) :
    (layout.rows step indent)[0]? = some (spaces indent ++ layout.opening).toList := by
  cases layout with
  | line text =>
      rw [rows_line (hasPlainTexts_line.mp hplain)]
      rfl
  | block label laid =>
      rw [rows_block (hasPlainTexts_block.mp hplain).1, opening, String.append_assoc]
      rfl

theorem getElem?_rows_closing {label : String} {laid : List Layout}
    (hplain : (block label laid).HasPlainTexts) (step indent : Nat) :
    ((block label laid).rows step indent)[1 + rowCountOfAll laid]? =
      some (spaces indent ++ ")").toList := by
  obtain ⟨hlabel, hbelow⟩ := hasPlainTexts_block.mp hplain
  have hbefore : ((spaces indent ++ "(" ++ label).toList ::
      laid.flatMap (rows step (indent + step))).length = 1 + rowCountOfAll laid := by
    rw [List.length_cons, Nat.add_comm,
      length_flatMap_rows fun child hchild => length_rows (hbelow child hchild) _ _]
  rw [rows_block hlabel, ← hbefore]
  exact List.getElem?_concat_length

theorem at?_snoc {layout : Layout} {path : List Nat} {label : String} {laid : List Layout}
    (hpart : layout.at? path = some (block label laid)) {position : Nat} {child : Layout}
    (hchild : laid[position]? = some child) : layout.at? (path ++ [position]) = some child := by
  induction path generalizing layout with
  | nil =>
      rw [at?_nil] at hpart
      obtain rfl := Option.some.inj hpart
      rw [List.nil_append, at?_block_cons, hchild]
      exact at?_nil child
  | cons first path ih =>
      obtain ⟨name, others, other, rfl, hother, hbelow⟩ := at?_cons_eq_some_iff.mp hpart
      rw [List.cons_append, at?_block_cons, hother]
      exact ih hbelow

/-- A deeper indentation shifts the whole text by that many blanks, line by
line. The number of lines depends on the shape of the layout alone: a block has
two more than its children together. Every block closes at the indentation at
which it opens, and its children start one step further in. -/
theorem writeLayout_shifted {layout : Layout} (hplain : layout.HasPlainTexts) (style : Style) :
    let emitted (indent : Nat) := (Page.empty.writeLayout style.indent indent layout).text
    (∀ n m, emitted (n + m) = shifted n (emitted m)) ∧
      (∀ indent, (physicalLines (emitted indent)).length = layout.rowCount) ∧
      ∀ indent path label laid, layout.at? path = some (.block label laid) →
        let lines := physicalLines (emitted indent)
        let row := layout.rowOf path
        let column := indent + path.length * style.indent
        lines[row]? = some (spaces column ++ "(" ++ label).toList ∧
          lines[row + (1 + rowCountOfAll laid)]? = some (spaces column ++ ")").toList ∧
          ∀ position child, laid[position]? = some child →
            lines[layout.rowOf (path ++ [position])]? =
              some (spaces (column + style.indent) ++ child.opening).toList := by
  intro emitted
  refine ⟨?_, ?_, ?_⟩
  · intro n m
    exact eq_shifted (rows_add hplain style.indent n m)
  · intro indent
    exact length_rows hplain style.indent indent
  · intro indent path label laid hblock lines row column
    have hpart := hplain.at? hblock
    have hfirst := getElem?_rows_zero hpart style.indent column
    have hlast := getElem?_rows_closing hpart style.indent column
    rw [opening, ← String.append_assoc] at hfirst
    refine ⟨getElem?_rows_of_at? hplain hblock hfirst, ?_, ?_⟩
    · exact getElem?_rows_of_at? hplain hblock hlast
    · intro position child hchild
      have hbelow := at?_snoc hblock hchild
      have hdepth : indent + (path ++ [position]).length * style.indent =
          column + style.indent := by
        rw [List.length_append, List.length_singleton, Nat.succ_mul, ← Nat.add_assoc]
      have hchildFirst := getElem?_rows_zero (hplain.at? hbelow) style.indent
        (column + style.indent)
      rw [← hdepth] at hchildFirst ⊢
      exact getElem?_rows_of_at? hplain hbelow hchildFirst

/-- Three columns per level, started at the second column: the inner block opens,
closes and shows its child behind five and eight blanks. -/
theorem writeLayout_shifted_nested :
    let layout := block "op" [line "a", block "f" [line "x"]]
    let emitted (indent : Nat) := (Page.empty.writeLayout 3 indent layout).text
    layout.HasPlainTexts ∧ emitted (2 + 1) = shifted 2 (emitted 1) ∧
      (physicalLines (emitted 2)).length = 6 ∧
      (physicalLines (emitted 2))[2]? = some (spaces 5 ++ "(f").toList ∧
      (physicalLines (emitted 2))[3]? = some (spaces 8 ++ "x").toList ∧
      (physicalLines (emitted 2))[4]? = some (spaces 5 ++ ")").toList := by
  intro layout emitted
  have hplain : layout.HasPlainTexts := by decide
  obtain ⟨hshift, hcount, hblocks⟩ := writeLayout_shifted hplain { indent := 3 }
  obtain ⟨hopening, hclosing, hchildren⟩ := hblocks 2 [1] "f" [line "x"] rfl
  rw [String.append_assoc] at hopening
  exact ⟨hplain, hshift 2 1, hcount 2, hopening, hchildren 0 (line "x") rfl, hclosing⟩

end Layout

end TreeSchema.Render
