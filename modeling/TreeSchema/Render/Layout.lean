import TreeSchema.Render.Page
import TreeSchema.Render.Style
import TreeSchema.Render.Tree

/-!
The choice, for each node, between `(label child child)` on one line and a
block with one child per line, indented and closed by a parenthesis of its
own. Children are laid out first, each within the columns left one level
deeper. A node takes one line when all its children did, none of them spans
lines, and the whole fits; otherwise it is a block.
-/

namespace TreeSchema.Render

inductive Layout where
  | line (text : String)
  | block (label : String) (children : List Layout)
deriving Repr

namespace Layout

def isLine : Layout → Bool
  | .line _ => true
  | .block .. => false

/-- Adds a child to a single line, as long as it is one line and fits. -/
def joinLine (limit : Nat) (page : Page) : Layout → Option Page
  | .block .. => none
  | .line text =>
      if hasNewline text then none else (page.space.write text).within limit

/-- The single-line form, given up as soon as it passes `limit` columns. -/
def singleLine? (label : String) (children : List Layout) (limit : Nat) : Option String := do
  let opened ← ((Page.empty.write "(").write label).within limit
  let filled ← children.foldlM (joinLine limit) opened
  let closed ← (filled.write ")").within limit
  return closed.text

end Layout

namespace Tree

mutual

/-- The layout and the flat width of a tree. `budget` bounds the lines below
the tree, and `firstLine` bounds its own single-line form, which may start in
the middle of a line. -/
def fit (indent : Nat) : Tree → (budget firstLine : Nat) → Layout × Nat
  | .leaf text, _, _ => (.line text, text.length)
  | .node label children, budget, firstLine =>
      if children.isEmpty then (.line ("(" ++ label ++ ")"), label.length)
      else
        let (laid, width) := fitAll indent children (budget - indent)
        let flat := label.length + width
        if laid.all Layout.isLine && flat ≤ firstLine then
          match Layout.singleLine? label laid firstLine with
          | some text => (.line text, flat)
          | none => (.block label laid, flat)
        else (.block label laid, flat)

/-- The layouts of siblings and the sum of their flat widths. -/
def fitAll (indent : Nat) : List Tree → (budget : Nat) → List Layout × Nat
  | [], _ => ([], 0)
  | child :: rest, budget =>
      let (first, width) := fit indent child budget budget
      let (others, widths) := fitAll indent rest budget
      (first :: others, width + widths)

end

/-- The layout of a tree whose first line starts at `column`. Only the
single-line form of the root pays for the columns in use. -/
def layoutAt (tree : Tree) (style : Style) (column : Nat) : Layout :=
  (fit style.indent tree style.width (style.width - column)).1

def layout (tree : Tree) (style : Style) : Layout :=
  tree.layoutAt style 0

end Tree

namespace Page

mutual

/-- Writes a layout whose first line starts after `indent` more spaces;
`step` spaces are added per level. -/
def writeLayout (step : Nat) (indent : Nat) : Layout → Page → Page
  | .line text, page => (page.indent indent).write text
  | .block label children, page =>
      let opened := ((page.indent indent).write "(").write label
      (((writeLines step (indent + step) children opened).newline).indent indent).write ")"

/-- Writes each layout on a line of its own. -/
def writeLines (step : Nat) (indent : Nat) : List Layout → Page → Page
  | [], page => page
  | child :: rest, page =>
      writeLines step indent rest (writeLayout step indent child page.newline)

end

/-- Writes a tree from the column that the page has reached. -/
def writeTree (page : Page) (style : Style) (tree : Tree) : Page :=
  writeLayout style.indent 0 (tree.layoutAt style page.column) page

end Page

namespace Tree

def render (tree : Tree) (style : Style) : String :=
  (Page.empty.writeTree style tree).text

end Tree

end TreeSchema.Render
