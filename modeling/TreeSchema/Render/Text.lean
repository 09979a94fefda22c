import TreeSchema.Render.Layout
import TreeSchema.Render.ViewTree

/-!
The text of record views and of single values: flatten, lay out, write.
-/

namespace TreeSchema

open Render

def NodeView.render (view : NodeView) (style : Style) : Except RenderError String :=
  return (← view.tree style).render style

def FieldView.render (value : FieldView) (style : Style) : Except RenderError String :=
  return (← value.tree style).render style

/-- Continues a page with a record, from the column it has reached. A record
that cannot be rendered gives no page, so nothing of it is written. -/
def Render.Page.writeNode (page : Page) (style : Style) (view : NodeView) :
    Except RenderError Page :=
  return page.writeTree style (← view.tree style)

end TreeSchema
