import TreeSchema.Render.Style
import TreeSchema.Render.Tree
import TreeSchema.View

/-!
The tree of a record view. Each field contributes children to the node of its
record: an array one per element, an absent maybe none, anything else one.
Which values are allowed is decided by the descriptor of the field.
-/

namespace TreeSchema.Render

inductive RenderError where
  /-- A listed field for which the view has no descriptor. -/
  | noDescriptor (typeName field : String)
  /-- A value of the wrong kind for the descriptor it met. -/
  | unexpected (typeName field : String) (expected : Desc) (found : String)
  /-- A value that has no text outside a field. -/
  | notAlone (found : String)
  | unset (typeName field : String)
deriving DecidableEq, Repr

namespace RenderError

def message : RenderError → String
  | .noDescriptor typeName field =>
      "malformed tree at " ++ typeName ++ "." ++ field ++ ": field has no descriptor"
  | .unexpected typeName field expected found =>
      "malformed tree at " ++ typeName ++ "." ++ field ++
        ": expected " ++ expected.text ++ ", found " ++ found
  | .notAlone found =>
      "malformed tree at <root>: cannot render " ++ found ++ " on its own"
  | .unset typeName field =>
      "field `" ++ field ++ "` of `" ++ typeName ++ "` is unset"

end RenderError

/-- The field that a value is being rendered for. -/
structure Site where
  typeName : String
  field : String
deriving DecidableEq, Repr

/-- What a present value of a type looks like. -/
inductive Form where
  | integer
  | text
  | name
  | record
  | sequence (element : Desc)
deriving DecidableEq, Repr

/-- Maybes do not show in the form; products and compound sums look alike. -/
def Form.ofDesc : Desc → Form
  | .int => .integer
  | .string => .text
  | .array element => .sequence element
  | .maybe inner => ofDesc inner
  | .product _ => .record
  | .sum declared => if declared.isSimple then .name else .record

namespace Site

def unsetLeaf (site : Site) (style : Style) : Except RenderError (List Tree) :=
  match style.unset with
  | .placeholder => .ok [.leaf (site.field ++ ":?")]
  | .reject => .error (.unset site.typeName site.field)

def refuse {α : Type} (site : Site) (value : FieldView) (desc : Desc) : Except RenderError α :=
  .error (.unexpected site.typeName site.field desc.present value.kind)

end Site

end TreeSchema.Render

namespace TreeSchema

open Render

mutual

def NodeView.tree (style : Style) : NodeView → Except RenderError Tree
  | ⟨typeName, fieldNames, fieldDesc, fieldValue⟩ => do
      let groups ← fieldNames.mapM fun field =>
        match fieldDesc field with
        | none => .error (.noDescriptor typeName field)
        | some desc => FieldView.children style ⟨typeName, field⟩ (fieldValue field) desc
      return .node typeName groups.flatten
termination_by structural view => view

/-- The children that a value contributes under a descriptor. An integer may
stand for a value of a simple sum. -/
def FieldView.children (style : Style) (site : Site) :
    FieldView → Desc → Except RenderError (List Tree)
  | .unset, _ => site.unsetLeaf style
  | .absent, desc =>
      match desc with
      | .maybe _ => .ok []
      | _ => site.refuse .absent desc
  | .int value, desc =>
      match Form.ofDesc desc with
      | .integer | .name => .ok [.leaf (toString value)]
      | _ => site.refuse (.int value) desc
  | .string value, desc =>
      match Form.ofDesc desc with
      | .text => .ok [.leaf value]
      | _ => site.refuse (.string value) desc
  | .enum tag name, desc =>
      match Form.ofDesc desc with
      | .name => .ok [.leaf (style.enumText tag name)]
      | _ => site.refuse (.enum tag name) desc
  | .node view, desc =>
      match Form.ofDesc desc with
      | .record => return [← NodeView.tree style view]
      | _ => site.refuse (.node view) desc
  | .array elements, desc =>
      match Form.ofDesc desc with
      | .sequence element => FieldView.childrenOfAll style site elements element
      | _ => site.refuse (.array elements) desc
termination_by structural value => value

def FieldView.childrenOfAll (style : Style) (site : Site) :
    List FieldView → Desc → Except RenderError (List Tree)
  | [], _ => .ok []
  | element :: rest, desc => do
      let first ← FieldView.children style site element desc
      let others ← FieldView.childrenOfAll style site rest desc
      return first ++ others
termination_by structural elements => elements

end

/-- The tree of a value that stands outside any field. -/
def FieldView.tree (style : Style) : FieldView → Except RenderError Tree
  | .int value => .ok (.leaf (toString value))
  | .string value => .ok (.leaf value)
  | .enum tag name => .ok (.leaf (style.enumText tag name))
  | .node view => view.tree style
  | value => .error (.notAlone value.kind)

end TreeSchema
