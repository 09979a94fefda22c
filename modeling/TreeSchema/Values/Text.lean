import TreeSchema.Render.Text
import TreeSchema.Values.Assign

/-!
Records and values as text: rendered through their view, and inspected on one
line with every slot shown.
-/

namespace TreeSchema

open Render

variable {κ : Type}

mutual

def Record.view : Record κ → NodeView
  | ⟨type, slots, _⟩ =>
      let shown := Value.slotViews slots
      { typeName := type.name
        fieldNames := type.fieldNames
        fieldDesc := type.fieldDesc?
        fieldValue := fun field =>
          match type.fieldIndex? field with
          | some index => shown.getD index .unset
          | none => .unset }
termination_by structural record => record

def Value.view : Value κ → FieldView
  | .int value => .int value
  | .string value => .string value
  | .enum value => .enum value.tag value.name
  | .record given => .node given.view
  | .array elements => .array (Value.views elements)
  | .absent => .absent
termination_by structural value => value

def Value.views : List (Value κ) → List FieldView
  | [] => []
  | element :: rest => element.view :: Value.views rest
termination_by structural elements => elements

def Value.slotViews : List (Option (Value κ)) → List FieldView
  | [] => []
  | none :: rest => .unset :: Value.slotViews rest
  | some value :: rest => value.view :: Value.slotViews rest
termination_by structural slots => slots

end

mutual

def Record.inspect : Record κ → String
  | ⟨type, slots, _⟩ =>
      type.name ++ " \x7b " ++ Value.inspectSlots type.fieldNames slots ++ ".. \x7d"
termination_by structural record => record

def Value.inspect : Value κ → String
  | .int value => "Int(" ++ toString value ++ ")"
  | .string value => "Str(" ++ Text.quoted value ++ ")"
  | .enum value => "Enum(" ++ value.inspect ++ ")"
  | .record given => "Obj(" ++ given.inspect ++ ")"
  | .array elements => "Array([" ++ String.intercalate ", " (Value.inspectAll elements) ++ "])"
  | .absent => "Absent"
termination_by structural value => value

def Value.inspectAll : List (Value κ) → List String
  | [] => []
  | element :: rest => element.inspect :: Value.inspectAll rest
termination_by structural elements => elements

def Value.inspectSlots (names : List String) : List (Option (Value κ)) → String
  | [] => ""
  | none :: rest =>
      names.headD "" ++ ": <unset>, " ++ Value.inspectSlots names.tail rest
  | some value :: rest =>
      names.headD "" ++ ": " ++ value.inspect ++ ", " ++ Value.inspectSlots names.tail rest
termination_by structural slots => slots

end

namespace Value

def render (value : Value κ) (style : Style) : Except RenderError String :=
  value.view.render style

end Value

namespace Record

def render (record : Record κ) (style : Style) : Except RenderError String :=
  record.view.render style

/-- The record in the default style, or its type and what went wrong. -/
def text (record : Record κ) : String :=
  match record.render {} with
  | .ok text => text
  | .error error => "<" ++ record.typeName ++ ": " ++ error.message ++ ">"

end Record

end TreeSchema
