import TreeSchema.Schema.Desc
import TreeSchema.Text.Quoted

/-!
What a renderer may ask of a record: the name of its type, its field names in
order, and for each name a descriptor and a value. Nothing ties the four
answers together; a view whose answers disagree is refused when it is rendered.
-/

namespace TreeSchema

mutual

structure NodeView where
  typeName : String
  fieldNames : List String
  /-- `none` for a name that is no field. -/
  fieldDesc : String → Option Desc
  fieldValue : String → FieldView

/-- `unset` is a field without a value; `absent` is the value of a maybe that
holds nothing. -/
inductive FieldView where
  | unset
  | absent
  | int (value : Int)
  | string (value : String)
  | enum (tag : UInt32) (name : String)
  | node (view : NodeView)
  | array (elements : List FieldView)

end

namespace FieldView

def isUnset : FieldView → Bool
  | .unset => true
  | _ => false

def kind : FieldView → String
  | .unset => "unset value"
  | .absent => "absent value"
  | .int _ => "integer"
  | .string _ => "string"
  | .enum .. => "enum value"
  | .node _ => "node"
  | .array _ => "array"

mutual

/-- One-line inspection text. A nested record shows its type name only. -/
def inspect : FieldView → String
  | .unset => "Unset"
  | .absent => "Absent"
  | .int value => "Int(" ++ toString value ++ ")"
  | .string value => "Str(" ++ Text.quoted value ++ ")"
  | .enum tag name =>
      "Enum \x7b tag: " ++ toString tag.toNat ++ ", name: " ++ Text.quoted name ++ " \x7d"
  | .node view => "Node(" ++ Text.quoted view.typeName ++ ")"
  | .array elements => "Array([" ++ String.intercalate ", " (inspectAll elements) ++ "])"

def inspectAll : List FieldView → List String
  | [] => []
  | element :: rest => inspect element :: inspectAll rest

end

end FieldView

end TreeSchema
