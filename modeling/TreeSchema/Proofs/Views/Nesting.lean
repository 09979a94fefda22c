import TreeSchema.Render.ViewTree

/-!
Views as data: induction over a value and the values that it shows, and the tree
of a record as one step per listed field.
-/

namespace TreeSchema

open Render

@[elab_as_elim, induction_eliminator]
theorem FieldView.induct {motive : FieldView → Prop}
    (unset : motive .unset) (absent : motive .absent)
    (int : ∀ value, motive (.int value))
    (string : ∀ value, motive (.string value))
    (enum : ∀ tag name, motive (.enum tag name))
    (node : ∀ view : NodeView, (∀ field, motive (view.fieldValue field)) → motive (.node view))
    (array : ∀ elements, (∀ element ∈ elements, motive element) → motive (.array elements))
    (value : FieldView) : motive value := by
  -- fields are answered by a function, so the size of a value is no measure
  refine @FieldView.rec (fun view => ∀ field, motive (view.fieldValue field)) motive
    (fun elements => ∀ element ∈ elements, motive element)
    (fun _ _ _ _ hfields => hfields) unset absent int string enum node array nofun ?_ value
  intro element rest helement hrest
  exact List.forall_mem_cons.mpr ⟨helement, hrest⟩

/-- What a listed field adds to the tree of its record. -/
def NodeView.fieldChildren (style : Style) (view : NodeView) (field : String) :
    Except RenderError (List Tree) :=
  match view.fieldDesc field with
  | none => .error (.noDescriptor view.typeName field)
  | some desc =>
      FieldView.children style ⟨view.typeName, field⟩ (view.fieldValue field) desc

theorem NodeView.tree_eq (style : Style) (view : NodeView) :
    view.tree style =
      view.fieldNames.mapM (view.fieldChildren style) >>=
        fun groups => .ok (.node view.typeName groups.flatten) := by
  cases view
  rw [tree]
  rfl

namespace FieldView

variable {style : Style} {site : Site}

theorem childrenOfAll_eq (elements : List FieldView) (desc : Desc) :
    childrenOfAll style site elements desc =
      elements.mapM (fun element => children style site element desc) >>=
        fun groups => .ok groups.flatten := by
  induction elements with
  | nil => rfl
  | cons element rest ih =>
      rw [childrenOfAll, ih, List.mapM_cons]
      cases children style site element desc with
      | error error => rfl
      | ok first =>
          cases rest.mapM fun element => children style site element desc <;> rfl

/-- Maybes around a descriptor matter to an absent value only. -/
theorem children_maybe {value : FieldView} (hpresent : value ≠ .absent) (inner : Desc) :
    children style site value (.maybe inner) = children style site value inner := by
  cases value with
  | absent => exact absurd rfl hpresent
  | _ => rfl

end FieldView

end TreeSchema
