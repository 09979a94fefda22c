import TreeSchema.Proofs.Outcomes
import TreeSchema.Proofs.Views.Nesting

/-!
What the fields of a record contribute to its tree. The rules below say it value
by value: a value that has a tree of its own contributes just that tree, an array
what its elements contribute, one after the other, an absent maybe nothing, and a
value that is missing its placeholder. The renderer gives a value children
exactly when the rules do, and the same ones.
-/

namespace TreeSchema

open Render

/-- A value with a tree of its own is of a type that is neither a maybe nor an
array. An integer may be the tag of a constant. -/
inductive FieldView.Suits : FieldView → Desc → Prop
  | int {value : Int} : Suits (.int value) .int
  | string {value : String} : Suits (.string value) .string
  | tag {value : Int} {declared : Sum} : declared.isSimple = true →
      Suits (.int value) (.sum declared)
  | constant {tag : UInt32} {name : String} {declared : Sum} : declared.isSimple = true →
      Suits (.enum tag name) (.sum declared)
  | product {view : NodeView} {declared : Product} : Suits (.node view) (.product declared)
  | variant {view : NodeView} {declared : Sum} : declared.isSimple = false →
      Suits (.node view) (.sum declared)

/-- The children that a value of the field contributes under a descriptor. -/
inductive FieldView.Contributes (style : Style) (field : String) :
    FieldView → Desc → List Tree → Prop
  | alone {value : FieldView} {desc : Desc} {tree : Tree} :
      value.Suits desc → value.tree style = .ok tree →
      Contributes style field value desc [tree]
  | absent {inner : Desc} : Contributes style field .absent (.maybe inner) []
  | present {value : FieldView} {inner : Desc} {trees : List Tree} :
      Contributes style field value inner trees →
      Contributes style field value (.maybe inner) trees
  | array {elements : List FieldView} {element : Desc} {parts : List (List Tree)} :
      elements.length = parts.length →
      (∀ part trees, (part, trees) ∈ elements.zip parts →
        Contributes style field part element trees) →
      Contributes style field (.array elements) (.array element) parts.flatten
  | unset {desc : Desc} : style.unset = .placeholder →
      Contributes style field .unset desc [.leaf (field ++ ":?")]

namespace FieldView

variable {style : Style} {site : Site}

/-- A value of its own type contributes its own tree, if it has one. -/
theorem children_of_suits {value : FieldView} {desc : Desc} (h : value.Suits desc) :
    children style site value desc = value.tree style >>= fun tree => .ok [tree] := by
  cases h with
  | int | string | product => rfl
  | tag hsimple | constant hsimple | variant hsimple =>
      rw [children, Form.ofDesc, hsimple]
      rfl

theorem contributes_of_suits {value : FieldView} {desc : Desc} {trees : List Tree}
    (hsuits : value.Suits desc) (h : children style site value desc = .ok trees) :
    value.Contributes style site.field desc trees := by
  rw [children_of_suits hsuits] at h
  obtain ⟨tree, htree, h⟩ := bind_eq_ok_iff.mp h
  cases h
  exact .alone hsuits htree

theorem contributes_of_unset {desc : Desc} {trees : List Tree}
    (h : children style site .unset desc = .ok trees) :
    Contributes style site.field .unset desc trees := by
  rw [children, Site.unsetLeaf] at h
  split at h
  case h_1 hstyle =>
    cases h
    exact .unset hstyle
  case h_2 => cases h

/-- What the renderer gives a value follows the rules. The induction is on the
descriptor: elements are rendered under a smaller one, and a nested record is
taken as it stands. -/
theorem contributes_of_children {value : FieldView} {desc : Desc} {trees : List Tree}
    (h : children style site value desc = .ok trees) :
    value.Contributes style site.field desc trees := by
  induction desc generalizing value trees with
  | int =>
      cases value with
      | unset => exact contributes_of_unset h
      | int value => exact contributes_of_suits .int h
      | _ => cases h
  | string =>
      cases value with
      | unset => exact contributes_of_unset h
      | string value => exact contributes_of_suits .string h
      | _ => cases h
  | product declared =>
      cases value with
      | unset => exact contributes_of_unset h
      | node view => exact contributes_of_suits .product h
      | _ => cases h
  | sum declared =>
      cases hsimple : declared.isSimple with
      | true =>
          have hform : Form.ofDesc (.sum declared) = .name := by rw [Form.ofDesc, hsimple, if_pos rfl]
          cases value with
          | unset => exact contributes_of_unset h
          | int value => exact contributes_of_suits (.tag hsimple) h
          | enum tag name => exact contributes_of_suits (.constant hsimple) h
          | absent => cases h
          | _ =>
              rw [children, hform] at h
              cases h
      | false =>
          have hform : Form.ofDesc (.sum declared) = .record := by
            rw [Form.ofDesc, hsimple, if_neg Bool.false_ne_true]
          cases value with
          | unset => exact contributes_of_unset h
          | node view => exact contributes_of_suits (.variant hsimple) h
          | absent => cases h
          | _ =>
              rw [children, hform] at h
              cases h
  | maybe inner ih =>
      by_cases habsent : value = .absent
      · subst habsent
        cases h
        exact .absent
      · rw [children_maybe habsent] at h
        exact .present (ih h)
  | array element ih =>
      cases value with
      | unset => exact contributes_of_unset h
      | array elements =>
          have helements : childrenOfAll style site elements element = .ok trees := h
          rw [childrenOfAll_eq] at helements
          obtain ⟨parts, hparts, hflat⟩ := bind_eq_ok_iff.mp helements
          cases hflat
          obtain ⟨hlength, hzip⟩ := List.forall₂_iff_zip.mp (mapM_eq_ok_iff.mp hparts)
          exact .array hlength fun part trees hmem => ih (hzip hmem)
      | _ => cases h

/-- The rules give nothing that the renderer does not. -/
theorem children_of_contributes {value : FieldView} {desc : Desc} {trees : List Tree}
    (h : value.Contributes style site.field desc trees) :
    children style site value desc = .ok trees := by
  induction h with
  | alone hsuits htree =>
      rw [children_of_suits hsuits, htree]
      rfl
  | absent => rfl
  | @present value inner trees _ ih =>
      by_cases habsent : value = .absent
      · subst habsent
        cases inner with
        | maybe => exact ih
        | _ => cases ih
      · rw [children_maybe habsent, ih]
  | @array elements element parts hlength _ ih =>
      have hparts : elements.mapM (fun part => children style site part element) = .ok parts :=
        mapM_eq_ok_iff.mpr (List.forall₂_iff_zip.mpr ⟨hlength, fun hmem => ih _ _ hmem⟩)
      change childrenOfAll style site elements element = .ok parts.flatten
      rw [childrenOfAll_eq, hparts]
      rfl
  | unset hstyle => rw [children, Site.unsetLeaf, hstyle]

theorem children_eq_ok_iff {value : FieldView} {desc : Desc} {trees : List Tree} :
    children style site value desc = .ok trees ↔
      value.Contributes style site.field desc trees :=
  ⟨contributes_of_children, children_of_contributes⟩

end FieldView

theorem NodeView.fieldChildren_eq_ok_iff {style : Style} {view : NodeView} {field : String}
    {trees : List Tree} :
    view.fieldChildren style field = .ok trees ↔
      ∃ desc, view.fieldDesc field = some desc ∧
        (view.fieldValue field).Contributes style field desc trees := by
  unfold fieldChildren
  cases view.fieldDesc field with
  | none => simp
  | some desc =>
      rw [FieldView.children_eq_ok_iff]
      simp

/-- A record is flattened field by field. Its tree is the node of its type name
over what the values of its fields contribute, in the order of the fields: a value
that has a tree of its own just that tree, an array the contributions of its
elements in their order, an absent maybe nothing, a value that is missing the
placeholder of its field. There is a tree whenever each field that is listed has a
descriptor under which its value contributes. -/
theorem NodeView.tree_eq_ok_iff (view : NodeView) (style : Style) (tree : Tree) :
    view.tree style = .ok tree ↔
      ∃ parts : List (List Tree), tree = .node view.typeName parts.flatten ∧
        List.Forall₂ (fun field trees => ∃ desc, view.fieldDesc field = some desc ∧
          (view.fieldValue field).Contributes style field desc trees) view.fieldNames parts := by
  rw [tree_eq, bind_eq_ok_iff]
  simp only [mapM_eq_ok_iff, fieldChildren_eq_ok_iff]
  constructor
  · rintro ⟨parts, hparts, h⟩
    exact ⟨parts, (Except.ok.inj h).symm, hparts⟩
  · rintro ⟨parts, rfl, hparts⟩
    exact ⟨parts, hparts, rfl⟩

end TreeSchema
