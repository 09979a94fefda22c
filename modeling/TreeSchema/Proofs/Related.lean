import Mathlib.Data.List.Forall2

/-!
Lists whose items are related one by one: what stands at a position of one of them
and what is found in it.
-/

namespace TreeSchema

variable {α β : Type} {related : α → β → Prop} {left : List α} {right : List β}

/-- Lists that are related one by one have the same positions. -/
theorem forall₂_getElem? (h : List.Forall₂ related left right) (position : Nat) :
    (left[position]? = none ∧ right[position]? = none) ∨
      ∃ first second, left[position]? = some first ∧ right[position]? = some second ∧
        related first second := by
  induction h generalizing position with
  | nil => exact .inl ⟨rfl, rfl⟩
  | @cons first second _ _ hhead _ ih =>
      cases position with
      | zero => exact .inr ⟨first, second, rfl, rfl, hhead⟩
      | succ later => exact ih later

theorem forall₂_mem_left (h : List.Forall₂ related left right) {first : α} (hmem : first ∈ left) :
    ∃ second ∈ right, related first second := by
  obtain ⟨position, hposition⟩ := List.mem_iff_getElem?.mp hmem
  rcases forall₂_getElem? h position with ⟨hnone, -⟩ | ⟨found, second, hfound, hsecond, hrelated⟩
  · rw [hposition] at hnone
    cases hnone
  · obtain rfl : first = found := Option.some.inj (hposition.symm.trans hfound)
    exact ⟨second, List.mem_of_getElem? hsecond, hrelated⟩

theorem forall₂_mem_right (h : List.Forall₂ related left right) {second : β}
    (hmem : second ∈ right) : ∃ first ∈ left, related first second :=
  forall₂_mem_left h.flip hmem

end TreeSchema
