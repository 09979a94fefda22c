import TreeSchema.Proofs.Outcomes
import TreeSchema.Proofs.Views.Nesting

/-!
The policy for values that are missing. Two renderings that differ in this policy
only go through the same values in the same order, up to the first fault. If that
is a missing value, the strict one stops there, whatever the lenient one meets
later; any other fault stops both of them. So what becomes of a strict rendering is
told by the lenient one and by the list of all missing values.
-/

namespace TreeSchema

open Render

/-! ### Missing values -/

mutual

/-- The fields and array elements without a value, in this record and in all
records inside it, depth first. Each is told by the field that it was met in. -/
def NodeView.unsetSites : NodeView → List Site
  | ⟨typeName, fieldNames, _, fieldValue⟩ =>
      fieldNames.flatMap fun field => FieldView.unsetSites ⟨typeName, field⟩ (fieldValue field)
termination_by structural view => view

def FieldView.unsetSites (site : Site) : FieldView → List Site
  | .unset => [site]
  | .node view => view.unsetSites
  | .array elements => FieldView.unsetSitesOfAll site elements
  | _ => []
termination_by structural value => value

def FieldView.unsetSitesOfAll (site : Site) : List FieldView → List Site
  | [] => []
  | element :: rest => element.unsetSites site ++ FieldView.unsetSitesOfAll site rest
termination_by structural elements => elements

end

theorem NodeView.unsetSites_eq (view : NodeView) :
    view.unsetSites = view.fieldNames.flatMap fun field =>
      (view.fieldValue field).unsetSites ⟨view.typeName, field⟩ := by
  cases view
  rw [unsetSites]

theorem FieldView.unsetSitesOfAll_eq (site : Site) (elements : List FieldView) :
    unsetSitesOfAll site elements = elements.flatMap (unsetSites site) := by
  induction elements with
  | nil => rfl
  | cons element rest ih => rw [unsetSitesOfAll, ih, List.flatMap_cons]

/-! ### Two runs side by side -/

namespace Render

/-- The view is at fault, and not only incomplete. -/
def RenderError.isMalformed : RenderError → Bool
  | .unset .. => false
  | _ => true

/-- How a lenient and a strict run over the same values can end when these are the
values that are missing. -/
inductive Parallel {α : Type} (sites : List Site) :
    Except RenderError α → Except RenderError α → Prop
  | stopped {error : RenderError} : error.isMalformed = true →
      Parallel sites (.error error) (.error error)
  | finished {result : α} : sites = [] → Parallel sites (.ok result) (.ok result)
  | refused {lenient : Except RenderError α} {site : Site} {rest : List Site} :
      sites = site :: rest → (∀ error, lenient = .error error → error.isMalformed = true) →
      Parallel sites lenient (.error (.unset site.typeName site.field))

namespace Parallel

variable {α β : Type} {sites others : List Site} {lenient strict : Except RenderError α}

theorem isMalformed (h : Parallel sites lenient strict) {error : RenderError}
    (herror : lenient = .error error) : error.isMalformed = true := by
  cases h with
  | stopped hmalformed =>
      cases herror
      exact hmalformed
  | finished => cases herror
  | refused _ hmalformed => exact hmalformed error herror

theorem bind {next after : α → Except RenderError β} (h : Parallel sites lenient strict)
    (hnext : ∀ result, Parallel others (next result) (after result)) :
    Parallel (sites ++ others) (lenient >>= next) (strict >>= after) := by
  cases h with
  | stopped hmalformed => exact .stopped hmalformed
  | @finished result hnone =>
      subst hnone
      exact hnext result
  | @refused _ site rest hsites hmalformed =>
      subst hsites
      apply Parallel.refused rfl
      intro error herror
      rcases bind_eq_error_iff.mp herror with hlenient | ⟨result, -, hafter⟩
      · exact hmalformed error hlenient
      · exact (hnext result).isMalformed hafter

theorem map (h : Parallel sites lenient strict) (f : α → β) :
    Parallel sites (lenient >>= fun result => .ok (f result))
      (strict >>= fun result => .ok (f result)) := by
  rw [← List.append_nil sites]
  exact h.bind fun _ => .finished rfl

theorem mapM {ι : Type} {items : List ι} {step other : ι → Except RenderError α}
    {sitesOf : ι → List Site}
    (hstep : ∀ item ∈ items, Parallel (sitesOf item) (step item) (other item)) :
    Parallel (items.flatMap sitesOf) (items.mapM step) (items.mapM other) := by
  induction items with
  | nil => exact .finished rfl
  | cons item rest ih =>
      obtain ⟨hitem, hrest⟩ := List.forall_mem_cons.mp hstep
      rw [List.mapM_cons, List.mapM_cons, List.flatMap_cons]
      exact hitem.bind fun _ => (ih hrest).map _

end Parallel

namespace Style

/-- The style with a placeholder for every missing value. -/
def lenient (style : Style) : Style := { style with unset := .placeholder }

end Style

end Render

/-! ### Renderings that differ in the policy -/

theorem NodeView.tree_parallel {style : Style} {view : NodeView}
    (hfields : ∀ field site desc, Parallel ((view.fieldValue field).unsetSites site)
      (FieldView.children style.lenient site (view.fieldValue field) desc)
      (FieldView.children style.rejectUnset site (view.fieldValue field) desc)) :
    Parallel view.unsetSites (view.tree style.lenient) (view.tree style.rejectUnset) := by
  rw [tree_eq, tree_eq, unsetSites_eq]
  refine (Parallel.mapM ?_).map _
  intro field _
  unfold fieldChildren
  cases view.fieldDesc field with
  | none => exact .stopped rfl
  | some desc => exact hfields field _ desc

theorem FieldView.children_parallel (style : Style) (value : FieldView) (site : Site)
    (desc : Desc) :
    Parallel (value.unsetSites site) (children style.lenient site value desc)
      (children style.rejectUnset site value desc) := by
  induction value generalizing site desc with
  | unset => exact .refused rfl nofun
  | absent =>
      cases desc with
      | maybe inner => exact .finished rfl
      | _ => exact .stopped rfl
  | int value =>
      rw [children, children]
      cases Form.ofDesc desc with
      | integer | name => exact .finished rfl
      | _ => exact .stopped rfl
  | string value =>
      rw [children, children]
      cases Form.ofDesc desc with
      | text => exact .finished rfl
      | _ => exact .stopped rfl
  | enum tag name =>
      rw [children, children]
      cases Form.ofDesc desc with
      | name => exact .finished rfl
      | _ => exact .stopped rfl
  | node view ih =>
      rw [children, children]
      cases Form.ofDesc desc with
      | record => exact (NodeView.tree_parallel ih).map _
      | _ => exact .stopped rfl
  | array elements ih =>
      rw [children, children]
      cases Form.ofDesc desc with
      | sequence element =>
          change Parallel (unsetSitesOfAll site elements)
            (childrenOfAll style.lenient site elements element)
            (childrenOfAll style.rejectUnset site elements element)
          rw [unsetSitesOfAll_eq, childrenOfAll_eq, childrenOfAll_eq]
          exact (Parallel.mapM fun part hpart => ih part hpart site element).map _
      | _ => exact .stopped rfl

/-- Refusing missing values instead of writing a placeholder matters to views with
a missing value only. A strict tree is the lenient one, and there is one just when
there is a lenient one and no value is missing, at any depth. A malformed value that
stops the strict run stops the lenient one too. A lenient run is stopped by nothing
else, and then the strict one is stopped by the same value or by a missing one. The
missing value that is reported is the first of all, depth first. -/
theorem NodeView.unset_policy (view : NodeView) (style : Style) :
    let lenient := view.tree style.lenient
    let strict := view.tree style.rejectUnset
    (∀ tree, strict = .ok tree ↔ lenient = .ok tree ∧ view.unsetSites = []) ∧
      (∀ error, error.isMalformed = true → strict = .error error → lenient = .error error) ∧
      (∀ error, lenient = .error error → error.isMalformed = true ∧
        (strict = .error error ∨ ∃ site : Site, strict = .error (.unset site.typeName site.field))) ∧
      ∀ typeName field, strict = .error (.unset typeName field) →
        view.unsetSites.head? = some ⟨typeName, field⟩ := by
  intro lenient strict
  have hruns : Parallel view.unsetSites lenient strict :=
    tree_parallel fun field site desc =>
      (view.fieldValue field).children_parallel style site desc
  have hmalformed : ∀ error, lenient = .error error → error.isMalformed = true :=
    fun _ => hruns.isMalformed
  generalize lenient = loose at hruns hmalformed ⊢
  generalize strict = tight at hruns ⊢
  cases hruns with
  | @stopped error herror =>
      refine ⟨fun _ => ⟨nofun, nofun⟩, fun _ _ h => h, fun _ h => ⟨hmalformed _ h, .inl h⟩, ?_⟩
      rintro typeName field ⟨⟩
      cases herror
  | finished hnone =>
      refine ⟨fun _ => ⟨fun h => ⟨h, hnone⟩, fun h => h.1⟩, nofun, nofun, nofun⟩
  | @refused _ site rest hsites =>
      refine ⟨?_, ?_, fun _ h => ⟨hmalformed _ h, .inr ⟨site, rfl⟩⟩, ?_⟩
      · intro tree
        rw [hsites]
        exact ⟨nofun, nofun⟩
      · rintro error herror ⟨⟩
        cases herror
      · rintro typeName field ⟨⟩
        rw [hsites]
        rfl

/-- A missing value two levels down, and behind it a string where an integer belongs:
the lenient run gets as far as the string, the strict one does not. -/
theorem NodeView.unset_policy_before_mismatch :
    let point : NodeView :=
      ⟨"point", ["x", "y"], fun _ => some .int,
        fun field => if field = "x" then .int 1 else .unset⟩
    let line : NodeView :=
      ⟨"line", ["ends", "width"],
        fun field => if field = "ends" then some (.array (.product ⟨0, "point", []⟩)) else some .int,
        fun field => if field = "ends" then .array [.node point, .node point] else .string "thin"⟩
    let style : Style := {}
    line.tree style.lenient = .error (.unexpected "line" "width" .int "string") ∧
      line.tree style.rejectUnset = .error (.unset "point" "y") ∧
      line.unsetSites.head? = some ⟨"point", "y"⟩ := by
  intro point line style
  have hstrict : line.tree style.rejectUnset = .error (.unset "point" "y") := rfl
  obtain ⟨-, -, -, hfirst⟩ := line.unset_policy style
  exact ⟨rfl, hstrict, hfirst "point" "y" hstrict⟩

end TreeSchema
