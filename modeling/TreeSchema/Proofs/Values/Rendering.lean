import TreeSchema.Proofs.Values.UnsetSites
import TreeSchema.Proofs.Views.Nesting
import TreeSchema.Values.Text

/-!
Checked records can be rendered. The check decides by the shape of a
descriptor which values a field accepts, and the renderer decides it again by
the form of that descriptor; the second decision never refuses what the first
one accepts, so only a field without a value can stop a rendering, and the
first one in depth-first order is the one that is reported.
-/

namespace TreeSchema

open Render

variable {κ : Type}

/-! ### What a rendering comes to -/

namespace Render

/-- The error for the first of some fields without a value, if the style
refuses such fields. -/
def Style.refusal? (style : Style) (sites : List Site) : Option RenderError :=
  match style.unset with
  | .placeholder => none
  | .reject => sites.head?.map fun site => .unset site.typeName site.field

/-- A step that meets these fields without a value fails for the first one if
the style refuses them, and succeeds otherwise. -/
def Style.Settles {α : Type} (style : Style) (sites : List Site)
    (outcome : Except RenderError α) : Prop :=
  match style.refusal? sites with
  | none => ∃ result, outcome = .ok result
  | some error => outcome = .error error

namespace Style

variable {style : Style} {α β : Type} {sites others : List Site}

@[simp] theorem refusal?_nil : style.refusal? [] = none := by
  unfold refusal?
  split <;> rfl

theorem refusal?_append :
    style.refusal? (sites ++ others) = (style.refusal? sites).or (style.refusal? others) := by
  unfold refusal?
  split
  · rfl
  · cases sites <;> rfl

theorem settles_nil (result : α) : style.Settles [] (.ok result) := by
  rw [Settles, refusal?_nil]
  exact ⟨result, rfl⟩

theorem Settles.bind {first : Except RenderError α} {next : α → Except RenderError β}
    (hfirst : style.Settles sites first) (hnext : ∀ result, style.Settles others (next result)) :
    style.Settles (sites ++ others) (first >>= next) := by
  unfold Settles at hfirst
  split at hfirst
  case h_1 hnone =>
    obtain ⟨result, rfl⟩ := hfirst
    rw [Settles, refusal?_append, hnone, Option.none_or]
    exact hnext result
  case h_2 error hsome =>
    subst hfirst
    rw [Settles, refusal?_append, hsome, Option.some_or]
    rfl

theorem Settles.map {first : Except RenderError α} (hfirst : style.Settles sites first)
    (f : α → β) : style.Settles sites (first >>= fun result => .ok (f result)) := by
  rw [← List.append_nil sites]
  exact hfirst.bind fun result => settles_nil (f result)

theorem Settles.mapM {ι : Type} {items : List ι} {step : ι → Except RenderError α}
    {sitesOf : ι → List Site} (hstep : ∀ item ∈ items, style.Settles (sitesOf item) (step item)) :
    style.Settles (items.flatMap sitesOf) (items.mapM step) := by
  induction items with
  | nil => exact settles_nil []
  | cons item rest ih =>
      obtain ⟨hitem, hrest⟩ := List.forall_mem_cons.mp hstep
      rw [List.mapM_cons, List.flatMap_cons]
      exact hitem.bind fun _ => (ih hrest).map _

theorem Settles.ok_of_placeholder {outcome : Except RenderError α}
    (h : style.Settles sites outcome) (hstyle : style.unset = .placeholder) :
    ∃ result, outcome = .ok result := by
  unfold Settles refusal? at h
  rw [hstyle] at h
  exact h

theorem Settles.ok_iff_of_reject {outcome : Except RenderError α}
    (h : style.Settles sites outcome) (hstyle : style.unset = .reject) :
    (∃ result, outcome = .ok result) ↔ sites = [] := by
  unfold Settles refusal? at h
  rw [hstyle] at h
  cases sites with
  | nil => simpa using h
  | cons site rest =>
      obtain rfl : outcome = .error (.unset site.typeName site.field) := h
      simp

/-- A failure is about the first of the fields without a value. -/
theorem Settles.eq_unset_of_error {outcome : Except RenderError α}
    (h : style.Settles sites outcome) {error : RenderError} (herror : outcome = .error error) :
    ∃ site, sites.head? = some site ∧ error = .unset site.typeName site.field := by
  subst herror
  cases hstyle : style.unset with
  | placeholder =>
      obtain ⟨result, hok⟩ := h.ok_of_placeholder hstyle
      cases hok
  | reject =>
      unfold Settles refusal? at h
      rw [hstyle] at h
      cases sites with
      | nil =>
          obtain ⟨result, hok⟩ := h
          cases hok
      | cons site rest => exact ⟨site, rfl, Except.error.inj h⟩

end Style

end Render

/-! ### The two decisions about a value agree -/

/-- The values that the renderer writes for a form, except that it looks at
the elements of an array again. -/
def Value.Fits : Value κ → Form → Prop
  | .int _, .integer | .int _, .name | .string _, .text | .enum _, .name | .record _, .record =>
      True
  | .array elements, .sequence element => ∀ part ∈ elements, part.conforms element = true
  | _, _ => False

theorem Value.maybe_of_absent_conforms {desc : Desc}
    (h : (absent : Value κ).conforms desc = true) : ∃ inner, desc = .maybe inner := by
  cases desc with
  | maybe inner => exact ⟨inner, rfl⟩
  | _ => cases h

/-- A present value that conforms to a type fits the form of the type. -/
theorem Value.fits_of_conforms {value : Value κ} {desc : Desc}
    (h : value.conforms desc = true) (hpresent : value ≠ .absent) :
    value.Fits (Form.ofDesc desc) := by
  induction desc with
  | int =>
      cases value with
      | int => trivial
      | _ => cases h
  | string =>
      cases value with
      | string => trivial
      | _ => cases h
  | array element =>
      cases value with
      | array elements => exact List.all_eq_true.mp h
      | _ => cases h
  | maybe inner ih =>
      cases value with
      | absent => exact absurd rfl hpresent
      | _ => exact ih h
  | product declared =>
      cases value with
      | record => trivial
      | _ => cases h
  | sum declared =>
      simp only [conforms] at h
      rw [Form.ofDesc]
      cases hsimple : declared.isSimple with
      | false =>
          rw [hsimple] at h
          cases value with
          | record => trivial
          | _ => cases h
      | true =>
          rw [hsimple] at h
          cases value with
          | int | enum => trivial
          | _ => cases h

/-! ### Rendering checked records -/

def Value.slotView : Option (Value κ) → FieldView
  | none => .unset
  | some value => value.view

theorem Value.slotViews_eq (slots : List (Option (Value κ))) :
    Value.slotViews slots = slots.map slotView := by
  induction slots with
  | nil => rfl
  | cons slot rest ih => cases slot <;> rw [slotViews, ih] <;> rfl

/-- A record shows its type and, for each field, the value in its slot. -/
theorem Record.view_eq (record : Record κ) :
    record.view = ⟨record.type.name, record.type.fieldNames, record.type.fieldDesc?,
      fun field => Value.slotView (record.get? field)⟩ := by
  obtain ⟨type, slots, assigned⟩ := record
  rw [view]
  congr 1
  funext field
  unfold get?
  cases type.fieldIndex? field with
  | none => rfl
  | some index =>
      rw [Value.slotViews_eq]
      simp only [List.getD_eq_getElem?_getD, List.getElem?_map, Option.bind_some]
      cases slots[index]? <;> rfl

namespace Record.Checked

variable {record : Record κ}

theorem view_fieldNames (h : record.Checked) :
    record.view.fieldNames =
      (record.type.fields.zip record.slots).map fun item => item.1.name := by
  have hfields : (record.type.fields.zip record.slots).map Prod.fst = record.type.fields :=
    List.map_fst_zip (Nat.le_of_eq h.length.symm)
  calc record.view.fieldNames
    _ = record.type.fields.map TypedField.name := by
      rw [record.view_eq]
      rfl
    _ = ((record.type.fields.zip record.slots).map Prod.fst).map TypedField.name := by
      rw [hfields]
    _ = (record.type.fields.zip record.slots).map fun item => item.1.name := List.map_map

/-- A checked record shows every field with its type and the value in its slot. -/
theorem view_field (h : record.Checked) {field : TypedField} {slot : Option (Value κ)}
    (hmem : (field, slot) ∈ record.type.fields.zip record.slots) :
    record.view.fieldDesc field.name = some field.desc ∧
      record.view.fieldValue field.name = Value.slotView slot := by
  obtain ⟨index, hitem⟩ := List.mem_iff_getElem?.mp hmem
  obtain ⟨hfield, hslot⟩ := List.getElem?_zip_eq_some.mp hitem
  have hlocate : Named.locate field.name record.type.fields = some (index, field) :=
    Named.locate_name h.distinct hfield
  rw [record.view_eq]
  constructor
  · simp [RecordType.fieldDesc?, hlocate]
  · simp [Record.get?, RecordType.fieldIndex?, hlocate, hslot]

theorem conforms_field (h : record.Checked) {field : TypedField} {value : Value κ}
    (hmem : (field, some value) ∈ record.type.fields.zip record.slots) :
    value.conforms field.desc = true := by
  obtain ⟨index, hitem⟩ := List.mem_iff_getElem?.mp hmem
  obtain ⟨hfield, hslot⟩ := List.getElem?_zip_eq_some.mp hitem
  exact h.conforms index field value hfield hslot

end Record.Checked

theorem Render.Site.unsetLeaf_settles (site : Site) (style : Style) :
    style.Settles [site] (site.unsetLeaf style) := by
  unfold Style.Settles Style.refusal? unsetLeaf
  cases style.unset with
  | placeholder => exact ⟨_, rfl⟩
  | reject => rfl

/-- A record settles for the fields without a value in it if the values in its
slots do, each under the type of its field. -/
theorem Record.Checked.tree_settles {record : Record κ} (h : record.Checked) {style : Style}
    (hslots : ∀ value, some value ∈ record.slots → ∀ site desc, value.conforms desc = true →
      style.Settles value.unsetSites (FieldView.children style site value.view desc)) :
    style.Settles record.unsetSites (record.view.tree style) := by
  have hname : record.view.typeName = record.typeName := by
    rw [record.view_eq]
    rfl
  rw [NodeView.tree_eq, Record.unsetSites_eq, h.view_fieldNames, List.mapM_map]
  refine (Style.Settles.mapM ?_).map _
  rintro ⟨field, slot⟩ hmem
  obtain ⟨hdesc, hvalue⟩ := h.view_field hmem
  simp only [Function.comp_apply, NodeView.fieldChildren, hdesc, hvalue, hname]
  cases slot with
  | none =>
      rw [Value.slotView, FieldView.children]
      exact Site.unsetLeaf_settles ⟨record.typeName, field.name⟩ style
  | some value =>
      exact hslots value (List.of_mem_zip hmem).2 _ _ (h.conforms_field hmem)

theorem Value.childrenOfAll_settles {elements : List (Value κ)} {style : Style} {site : Site}
    {desc : Desc} (helements : ∀ element ∈ elements,
      style.Settles element.unsetSites (FieldView.children style site element.view desc)) :
    style.Settles (unsetSitesOfAll elements)
      (FieldView.childrenOfAll style site (views elements) desc) := by
  induction elements with
  | nil => exact Style.settles_nil []
  | cons element rest ih =>
      obtain ⟨helement, hrest⟩ := List.forall_mem_cons.mp helements
      exact helement.bind fun _ => (ih hrest).map _

/-- A value that conforms to a type settles under this type. -/
theorem Value.children_settles {value : Value κ} (h : value.DeeplyChecked) (style : Style)
    (site : Site) {desc : Desc} (hconforms : value.conforms desc = true) :
    style.Settles value.unsetSites (FieldView.children style site value.view desc) := by
  induction value generalizing site desc with
  | absent =>
      obtain ⟨inner, rfl⟩ := maybe_of_absent_conforms hconforms
      exact Style.settles_nil []
  | int n =>
      have hfits := fits_of_conforms hconforms nofun
      rw [view, FieldView.children]
      cases hform : Form.ofDesc desc with
      | integer | name => exact Style.settles_nil _
      | _ => exact (hform ▸ hfits).elim
  | string text =>
      have hfits := fits_of_conforms hconforms nofun
      rw [view, FieldView.children]
      cases hform : Form.ofDesc desc with
      | text => exact Style.settles_nil _
      | _ => exact (hform ▸ hfits).elim
  | enum constant =>
      have hfits := fits_of_conforms hconforms nofun
      rw [view, FieldView.children]
      cases hform : Form.ofDesc desc with
      | name => exact Style.settles_nil _
      | _ => exact (hform ▸ hfits).elim
  | array elements ih =>
      -- All elements are rendered at the site of the array.
      have hfits := fits_of_conforms hconforms nofun
      rw [view, FieldView.children]
      cases hform : Form.ofDesc desc with
      | sequence element =>
          rw [hform] at hfits
          exact childrenOfAll_settles fun part hpart =>
            ih part hpart (h.element hpart) site (hfits part hpart)
      | _ => exact (hform ▸ hfits).elim
  | record type slots assigned ih =>
      -- Conforming says nothing about the slots; what they hold is known from
      -- the record being checked in depth.
      have hrecord := deeplyChecked_record.mp h
      have hfits := fits_of_conforms hconforms nofun
      rw [view, FieldView.children]
      cases hform : Form.ofDesc desc with
      | record =>
          refine (hrecord.checked.tree_settles ?_).map _
          intro value hslot inner expected hvalue
          exact ih value hslot (hrecord.slot hslot) inner hvalue
      | _ => exact (hform ▸ hfits).elim

namespace Record

variable {record : Record κ}

theorem DeeplyChecked.render_settles (h : record.DeeplyChecked) (style : Style) :
    style.Settles record.unsetSites (record.render style) := by
  have htree : style.Settles record.unsetSites (record.view.tree style) := by
    refine h.checked.tree_settles ?_
    intro value hslot site desc hconforms
    exact Value.children_settles (h.slot hslot) style site hconforms
  exact htree.map _

variable [FieldCheck κ]

/-- Records that were built from standard types can always be rendered, except
that a style which refuses fields without a value needs every record inside to
be complete; the error is then about the first such field, depth first. -/
theorem Built.renders (h : record.Built) (style : Style) :
    (∀ error, record.render style = .error error →
        ∃ typeName field, error = .unset typeName field) ∧
      (style.unset = .placeholder → ∃ text, record.render style = .ok text) ∧
      record.render {} = .ok record.text ∧
      (style.unset = .reject →
        ((∃ text, record.render style = .ok text) ↔
            ∀ nested ∈ record.records, nested.ensureComplete = .ok ()) ∧
          ((∃ nested ∈ record.records, nested.ensureComplete ≠ .ok ()) →
            ∃ site, record.unsetSites.head? = some site ∧
              record.render style = .error (.unset site.typeName site.field))) := by
  have hdeep := h.deeplyChecked
  have hsettles := hdeep.render_settles style
  refine ⟨?_, hsettles.ok_of_placeholder, ?_, ?_⟩
  · intro error herror
    obtain ⟨site, -, rfl⟩ := hsettles.eq_unset_of_error herror
    exact ⟨site.typeName, site.field, rfl⟩
  · obtain ⟨text, hok⟩ := (hdeep.render_settles {}).ok_of_placeholder rfl
    rw [Record.text, hok]
  · intro hreject
    have hok : (∃ text, record.render style = .ok text) ↔
        ∀ nested ∈ record.records, nested.ensureComplete = .ok () :=
      (hsettles.ok_iff_of_reject hreject).trans (unsetSites_eq_nil_iff hdeep)
    refine ⟨hok, ?_⟩
    rintro ⟨nested, hnested, hincomplete⟩
    cases hrender : record.render style with
    | ok text => exact absurd (hok.mp ⟨text, hrender⟩ nested hnested) hincomplete
    | error error =>
        obtain ⟨site, hfirst, rfl⟩ := hsettles.eq_unset_of_error hrender
        exact ⟨site, hfirst, rfl⟩

/-- A record that is itself complete, around one whose field has no value. -/
theorem Built.renders_unset_inside :
    let single : Product := ⟨0, "leaf", [⟨"n", "int", false, false⟩]⟩
    let double : Product :=
      ⟨1, "pair", [⟨"left", "leaf", false, false⟩, ⟨"more", "leaf", false, true⟩]⟩
    let synthesis : Synthesis Empty :=
      ⟨0, ⟨"pairs", [⟨"leaf", .product single⟩, ⟨"pair", .product double⟩]⟩, .descriptor⟩
    let leaf : RecordType Empty :=
      ⟨0, "leaf", .product single, [⟨"n", .int⟩], .descriptor⟩
    let pair : RecordType Empty :=
      ⟨0, "pair", .product double,
        [⟨"left", .product single⟩, ⟨"more", .array (.product single)⟩], .descriptor⟩
    let record : Record Empty :=
      ⟨pair, [some (.record (.blank leaf)), some (.array [])], ((IndexSet.withSize 2).insert 0).1⟩
    synthesis.run = .ok ⟨[.record leaf, .record pair], []⟩ ∧
      record.Built ∧ record.ensureComplete = .ok () ∧ record.render {} = .ok record.text ∧
      record.render ({} : Style).rejectUnset = .error (.unset "leaf" "n") := by
  intro single double synthesis leaf pair record
  have hrun : synthesis.run = .ok ⟨[.record leaf, .record pair], []⟩ := rfl
  have hleaf : leaf.Standard := ⟨synthesis, _, rfl, hrun, .inl List.mem_cons_self⟩
  have hpair : pair.Standard :=
    ⟨synthesis, _, rfl, hrun, .inl (List.mem_cons_of_mem _ List.mem_cons_self)⟩
  have hset : (Record.blank pair).set "left" (.record (.blank leaf)) = .ok record := by
    simp only [record, pair, leaf, double, single]
    rfl
  have hbuilt : record.Built := .set (.blank hpair) (.record (.blank hleaf)) hset
  obtain ⟨-, -, hdefault, hreject⟩ := hbuilt.renders ({} : Style).rejectUnset
  have hinside : Record.blank leaf ∈ record.records :=
    Record.mem_records.mpr (.inr ⟨_, List.mem_cons_self, List.mem_cons_self⟩)
  obtain ⟨site, hsite, hfails⟩ := (hreject rfl).2 ⟨_, hinside, nofun⟩
  obtain rfl : ⟨"leaf", "n"⟩ = site := Option.some.inj hsite
  exact ⟨hrun, hbuilt, rfl, hdefault, hfails⟩

end Record

end TreeSchema
