import TreeSchema.Proofs.Related

/-!
Computations that end in a result or an error: what the end of a sequence, of a
mapped list or of a fold says about its steps. Where a state is kept along the
way, a failure ends in the state that was reached by then.
-/

namespace TreeSchema

/-- A sequence of two steps succeeds when both do. -/
theorem bind_eq_ok_iff {ε α β : Type} {first : Except ε α} {next : α → Except ε β} {result : β} :
    (first >>= next) = .ok result ↔ ∃ value, first = .ok value ∧ next value = .ok result := by
  cases first with
  | error flaw => exact ⟨nofun, nofun⟩
  | ok value =>
      constructor
      · intro h
        exact ⟨value, rfl, h⟩
      · rintro ⟨_, ⟨rfl⟩, h⟩
        exact h

/-- It fails with the first step that does. -/
theorem bind_eq_error_iff {ε α β : Type} {first : Except ε α} {next : α → Except ε β} {error : ε} :
    (first >>= next) = .error error ↔
      first = .error error ∨ ∃ value, first = .ok value ∧ next value = .error error := by
  cases first with
  | error flaw =>
      constructor
      · rintro ⟨⟩
        exact .inl rfl
      · rintro (⟨⟨⟩⟩ | ⟨_, ⟨⟩, _⟩)
        rfl
  | ok value =>
      constructor
      · intro h
        exact .inr ⟨value, rfl, h⟩
      · rintro (⟨⟨⟩⟩ | ⟨_, ⟨rfl⟩, h⟩)
        exact h

theorem mapError_eq_ok_iff {ε δ α : Type} {outcome : Except ε α} {f : ε → δ} {result : α} :
    outcome.mapError f = .ok result ↔ outcome = .ok result := by
  cases outcome with
  | error flaw => exact ⟨nofun, nofun⟩
  | ok value =>
      constructor <;>
      · rintro ⟨rfl⟩
        rfl

theorem mapError_eq_error_iff {ε δ α : Type} {outcome : Except ε α} {f : ε → δ} {error : δ} :
    outcome.mapError f = .error error ↔ ∃ cause, outcome = .error cause ∧ f cause = error := by
  cases outcome with
  | ok value => exact ⟨nofun, nofun⟩
  | error cause =>
      constructor
      · rintro ⟨rfl⟩
        exact ⟨cause, rfl, rfl⟩
      · rintro ⟨_, ⟨rfl⟩, rfl⟩
        rfl

theorem mapM_cons_eq_ok_iff {ε α β : Type} {f : α → Except ε β} {item : α} {rest : List α}
    {results : List β} :
    (item :: rest).mapM f = .ok results ↔
      ∃ first others, f item = .ok first ∧ rest.mapM f = .ok others ∧
        first :: others = results := by
  rw [List.mapM_cons]
  constructor
  · intro h
    obtain ⟨first, hfirst, h⟩ := bind_eq_ok_iff.mp h
    obtain ⟨others, hothers, h⟩ := bind_eq_ok_iff.mp h
    exact ⟨first, others, hfirst, hothers, Except.ok.inj h⟩
  · rintro ⟨first, others, hfirst, hothers, rfl⟩
    exact bind_eq_ok_iff.mpr ⟨first, hfirst, bind_eq_ok_iff.mpr ⟨others, hothers, rfl⟩⟩

/-- A mapped list succeeds when every item does, with the results in the same order. -/
theorem mapM_eq_ok_iff {ε α β : Type} {f : α → Except ε β} {items : List α} {results : List β} :
    items.mapM f = .ok results ↔
      List.Forall₂ (fun item result => f item = .ok result) items results := by
  induction items generalizing results with
  | nil =>
      rw [List.forall₂_nil_left_iff]
      constructor
      · rintro ⟨⟩
        rfl
      · rintro rfl
        rfl
  | cons item rest ih =>
      rw [mapM_cons_eq_ok_iff, List.forall₂_cons_left_iff]
      constructor
      · rintro ⟨first, others, hfirst, hothers, rfl⟩
        exact ⟨first, others, hfirst, ih.mp hothers, rfl⟩
      · rintro ⟨first, others, hfirst, hothers, rfl⟩
        exact ⟨first, others, hfirst, ih.mpr hothers, rfl⟩

theorem mapM_ok_mem {ε α β : Type} {f : α → Except ε β} {items : List α} {results : List β}
    (h : items.mapM f = .ok results) {result : β} (hmem : result ∈ results) :
    ∃ item ∈ items, f item = .ok result :=
  forall₂_mem_right (mapM_eq_ok_iff.mp h) hmem

theorem mapM_ok_of_mem {ε α β : Type} {f : α → Except ε β} {items : List α} {results : List β}
    (h : items.mapM f = .ok results) {item : α} (hmem : item ∈ items) :
    ∃ result ∈ results, f item = .ok result :=
  forall₂_mem_left (mapM_eq_ok_iff.mp h) hmem

/-- Lists whose items have the same outcomes one by one have the same outcome. -/
theorem mapM_congr_forall₂ {ε α β γ : Type} {f : α → Except ε β} {g : γ → Except ε β}
    {items : List α} {others : List γ}
    (h : List.Forall₂ (fun item other => f item = g other) items others) :
    items.mapM f = others.mapM g := by
  induction h with
  | nil => rfl
  | cons hfirst _ ih => rw [List.mapM_cons, List.mapM_cons, hfirst, ih]

/-- A listing that splits over joined lists is made of the listings of the parts. -/
theorem mapM_ok_flatten {ε α β γ : Type} (listing : List β → List γ) (hnil : listing [] = [])
    (happend : ∀ left right, listing (left ++ right) = listing left ++ listing right)
    {f : α → Except ε (List β)} {expected : α → List γ} {items : List α} {parts : List (List β)}
    (h : items.mapM f = .ok parts)
    (heach : ∀ item ∈ items, ∀ part, f item = .ok part → listing part = expected item) :
    listing parts.flatten = items.flatMap expected := by
  induction items generalizing parts with
  | nil =>
      cases h
      exact hnil
  | cons item rest ih =>
      obtain ⟨part, others, hpart, hothers, rfl⟩ := mapM_cons_eq_ok_iff.mp h
      obtain ⟨hitem, hrest⟩ := List.forall_mem_cons.mp heach
      rw [List.flatten_cons, happend, hitem part hpart, ih hothers hrest, List.flatMap_cons]

/-- A fold that fails stops at one item, behind items that all went through. -/
theorem foldlM_eq_error {ε α β : Type} {step : β → α → Except ε β} {items : List α} {start : β}
    {error : ε} (h : items.foldlM step start = .error error) :
    ∃ before item after reached, items = before ++ item :: after ∧
      before.foldlM step start = .ok reached ∧ step reached item = .error error := by
  induction items generalizing start with
  | nil => cases h
  | cons item rest ih =>
      rw [List.foldlM_cons] at h
      rcases bind_eq_error_iff.mp h with hitem | ⟨next, hnext, hrest⟩
      · exact ⟨[], item, rest, start, rfl, rfl, hitem⟩
      · obtain ⟨before, found, after, reached, rfl, hbefore, hfound⟩ := ih hrest
        refine ⟨item :: before, found, after, reached, rfl, ?_, hfound⟩
        rw [List.foldlM_cons, hnext]
        exact hbefore

/-- What all steps of a fold keep, the fold keeps. -/
theorem foldlM_ok_preserves {ε α β : Type} (Keeps : β → Prop) {step : β → α → Except ε β}
    {items : List α}
    (hstep : ∀ item ∈ items, ∀ state next, Keeps state → step state item = .ok next → Keeps next)
    {start result : β} (hstart : Keeps start) (h : items.foldlM step start = .ok result) :
    Keeps result := by
  induction items generalizing start with
  | nil =>
      cases h
      exact hstart
  | cons item rest ih =>
      rw [List.foldlM_cons] at h
      obtain ⟨next, hnext, h⟩ := bind_eq_ok_iff.mp h
      obtain ⟨hitem, hrest⟩ := List.forall_mem_cons.mp hstep
      exact ih hrest (hitem start next hstart hnext) h

/-- A fold goes on through a view of its states when every step does. -/
theorem foldlM_view {ε α σ τ : Type} (view : σ → τ) {step : σ → α → Except ε σ}
    {viewed : τ → α → Except ε τ}
    (hstep : ∀ state item, (step state item).map view = viewed (view state) item)
    (items : List α) (start : σ) :
    (items.foldlM step start).map view = items.foldlM viewed (view start) := by
  induction items generalizing start with
  | nil => rfl
  | cons item rest ih =>
      rw [List.foldlM_cons, List.foldlM_cons, ← hstep]
      cases step start item with
      | error error => rfl
      | ok next => exact ih next

/-- The state in which an action ends, finished or failed. -/
def stateAfter {ε σ α : Type} (action : EStateM ε σ α) (start : σ) : σ :=
  match action.run start with
  | .ok _ reached => reached
  | .error _ reached => reached

/-- Changing the state once for every item is a fold over the items. -/
theorem run_forM_modify {ε σ α : Type} (step : σ → α → σ) (items : List α) (start : σ) :
    (items.forM fun item => (modify (step · item) : EStateM ε σ PUnit)).run start =
      .ok () (items.foldl step start) := by
  induction items generalizing start with
  | nil => rfl
  | cons item rest ih => exact ih (step start item)

end TreeSchema
