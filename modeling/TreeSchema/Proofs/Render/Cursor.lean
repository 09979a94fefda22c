import Mathlib.Data.List.DropRight
import TreeSchema.Proofs.Outcomes
import TreeSchema.Proofs.Render.Emission
import TreeSchema.Render.Text

/-!
A page over a sequence of uses. Its column is kept up by each operation in its
own way and then decides about the layout of the next record. It is right when
it counts the characters of the last line of the text, which every step keeps:
a step appends some text and moves the column as that text does.
-/

namespace TreeSchema.Render

/-- The characters after the last line break of a text, or all of them. -/
def lastLine (text : String) : List Char :=
  text.toList.rtakeWhile (· ≠ '\n')

theorem length_lastLine_push (text : String) (c : Char) :
    (lastLine (text.push c)).length = if c = '\n' then 0 else (lastLine text).length + 1 := by
  rw [lastLine, String.toList_push, List.rtakeWhile_concat]
  by_cases hbreak : c = '\n'
  · simp [hbreak]
  · simp [hbreak, lastLine]

/-- Writing on from the end of a text leads to the end of the joined text. -/
theorem columnAfter_lastLine (before text : String) :
    columnAfter (lastLine before).length text = (lastLine (before ++ text)).length := by
  rw [columnAfter, String.foldl_eq_foldl_toList]
  obtain ⟨characters, rfl⟩ : ∃ characters, text = String.ofList characters :=
    ⟨text.toList, String.ofList_toList.symm⟩
  rw [String.toList_ofList]
  -- one character after the other moves over to what stands before
  induction characters generalizing before with
  | nil => rw [String.ofList_nil, String.append_empty, List.foldl_nil]
  | cons c rest ih =>
      have hjoined : before ++ String.ofList (c :: rest) = before.push c ++ String.ofList rest := by
        simp [← String.toList_inj]
      rw [List.foldl_cons, ← length_lastLine_push, ih, hjoined]

/-- One use of a page. -/
inductive PageStep where
  | write (text : String)
  | newline
  | indent (n : Nat)
  | space
  | node (style : Style) (view : NodeView)
  | layout (style : Style) (indent : Nat) (layout : Layout)

end TreeSchema.Render

namespace TreeSchema

open Render

/-- The text of a record whose first line starts at a column. -/
def NodeView.textFrom (view : NodeView) (style : Style) (column : Nat) :
    Except RenderError String :=
  return ((← view.tree style).layoutAt style column).body style.indent 0

theorem NodeView.textFrom_zero (view : NodeView) (style : Style) :
    view.textFrom style 0 = view.render style := by
  rw [textFrom, render]
  cases view.tree style with
  | error error => rfl
  | ok tree => exact congrArg Except.ok (tree.render_eq_body style).symm

end TreeSchema

namespace TreeSchema.Render.Page

/-- What a step does to a page. A step that fails leaves what it has written by
then. -/
def perform : PageStep → EStateM RenderError Page Unit
  | .write text => modify (·.write text)
  | .newline => modify newline
  | .indent n => modify (·.indent n)
  | .space => modify space
  | .node style view => do
      let tree ← MonadExcept.ofExcept (view.tree style)
      modify (·.writeTree style tree)
  | .layout style indent layout => modify (·.writeLayout style.indent indent layout)

/-- The page behind a step, whether it succeeds or fails. -/
def after (page : Page) (step : PageStep) : Page :=
  stateAfter (perform step) page

def afterAll (page : Page) (steps : List PageStep) : Page :=
  steps.foldl after page

/-- A record that cannot be rendered is found out before anything is written. -/
theorem perform_node (style : Style) (view : NodeView) (page : Page) :
    (perform (.node style view)).run page =
      match page.writeNode style view with
      | .ok next => .ok () next
      | .error error => .error error page := by
  rw [perform, writeNode]
  cases view.tree style with
  | error error => rfl
  | ok tree => rfl

/-- What a record adds to a page is decided by the column alone. -/
theorem writeNode_eq (page : Page) (style : Style) (view : NodeView) :
    page.writeNode style view = (view.textFrom style page.column).map page.write := by
  rw [writeNode, NodeView.textFrom]
  cases view.tree style with
  | error error => rfl
  | ok tree => exact congrArg Except.ok (page.writeTree_eq_write style tree)

/-- A step writes some text, or it fails and nothing happens. -/
theorem perform_cases (step : PageStep) (page : Page) :
    (∃ text, (perform step).run page = .ok () (page.write text)) ∨
      ∃ error, (perform step).run page = .error error page := by
  cases step with
  | write text => exact .inl ⟨text, rfl⟩
  | newline => exact .inl ⟨"\n", congrArg (EStateM.Result.ok ()) page.newline_eq_write⟩
  | indent n => exact .inl ⟨spaces n, congrArg (EStateM.Result.ok ()) (page.indent_eq_write n)⟩
  | space => exact .inl ⟨" ", congrArg (EStateM.Result.ok ()) page.space_eq_write⟩
  | layout style indent layout =>
      have hwrite := Layout.writeLayout_eq_write style.indent indent layout page
      exact .inl ⟨_, congrArg (EStateM.Result.ok ()) hwrite⟩
  | node style view =>
      rw [perform_node, writeNode_eq]
      cases view.textFrom style page.column with
      | ok text => exact .inl ⟨text, rfl⟩
      | error error => exact .inr ⟨error, rfl⟩

theorem after_eq_write (page : Page) (step : PageStep) :
    ∃ text, page.after step = page.write text := by
  rcases perform_cases step page with ⟨text, hrun⟩ | ⟨error, hrun⟩
  · exact ⟨text, by rw [after, stateAfter, hrun]⟩
  · exact ⟨"", by rw [after, stateAfter, hrun, write_empty]⟩

/-- The column is where the text ends. -/
def AtEnd (page : Page) : Prop :=
  page.column = (lastLine page.text).length

theorem AtEnd.write {page : Page} (h : page.AtEnd) (text : String) : (page.write text).AtEnd := by
  rw [AtEnd, Page.write, h, columnAfter_lastLine]

theorem AtEnd.after {page : Page} (h : page.AtEnd) (step : PageStep) : (page.after step).AtEnd := by
  obtain ⟨text, hstep⟩ := page.after_eq_write step
  rw [hstep]
  exact h.write text

theorem AtEnd.afterAll {page : Page} (h : page.AtEnd) (steps : List PageStep) :
    (page.afterAll steps).AtEnd := by
  induction steps generalizing page with
  | nil => exact h
  | cons step rest ih => exact ih (h.after step)

/-- After any steps on a fresh page the column is the length of the last line
written, and one step more only adds to the text. A record adds a text that
depends on the column alone, which at column zero is the text that it has by
itself; a record that fails leaves the page as it was. -/
theorem afterAll_column :
    (∀ steps, (empty.afterAll steps).column = (lastLine (empty.afterAll steps).text).length) ∧
      (∀ steps step, ∃ added,
        (empty.afterAll (steps ++ [step])).text = (empty.afterAll steps).text ++ added) ∧
      (∀ page style view,
        page.writeNode style view = (view.textFrom style page.column).map page.write ∧
          (perform (.node style view)).run page =
            match view.textFrom style page.column with
            | .ok text => .ok () (page.write text)
            | .error error => .error error page) ∧
      ∀ (view : NodeView) style, view.textFrom style 0 = view.render style := by
  have hempty : empty.AtEnd := rfl
  refine ⟨fun steps => hempty.afterAll steps, ?_, ?_, NodeView.textFrom_zero⟩
  · intro steps step
    obtain ⟨added, hstep⟩ := (empty.afterAll steps).after_eq_write step
    refine ⟨added, ?_⟩
    rw [afterAll, List.foldl_append, List.foldl_cons, List.foldl_nil]
    exact congrArg text hstep
  · intro page style view
    refine ⟨page.writeNode_eq style view, ?_⟩
    rw [perform_node, writeNode_eq]
    cases view.textFrom style page.column with
    | ok text => rfl
    | error error => rfl

end TreeSchema.Render.Page
