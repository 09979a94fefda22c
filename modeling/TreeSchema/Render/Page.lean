/-!
Text under construction together with the column reached on its last line.
Columns count characters, and a line break inside written text starts a new
line like any other.
-/

namespace TreeSchema.Render

/-- The column reached from `column` by writing `text`. -/
def columnAfter (column : Nat) (text : String) : Nat :=
  text.foldl (fun reached c => if c = '\n' then 0 else reached + 1) column

def hasNewline (text : String) : Bool :=
  text.contains '\n'

theorem hasNewline_iff {text : String} : hasNewline text = true ↔ '\n' ∈ text.toList := by
  simp [hasNewline]

@[simp] theorem columnAfter_empty (column : Nat) : columnAfter column "" = column := by
  simp [columnAfter]

theorem columnAfter_append (column : Nat) (left right : String) :
    columnAfter column (left ++ right) = columnAfter (columnAfter column left) right := by
  simp [columnAfter]

/-- Text without a line break advances the column by its length. -/
theorem columnAfter_of_unbroken {text : String} (column : Nat)
    (unbroken : '\n' ∉ text.toList) : columnAfter column text = column + text.length := by
  rw [columnAfter, String.foldl_eq_foldl_toList, ← String.length_toList]
  generalize text.toList = characters at unbroken
  induction characters generalizing column with
  | nil => rfl
  | cons c rest ih =>
      simp only [List.mem_cons, not_or] at unbroken
      simp only [List.foldl_cons, Ne.symm unbroken.1, if_false, ih _ unbroken.2,
        List.length_cons]
      omega

def spaces (n : Nat) : String :=
  String.ofList (List.replicate n ' ')

structure Page where
  text : String
  column : Nat
deriving DecidableEq, Repr

namespace Page

def empty : Page := ⟨"", 0⟩

def isEmpty (page : Page) : Bool := page.text.isEmpty

def write (page : Page) (text : String) : Page :=
  ⟨page.text ++ text, columnAfter page.column text⟩

def newline (page : Page) : Page :=
  ⟨page.text.push '\n', 0⟩

def indent (page : Page) (n : Nat) : Page :=
  ⟨page.text ++ spaces n, page.column + n⟩

def space (page : Page) : Page :=
  ⟨page.text.push ' ', page.column + 1⟩

/-- The page itself while its last line has at most `limit` columns. -/
def within (page : Page) (limit : Nat) : Option Page :=
  if page.column ≤ limit then some page else none

@[simp] theorem write_empty (page : Page) : page.write "" = page := by
  simp [write, columnAfter]

@[simp] theorem write_write (page : Page) (left right : String) :
    (page.write left).write right = page.write (left ++ right) := by
  simp [write, columnAfter_append, String.append_assoc]

theorem newline_eq_write (page : Page) : page.newline = page.write "\n" := by
  have htext : page.text.push '\n' = page.text ++ "\n" := by
    simp [← String.toList_inj]
  simp [newline, write, htext, columnAfter, String.foldl_eq_foldl_toList]

theorem space_eq_write (page : Page) : page.space = page.write " " := by
  have htext : page.text.push ' ' = page.text ++ " " := by
    simp [← String.toList_inj]
  simp [space, write, htext, columnAfter, String.foldl_eq_foldl_toList]

theorem indent_eq_write (page : Page) (n : Nat) : page.indent n = page.write (spaces n) := by
  have hcolumn : columnAfter page.column (spaces n) = page.column + n := by
    rw [columnAfter_of_unbroken]
    · simp [spaces]
    · simp [spaces]
  simp only [indent, write, hcolumn]

theorem within_eq_some_iff {page kept : Page} {limit : Nat} :
    page.within limit = some kept ↔ page = kept ∧ kept.column ≤ limit := by
  unfold within
  split
  · constructor
    · rintro ⟨⟩
      exact ⟨rfl, by assumption⟩
    · rintro ⟨rfl, -⟩
      rfl
  · constructor
    · rintro ⟨⟩
    · rintro ⟨rfl, hkept⟩
      contradiction

end Page

end TreeSchema.Render
