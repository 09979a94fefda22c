import TreeSchema.Proofs.Render.Emission

/-!
Texts as physical lines. A block is its opening line, the lines of its
children in order, and its closing line.
-/

namespace TreeSchema.Render

/-- The stretches of a text between line breaks. -/
def physicalLines (text : String) : List (List Char) :=
  text.toList.splitOn '\n'

theorem physicalLines_break (left right : String) :
    physicalLines (left ++ "\n" ++ right) = physicalLines left ++ physicalLines right := by
  simp only [physicalLines, String.toList_append]
  change (left.toList ++ ['\n'] ++ right.toList).splitOn '\n' = _
  rw [List.append_assoc]
  exact List.splitOn_append_cons_self _ _

theorem physicalLines_unbroken {text : String} (h : '\n' ∉ text.toList) :
    physicalLines text = [text.toList] :=
  List.splitOn_eq_singleton h

/-- Text put in front of another on the same line only makes the first line
longer. -/
theorem physicalLines_lead {lead : String} (hlead : '\n' ∉ lead.toList) (text : String) :
    physicalLines (lead ++ text) = (physicalLines text).modifyHead (lead.toList ++ ·) := by
  rw [physicalLines, physicalLines, String.toList_append]
  generalize lead.toList = characters at hlead
  induction characters with
  | nil =>
      obtain ⟨first, rest, hlines⟩ := List.exists_cons_of_ne_nil
        (List.splitOn_ne_nil '\n' text.toList)
      simp [hlines]
  | cons c characters ih =>
      rw [List.mem_cons, not_or] at hlead
      obtain ⟨hc, hcharacters⟩ := hlead
      rw [List.cons_append, List.splitOn_cons_eq_if_modifyHead, if_neg (by simpa using Ne.symm hc),
        ih hcharacters]
      obtain ⟨first, rest, hlines⟩ := List.exists_cons_of_ne_nil
        (List.splitOn_ne_nil '\n' text.toList)
      simp [hlines]

theorem mem_physicalLines_lead {lead : String} (hlead : '\n' ∉ lead.toList) {text : String}
    {line : List Char} (hline : line ∈ physicalLines (lead ++ text)) :
    ∃ part ∈ physicalLines text, line = lead.toList ++ part ∨ line = part := by
  rw [physicalLines_lead hlead] at hline
  obtain ⟨first, rest, hlines⟩ := List.exists_cons_of_ne_nil
    (List.splitOn_ne_nil '\n' text.toList)
  rw [physicalLines] at hline ⊢
  rw [hlines, List.modifyHead_cons] at hline
  rw [hlines]
  rcases List.mem_cons.mp hline with rfl | hrest
  · exact ⟨first, List.mem_cons_self, .inl rfl⟩
  · exact ⟨line, List.mem_cons_of_mem _ hrest, .inr rfl⟩

theorem spaces_unbroken (n : Nat) : '\n' ∉ (spaces n).toList := by
  simp [spaces]

theorem spaces_length (n : Nat) : (spaces n).length = n := by
  simp [spaces]

namespace Layout

theorem physicalLines_inside (step indent : Nat) (laid : List Layout) (lead : String) :
    physicalLines (lead ++ inside step indent laid) =
      physicalLines lead ++
        laid.flatMap fun child => physicalLines (spaces indent ++ child.body step indent) := by
  induction laid generalizing lead with
  | nil => simp [inside]
  | cons child rest ih =>
      have hsplit : lead ++ inside step indent (child :: rest) =
          lead ++ "\n" ++ (spaces indent ++ child.body step indent ++ inside step indent rest) := by
        simp only [inside, String.append_assoc]
      rw [hsplit, physicalLines_break, ih, List.flatMap_cons]

theorem physicalLines_block {label : String} (hlabel : '\n' ∉ label.toList) (step indent : Nat)
    (laid : List Layout) :
    physicalLines (spaces indent ++ (Layout.block label laid).body step indent) =
      (spaces indent ++ "(" ++ label).toList ::
        laid.flatMap (fun child =>
          physicalLines (spaces (indent + step) ++ child.body step (indent + step))) ++
        [(spaces indent ++ ")").toList] := by
  have hopening : '\n' ∉ (spaces indent ++ "(" ++ label).toList := by
    simp [hlabel, spaces_unbroken]
  have hclosing : '\n' ∉ (spaces indent ++ ")").toList := by
    simp [spaces_unbroken]
  have hsplit : spaces indent ++ (Layout.block label laid).body step indent =
      spaces indent ++ "(" ++ label ++ inside step (indent + step) laid ++ "\n" ++
        (spaces indent ++ ")") := by
    simp only [body, String.append_assoc]
  rw [hsplit, physicalLines_break, physicalLines_inside, physicalLines_unbroken hopening,
    physicalLines_unbroken hclosing]
  rfl

end Layout

end TreeSchema.Render
