/-!
The form between a record and its text: leaves of opaque text under labelled
nodes.
-/

namespace TreeSchema.Render

inductive Tree where
  | leaf (text : String)
  | node (label : String) (children : List Tree)
deriving Repr, Inhabited

namespace Tree

mutual

/-- Characters of all labels and leaves, without parentheses and blanks. No
single-line form is narrower. -/
def flatWidth : Tree → Nat
  | .leaf text => text.length
  | .node label children => label.length + flatWidths children

def flatWidths : List Tree → Nat
  | [] => 0
  | child :: rest => flatWidth child + flatWidths rest

end

end Tree

end TreeSchema.Render
