/-!
Choices a caller makes about rendered text.
-/

namespace TreeSchema.Render

/-- A simple-sum value is written by its constructor name or by its tag. -/
inductive EnumStyle where
  | name
  | tag
deriving DecidableEq, Repr

/-- A field without a value is written as a placeholder or refused. -/
inductive UnsetPolicy where
  | placeholder
  | reject
deriving DecidableEq, Repr

structure Style where
  /-- Columns that a node written on one line may use. -/
  width : Nat := 80
  /-- Spaces added per level of a node written over several lines. -/
  indent : Nat := 2
  enums : EnumStyle := .name
  unset : UnsetPolicy := .placeholder
deriving DecidableEq, Repr

namespace Style

def withWidth (width : Nat) : Style := { width }

def withIndent (indent : Nat) : Style := { indent }

def rawTags (style : Style) : Style := { style with enums := .tag }

def rejectUnset (style : Style) : Style := { style with unset := .reject }

def enumText (style : Style) (tag : UInt32) (name : String) : String :=
  match style.enums with
  | .name => name
  | .tag => toString tag.toNat

end Style

end TreeSchema.Render
