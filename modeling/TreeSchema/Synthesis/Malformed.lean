/-!
Refusals of a definition, with their wording.
-/

namespace TreeSchema

/-- Why a definition is malformed. -/
inductive Flaw where
  | optionalAndRepeated (field : String)
  | undefinedType (field typeName : String)
  | duplicateField (field : String)
  | duplicateName (name : String)
deriving DecidableEq

namespace Flaw

def message : Flaw → String
  | .optionalAndRepeated field => "field `" ++ field ++ "` is both optional and repeated"
  | .undefinedType field typeName =>
      "field `" ++ field ++ "` refers to undefined type `" ++ typeName ++ "`"
  | .duplicateField field => "field `" ++ field ++ "` is declared twice"
  | .duplicateName name => "name `" ++ name ++ "` is already bound"

end Flaw

structure Malformed where
  definition : String
  flaw : Flaw
deriving DecidableEq

namespace Malformed

def message (error : Malformed) : String :=
  "malformed definition `" ++ error.definition ++ "`: " ++ error.flaw.message

end Malformed

end TreeSchema
