import TreeSchema.Schema.Basic
import TreeSchema.Synthesis.Namespace

/-!
From a schema to its types. A simple sum becomes an enumeration; a compound
sum becomes a base type, a record type per constructor and a tag table; a
product becomes a record type. Definitions are taken in order, and the first
one that cannot be synthesized ends the whole run without a result.
-/

namespace TreeSchema

namespace Schema

/-- One field of a field list; `earlier` are the names declared before it. -/
def resolveField (schema : Schema) (earlier : List String) (field : Field) :
    Except Flaw TypedField :=
  if field.optional && field.repeated then .error (.optionalAndRepeated field.name)
  else if field.name ∈ earlier then .error (.duplicateField field.name)
  else
    match schema.resolve? field.typeName with
    | none => .error (.undefinedType field.name field.typeName)
    | some base =>
        .ok ⟨field.name,
          if field.optional then .maybe base
          else if field.repeated then .array base
          else base⟩

def resolveFrom (schema : Schema) (earlier : List String) :
    List Field → Except Flaw (List TypedField)
  | [] => .ok []
  | field :: rest => do
      let first ← schema.resolveField earlier field
      let others ← schema.resolveFrom (field.name :: earlier) rest
      return first :: others

/-- A field list with its types resolved, or its first flaw. -/
def resolveFields (schema : Schema) (fields : List Field) : Except Flaw (List TypedField) :=
  schema.resolveFrom [] fields

end Schema

/-- What all types of one synthesis have in common. -/
structure Synthesis (κ : Type) where
  /-- Tells the types of this synthesis apart from those of any other. -/
  generation : Nat
  schema : Schema
  checking : Checking κ

namespace Synthesis

variable {κ : Type}

def recordType (synthesis : Synthesis κ) (name : String) (origin : Origin)
    (fields : List Field) : Except Flaw (RecordType κ) := do
  let typed ← synthesis.schema.resolveFields fields
  return ⟨synthesis.generation, name, origin, typed, synthesis.checking⟩

/-- The record types of constructors that stand from `position` on. -/
def variants (synthesis : Synthesis κ) (sum : Sum) :
    (position : Nat) → List Constructor → Except Flaw (List (RecordType κ))
  | _, [] => .ok []
  | position, constructor :: rest => do
      let first ← synthesis.recordType constructor.name
        (.constructor sum (tagAt position)) constructor.fields
      let others ← synthesis.variants sum (position + 1) rest
      return first :: others

def sumType (synthesis : Synthesis κ) (sum : Sum) : Except Flaw (SumType κ) := do
  return ⟨sum, ← synthesis.variants sum 0 sum.constructors⟩

/-- Binds what one definition gives. Its field lists are resolved before any
of its names is bound. -/
def define (synthesis : Synthesis κ) (space : Namespace κ) (definition : Definition) :
    Except Flaw (Namespace κ) :=
  match definition.body with
  | .product product => do
      let type ← synthesis.recordType definition.name (.product product) product.fields
      space.bind (.record type)
  | .sum sum =>
      if sum.isSimple then space.bind (.enum ⟨synthesis.generation, sum⟩)
      else do
        let type ← synthesis.sumType sum
        let based ← space.bind (.sum type)
        let filled ← type.constructors.foldlM (fun reached variant => reached.bind (.record variant))
          based
        filled.bindTags type.tags

/-- The namespace of all definitions of the schema. -/
def run (synthesis : Synthesis κ) : Except Malformed (Namespace κ) :=
  synthesis.schema.definitions.foldlM
    (fun space definition =>
      (synthesis.define space definition).mapError fun flaw => ⟨definition.name, flaw⟩)
    Namespace.empty

/-- Hands the finished namespace to a target, which is left alone when the
synthesis fails. -/
def runInto {τ : Type} (synthesis : Synthesis κ) (receive : τ → Installation κ → τ)
    (target : τ) : Except Malformed τ :=
  return (← synthesis.run).installInto receive target

end Synthesis

end TreeSchema
