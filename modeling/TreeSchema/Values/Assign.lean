import TreeSchema.Values.Check

/-!
Building records. A new record holds defaults only: absent maybes and empty
arrays. A field is assigned at most once, by position or by name, with a value
that the check of its type accepts; a refused assignment gives no record, so
the old one stays as it was.
-/

namespace TreeSchema

inductive AssignError where
  /-- Fields without a value after a construction with arguments. -/
  | missing (typeName : String) (fields : List String)
  | assignedTwice (typeName field : String)
  | unknownField (typeName field : String)
  /-- Fields without a value in a record that has to be complete. -/
  | incomplete (typeName : String) (fields : List String)
  | mismatch (typeName field : String) (expected : Desc)
  | tooManyArguments (typeName : String) (expected given : Nat)
deriving DecidableEq

namespace AssignError

def message : AssignError → String
  | .missing typeName fields =>
      "`" ++ typeName ++ "` is missing required fields: " ++ String.intercalate ", " fields
  | .assignedTwice typeName field =>
      "field `" ++ field ++ "` of `" ++ typeName ++ "` is assigned twice"
  | .unknownField typeName field => "`" ++ typeName ++ "` has no field `" ++ field ++ "`"
  | .incomplete typeName fields =>
      "`" ++ typeName ++ "` has unassigned fields: " ++ String.intercalate ", " fields
  | .mismatch typeName field expected =>
      "field `" ++ field ++ "` of `" ++ typeName ++ "` expects " ++ expected.text
  | .tooManyArguments typeName expected given =>
      "`" ++ typeName ++ "` takes at most " ++ toString expected ++
        " positional arguments, got " ++ toString given

end AssignError

variable {κ : Type}

/-- What a field holds before it is assigned. -/
def Desc.default? : Desc → Option (Value κ)
  | .maybe _ => some .absent
  | .array _ => some (.array [])
  | _ => none

namespace Record

/-- The record with nothing assigned. -/
def blank (type : RecordType κ) : Record κ where
  type := type
  slots := type.fields.map fun field => field.desc.default?
  assigned := IndexSet.withSize type.size

def typeName (record : Record κ) : String := record.type.name

def tag? (record : Record κ) : Option UInt32 := record.type.tag?

def get? (record : Record κ) (field : String) : Option (Value κ) :=
  (record.type.fieldIndex? field).bind fun index => (record.slots[index]?).join

/-- Whether the field was assigned; a default does not count. -/
def isAssigned (record : Record κ) (field : String) : Bool :=
  match record.type.fieldIndex? field with
  | some index => record.assigned.contains index
  | none => false

/-- Fields without a value, in declaration order. -/
def unassigned (record : Record κ) : List String :=
  (record.type.fields.zip record.slots).filterMap fun (field, slot) =>
    if slot.isNone then some field.name else none

def ensureComplete (record : Record κ) : Except AssignError Unit :=
  match record.unassigned with
  | [] => .ok ()
  | fields => .error (.incomplete record.typeName fields)

def isVariantOf (record : Record κ) (sum : SumType κ) : Bool :=
  sum.hasVariant record.type

variable [FieldCheck κ]

/-- Assigns the field that stands at `index`. -/
def assign (record : Record κ) (index : Nat) (field : TypedField) (value : Value κ) :
    Except AssignError (Record κ) :=
  if record.assigned.contains index then
    .error (.assignedTwice record.typeName field.name)
  else if record.type.checking.accepts value field.desc then
    .ok { record with
      slots := record.slots.set index (some value)
      assigned := (record.assigned.insert index).1 }
  else
    .error (.mismatch record.typeName field.name field.desc)

/-- Assigns a field by name. -/
def set (record : Record κ) (field : String) (value : Value κ) :
    Except AssignError (Record κ) :=
  match Named.locate field record.type.fields with
  | none => .error (.unknownField record.typeName field)
  | some (index, typed) => record.assign index typed value

/-- Assigns the first fields in declaration order. -/
def setLeading (record : Record κ) (values : List (Value κ)) : Except AssignError (Record κ) :=
  (record.type.fields.zipIdx.zip values).foldlM
    (fun built ((field, index), value) => built.assign index field value) record

def setNamed (record : Record κ) (bindings : List (String × Value κ)) :
    Except AssignError (Record κ) :=
  bindings.foldlM (fun built (field, value) => built.set field value) record

/-- A record from positional and then named arguments. With any argument
given, every field without a default has to end up with a value. -/
def construct (type : RecordType κ) (positional : List (Value κ))
    (named : List (String × Value κ)) : Except AssignError (Record κ) := do
  if type.size < positional.length then
    throw (.tooManyArguments type.name type.size positional.length)
  let placed ← (blank type).setLeading positional
  let built ← placed.setNamed named
  if positional.isEmpty && named.isEmpty then return built
  match built.unassigned with
  | [] => return built
  | fields => throw (.missing type.name fields)

end Record

/-- Arguments collected one by one for a construction. -/
structure RecordBuilder (κ : Type) where
  type : RecordType κ
  positional : List (Value κ)
  named : List (String × Value κ)

namespace RecordBuilder

def start (type : RecordType κ) : RecordBuilder κ := ⟨type, [], []⟩

def arg (builder : RecordBuilder κ) (value : Value κ) : RecordBuilder κ :=
  { builder with positional := builder.positional ++ [value] }

def field (builder : RecordBuilder κ) (name : String) (value : Value κ) : RecordBuilder κ :=
  { builder with named := builder.named ++ [(name, value)] }

def build [FieldCheck κ] (builder : RecordBuilder κ) : Except AssignError (Record κ) :=
  Record.construct builder.type builder.positional builder.named

end RecordBuilder

end TreeSchema
