import TreeSchema.Synthesis.Malformed
import TreeSchema.Types.Sum

/-!
Generated types and tag tables by name, each in the order in which the names
were first bound. Synthesis refuses a name that is already bound on either
side; installing replaces what stands under a name on the same side.
-/

namespace TreeSchema

structure Namespace (κ : Type) where
  types : List (GeneratedType κ)
  tables : List TagTable
deriving DecidableEq

/-- One step of handing the contents of a namespace to a target, which finds
each under its own name. -/
inductive Installation (κ : Type) where
  | type (type : GeneratedType κ)
  | tags (table : TagTable)
deriving DecidableEq

namespace Namespace

variable {κ : Type}

def empty : Namespace κ := ⟨[], []⟩

def get? (space : Namespace κ) (name : String) : Option (GeneratedType κ) :=
  Named.lookup name space.types

def record? (space : Namespace κ) (name : String) : Option (RecordType κ) :=
  match space.get? name with
  | some (.record type) => some type
  | _ => none

def enum? (space : Namespace κ) (name : String) : Option EnumType :=
  match space.get? name with
  | some (.enum type) => some type
  | _ => none

def sum? (space : Namespace κ) (name : String) : Option (SumType κ) :=
  match space.get? name with
  | some (.sum type) => some type
  | _ => none

def tags? (space : Namespace κ) (name : String) : Option TagTable :=
  Named.lookup name space.tables

/-- Names of the types, in binding order. -/
def names (space : Namespace κ) : List String := Named.names space.types

def size (space : Namespace κ) : Nat := space.types.length

def isEmpty (space : Namespace κ) : Bool := space.types.isEmpty

def isBound (space : Namespace κ) (name : String) : Bool :=
  Named.bound name space.types || Named.bound name space.tables

/-- Adds a type under its own name, which must be new. -/
def bind (space : Namespace κ) (type : GeneratedType κ) : Except Flaw (Namespace κ) :=
  if space.isBound type.name then .error (.duplicateName type.name)
  else .ok { space with types := space.types ++ [type] }

def bindTags (space : Namespace κ) (table : TagTable) : Except Flaw (Namespace κ) :=
  if space.isBound table.name then .error (.duplicateName table.name)
  else .ok { space with tables := space.tables ++ [table] }

/-- All types and then all tables, in binding order. -/
def installations (space : Namespace κ) : List (Installation κ) :=
  space.types.map .type ++ space.tables.map .tags

/-- Takes a type or a table in, in place of the one of the same name. -/
def receive (space : Namespace κ) : Installation κ → Namespace κ
  | .type type => { space with types := Named.put type space.types }
  | .tags table => { space with tables := Named.put table space.tables }

/-- Hands everything to a target that takes in one installation at a time. -/
def installInto {τ : Type} (space : Namespace κ) (receive : τ → Installation κ → τ)
    (target : τ) : τ :=
  space.installations.foldl receive target

/-- A namespace with the contents of another laid over it. -/
def overlay (upper base : Namespace κ) : Namespace κ :=
  upper.installInto receive base

end Namespace

end TreeSchema
