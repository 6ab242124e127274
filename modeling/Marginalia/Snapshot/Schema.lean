/-
# Schema snapshots

What is recorded of the tables behind the models of an application. A model's
own name, table and source file stand beside its lists in one record.

Key definitions: `Schema.Column`, `Schema.TableIndex`, `Schema.ForeignKey`,
`Schema.CheckConstraint`, `Schema.Entity`, `Schema.Model`, `Schema.Snapshot`.
-/
import Marginalia.Snapshot.Fetched

namespace Marginalia
namespace Schema

/-- A column of a table. -/
structure Column where
  /-- The column's name. -/
  name : String
  /-- The type of its values. -/
  type : String
  /-- The size limit of its values. -/
  limit : Option UInt64 := none
  /-- The number of digits of its values. -/
  precision : Option UInt32 := none
  /-- The number of digits after the point. -/
  scale : Option UInt32 := none
  /-- Whether a row may lack a value. -/
  nullable : Bool := true
  /-- The value of a row for which none is given. -/
  default : Option String := none
  /-- Whether the column is the primary key. -/
  primaryKey : Bool := false
  /-- The remark on the column. -/
  comment : Option String := none
deriving DecidableEq, Repr

/-- Reads a column. -/
def Column.ofValue? (v : Value) : Option Column := do
  let f ← v.fields? ["name", "type", "limit", "precision", "scale", "null", "default", "primary_key",
    "comment"]
  some {
    name := ← f.need "name" Value.text?
    type := ← f.need "type" Value.text?
    limit := ← f.orDefault "limit" (Value.option? Value.uint64?) none
    precision := ← f.orDefault "precision" (Value.option? Value.uint32?) none
    scale := ← f.orDefault "scale" (Value.option? Value.uint32?) none
    nullable := ← f.orDefault "null" Value.truth? true
    default := ← f.orDefault "default" (Value.option? Value.text?) none
    primaryKey := ← f.orDefault "primary_key" Value.truth? false
    comment := ← f.orDefault "comment" (Value.option? Value.text?) none }

/-- The value by which a column is written. -/
def Column.toValue (c : Column) : Value :=
  .object [("name", .str c.name), ("type", .str c.type),
    ("limit", .ofOption (fun n => .nat n.toNat) c.limit),
    ("precision", .ofOption (fun n => .nat n.toNat) c.precision),
    ("scale", .ofOption (fun n => .nat n.toNat) c.scale),
    ("null", .bool c.nullable), ("default", .optStr c.default), ("primary_key", .bool c.primaryKey),
    ("comment", .optStr c.comment)]

/-- An index of a table. -/
structure TableIndex where
  /-- The index's name. -/
  name : String
  /-- The columns that it covers. -/
  columns : List String
  /-- Whether no two rows agree in these columns. -/
  unique : Bool := false
  /-- The condition on the rows that it covers. -/
  condition : Option String := none
  /-- The method by which it is kept. -/
  method : Option String := none
deriving DecidableEq, Repr

/-- Reads an index. -/
def TableIndex.ofValue? (v : Value) : Option TableIndex := do
  let f ← v.fields? ["name", "columns", "unique", "where", "using"]
  some {
    name := ← f.need "name" Value.text?
    columns := ← f.need "columns" (Value.items? Value.text?)
    unique := ← f.orDefault "unique" Value.truth? false
    condition := ← f.orDefault "where" (Value.option? Value.text?) none
    method := ← f.orDefault "using" (Value.option? Value.text?) none }

/-- The value by which an index is written. -/
def TableIndex.toValue (i : TableIndex) : Value :=
  .object [("name", .str i.name), ("columns", .strs i.columns), ("unique", .bool i.unique),
    ("where", .optStr i.condition), ("using", .optStr i.method)]

/-- A foreign key of a table. -/
structure ForeignKey where
  /-- The name of the key. -/
  name : String
  /-- The column that refers to another table. -/
  column : String
  /-- The table referred to. -/
  toTable : String
  /-- The column referred to. -/
  primaryKey : String := "id"
  /-- What happens when the row referred to is deleted. -/
  onDelete : Option String := none
  /-- What happens when the row referred to changes its key. -/
  onUpdate : Option String := none
deriving DecidableEq, Repr

/-- Reads a foreign key. -/
def ForeignKey.ofValue? (v : Value) : Option ForeignKey := do
  let f ← v.fields? ["name", "column", "to_table", "primary_key", "on_delete", "on_update"]
  some {
    name := ← f.need "name" Value.text?
    column := ← f.need "column" Value.text?
    toTable := ← f.need "to_table" Value.text?
    primaryKey := ← f.orDefault "primary_key" Value.text? "id"
    onDelete := ← f.orDefault "on_delete" (Value.option? Value.text?) none
    onUpdate := ← f.orDefault "on_update" (Value.option? Value.text?) none }

/-- The value by which a foreign key is written. -/
def ForeignKey.toValue (k : ForeignKey) : Value :=
  .object [("name", .str k.name), ("column", .str k.column), ("to_table", .str k.toTable),
    ("primary_key", .str k.primaryKey), ("on_delete", .optStr k.onDelete),
    ("on_update", .optStr k.onUpdate)]

/-- A condition that every row of a table meets. -/
structure CheckConstraint where
  /-- The name of the constraint. -/
  name : String
  /-- The condition. -/
  expression : String
deriving DecidableEq, Repr

/-- Reads a check constraint. -/
def CheckConstraint.ofValue? (v : Value) : Option CheckConstraint := do
  let f ← v.fields? ["name", "expression"]
  some { name := ← f.need "name" Value.text?, expression := ← f.need "expression" Value.text? }

/-- The value by which a check constraint is written. -/
def CheckConstraint.toValue (c : CheckConstraint) : Value :=
  .object [("name", .str c.name), ("expression", .str c.expression)]

/-- What a model supports besides columns. -/
structure Capabilities where
  /-- How the rows form a tree, if they do. -/
  hierarchy : Option String := none
  /-- Whether foreign keys are of use. -/
  foreignKeys : Bool := true
  /-- Whether check constraints are of use. -/
  checkConstraints : Bool := true
deriving DecidableEq, Repr

/-- Reads capabilities. -/
def Capabilities.ofValue? (v : Value) : Option Capabilities := do
  let f ← v.fields? ["hierarchy", "foreign_keys", "check_constraints"]
  some {
    hierarchy := ← f.orDefault "hierarchy" (Value.option? Value.text?) none
    foreignKeys := ← f.orDefault "foreign_keys" Value.truth? true
    checkConstraints := ← f.orDefault "check_constraints" Value.truth? true }

/-- The value by which capabilities are written. -/
def Capabilities.toValue (c : Capabilities) : Value :=
  .object [("hierarchy", .optStr c.hierarchy), ("foreign_keys", .bool c.foreignKeys),
    ("check_constraints", .bool c.checkConstraints)]

/-- A model: its name, its table and the file that defines it, where that is known. -/
structure Entity where
  /-- The name of the model's class. -/
  name : String
  /-- The table behind the model. -/
  table : String
  /-- The path of the file that defines the class. -/
  sourceFile : Option String := none
deriving DecidableEq, Repr

/-- The names of an entity's fields. -/
def Entity.names : List String := ["name", "table_name", "source_location"]

/-- Reads an entity from the fields of its shape. -/
def Entity.ofFields? (f : Fields) : Option Entity := do
  some {
    name := ← f.need "name" Value.text?
    table := ← f.need "table_name" Value.text?
    sourceFile := ← f.orDefault "source_location" (Value.option? Value.text?) none }

/-- Reads an entity that stands on its own. -/
def Entity.ofValue? (v : Value) : Option Entity := do Entity.ofFields? (← v.fields? Entity.names)

/-- A model with all that is recorded of its table. -/
structure Model where
  /-- The model. -/
  entity : Entity
  /-- What it supports. -/
  capabilities : Capabilities := {}
  /-- The columns. -/
  columns : Fetched Column
  /-- The indexes. -/
  indexes : Fetched TableIndex := .items []
  /-- The foreign keys. -/
  foreignKeys : Fetched ForeignKey := .items []
  /-- The check constraints. -/
  checkConstraints : Fetched CheckConstraint := .items []
deriving DecidableEq, Repr

/-- Reads a model. It is a record; the fields of its entity are settled before they are read. -/
def Model.ofValue? (v : Value) : Option Model := do
  let f ← v.record? ["capabilities", "columns", "indexes", "foreign_keys", "check_constraints"]
  let e ← v.record? Entity.names
  some {
    entity := ← Entity.ofFields? (e.map fun f => (f.1, f.2.settle))
    capabilities := ← f.orDefault "capabilities" Capabilities.ofValue? {}
    columns := ← f.need "columns" (Fetched.ofValue? Column.ofValue?)
    indexes := ← f.orDefault "indexes" (Fetched.ofValue? TableIndex.ofValue?) (.items [])
    foreignKeys := ← f.orDefault "foreign_keys" (Fetched.ofValue? ForeignKey.ofValue?) (.items [])
    checkConstraints :=
      ← f.orDefault "check_constraints" (Fetched.ofValue? CheckConstraint.ofValue?) (.items []) }

/-- The value by which a model is written. -/
def Model.toValue (m : Model) : Value :=
  .object [("name", .str m.entity.name), ("table_name", .str m.entity.table),
    ("source_location", .optStr m.entity.sourceFile), ("capabilities", m.capabilities.toValue),
    ("columns", m.columns.toValue Column.toValue), ("indexes", m.indexes.toValue TableIndex.toValue),
    ("foreign_keys", m.foreignKeys.toValue ForeignKey.toValue),
    ("check_constraints", m.checkConstraints.toValue CheckConstraint.toValue)]

/-- All models of an application. -/
structure Snapshot where
  /-- The models as recorded. -/
  models : List Model := []
deriving DecidableEq, Repr

namespace Snapshot

/-- Reads a snapshot. -/
def ofValue? (v : Value) : Option Snapshot := do
  let f ← v.fields? ["models"]
  some { models := ← f.need "models" (Value.items? Model.ofValue?) }

/-- The value by which a snapshot is written. -/
def toValue (s : Snapshot) : Value := .object [("models", .list (s.models.map Model.toValue))]

/-- The first model of a name. -/
def find? (s : Snapshot) (name : String) : Option Model := s.models.find? (·.entity.name == name)

end Snapshot
end Schema
end Marginalia
