/-
# Schema comments

The comment of a model: its table, its columns one a line, and a section for
each kind of further data that is wanted and was recorded. Without columns
there is no comment; a section that could not be had is left out.

Key definitions: `Schema.Options`, `Schema.columnLines`, `Schema.indexLines`,
`Schema.foreignKeyLines`, `Schema.checkLines`, `Schema.Snapshot.comment`.
-/
import Marginalia.Snapshot.Schema
import Marginalia.Text.Blank
import Marginalia.Text.Padding

namespace Marginalia
namespace Schema

/-- Which sections of a comment are wanted. -/
structure Options where
  /-- The indexes. -/
  indexes : Bool := true
  /-- The foreign keys. -/
  foreignKeys : Bool := true
  /-- The check constraints. -/
  checkConstraints : Bool := true
deriving DecidableEq, Repr

/-- The width of the field for the type of a column. -/
def typeWidth : Nat := 16

/-- The type of a column with its size. A precision goes before a limit. -/
def columnType (c : Column) : Text :=
  c.type.toList ++
    match c.limit, c.precision, c.scale with
    | _, some p, some s => "(".toList ++ p.toNat.repr.toList ++ ",".toList ++ s.toNat.repr.toList ++ ")".toList
    | _, some p, none => "(".toList ++ p.toNat.repr.toList ++ ")".toList
    | some l, none, _ => "(".toList ++ l.toNat.repr.toList ++ ")".toList
    | none, none, _ => []

/-- What is said of a column besides its type. -/
def columnAttributes (c : Column) : List Text :=
  (if c.nullable then [] else ["not null".toList]) ++
    (c.default.map fun d => "default(".toList ++ d.toList ++ ")".toList).toList ++
    (if c.primaryKey then ["primary key".toList] else []) ++
    (c.comment.map fun r => "comment(".toList ++ r.toList ++ ")".toList).toList

/-- The line of one column in a table whose names take `width` characters. -/
def columnLine (width : Nat) (c : Column) : Text :=
  Text.trimEnd (' ' :: Text.padEnd width c.name.toList ++ ':' :: Text.padEnd typeWidth (columnType c) ++
    ' ' :: ", ".toList.intercalate (columnAttributes c))

/-- The lines of the columns, in the recorded order. -/
def columnLines (cs : List Column) : List Text :=
  cs.map (columnLine (Text.columnWidth (cs.map (·.name.toList)) + 1))

/-- The items by their names; items of one name keep their order. -/
def byName (name : α → String) (l : List α) : List α := l.mergeSort fun a b => name a ≤ name b

/-- The lines of a section: for each item, by name, its name and what is said of it. -/
def namedLines (name : α → String) (detail : α → Text) (l : List α) : List Text :=
  let width := Text.columnWidth (l.map fun a => (name a).toList)
  (byName name l).map fun a => ' ' :: Text.padEnd width (name a).toList ++ "  ".toList ++ detail a

/-- A word and what follows it, if there is something. -/
def clause (word : String) (rest : Option String) : Text :=
  match rest with
  | some s => word.toList ++ s.toList
  | none => []

/-- The lines of the indexes. -/
def indexLines : List TableIndex → List Text :=
  namedLines (·.name) fun i =>
    "(".toList ++ ",".toList.intercalate (i.columns.map String.toList) ++ ")".toList ++
      (if i.unique then " UNIQUE".toList else []) ++ clause " WHERE " i.condition ++
      clause " USING " i.method

/-- The lines of the foreign keys. -/
def foreignKeyLines : List ForeignKey → List Text :=
  namedLines (·.name) fun k =>
    "(".toList ++ k.column.toList ++ " => ".toList ++ k.toTable.toList ++ ".".toList ++
      k.primaryKey.toList ++ ")".toList ++ clause " ON DELETE => " k.onDelete ++
      clause " ON UPDATE => " k.onUpdate

/-- The lines of the check constraints. -/
def checkLines : List CheckConstraint → List Text :=
  namedLines (·.name) fun c => "(".toList ++ c.expression.toList ++ ")".toList

/-- A section with its title, if it is wanted and there is something in it. -/
def sectionLines (wanted : Bool) (title : String) (lines : List α → List Text) : Fetched α → List Text
  | .items (a :: l) => if wanted then [[], title.toList, []] ++ lines (a :: l) else []
  | .items [] => []
  | .failed _ => []

/-- The comment of an entity by what is recorded of its model. -/
def comment (options : Options) (e : Entity) (m : Model) : Except Fault Text := do
  let columns ← m.columns.get e.name "columns"
  return Text.joinLines
    (["== Schema Information".toList, [], "Table name: ".toList ++ e.table.toList] ++
      (m.capabilities.hierarchy.map fun h => "Hierarchy: ".toList ++ h.toList).toList ++
      [[]] ++ columnLines columns ++
      sectionLines options.indexes "Indexes" indexLines m.indexes ++
      sectionLines (options.foreignKeys && m.capabilities.foreignKeys) "Foreign Keys" foreignKeyLines
        m.foreignKeys ++
      sectionLines (options.checkConstraints && m.capabilities.checkConstraints) "Check Constraints"
        checkLines m.checkConstraints)

/-- The comment of an entity by the first model of its name in the snapshot. -/
def Snapshot.comment (options : Options) (s : Snapshot) (e : Entity) : Except Fault Text :=
  match s.find? e.name with
  | some m => Schema.comment options e m
  | none => .error (.unrecorded e.name)

end Schema
end Marginalia
