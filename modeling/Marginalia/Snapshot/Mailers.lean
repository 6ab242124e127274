/-
# Mailer snapshots

The mailers of an application with their actions, as recorded.

Key definitions: `Mailers.Action`, `Mailers.Mailer`, `Mailers.Snapshot`.
-/
import Marginalia.Snapshot.Fetched

namespace Marginalia
namespace Mailers

/-- A mail that a mailer can send. -/
structure Action where
  /-- The action's name. -/
  name : String
  /-- The names of its parameters. -/
  params : List String := []
deriving DecidableEq, Repr

/-- Reads an action. -/
def Action.ofValue? (v : Value) : Option Action := do
  let f ← v.fields? ["name", "params"]
  some {
    name := ← f.need "name" Value.text?
    params := ← f.orDefault "params" (Value.items? Value.text?) [] }

/-- The value by which an action is written. -/
def Action.toValue (a : Action) : Value := .object [("name", .str a.name), ("params", .strs a.params)]

/-- A mailer: its class, the file that defines it, where that is known, and its actions. -/
structure Mailer where
  /-- The name of the mailer's class. -/
  name : String
  /-- The path of the file that defines the class. -/
  sourceFile : Option String := none
  /-- The actions. -/
  actions : Fetched Action
deriving DecidableEq, Repr

/-- Reads a mailer. -/
def Mailer.ofValue? (v : Value) : Option Mailer := do
  let f ← v.fields? ["name", "source_location", "actions"]
  some {
    name := ← f.need "name" Value.text?
    sourceFile := ← f.orDefault "source_location" (Value.option? Value.text?) none
    actions := ← f.need "actions" (Fetched.ofValue? Action.ofValue?) }

/-- The value by which a mailer is written. -/
def Mailer.toValue (m : Mailer) : Value :=
  .object [("name", .str m.name), ("source_location", .optStr m.sourceFile),
    ("actions", m.actions.toValue Action.toValue)]

/-- All mailers of an application. -/
structure Snapshot where
  /-- The mailers as recorded. -/
  mailers : List Mailer := []
deriving DecidableEq, Repr

/-- Reads a snapshot. -/
def Snapshot.ofValue? (v : Value) : Option Snapshot := do
  let f ← v.fields? ["mailers"]
  some { mailers := ← f.need "mailers" (Value.items? Mailer.ofValue?) }

/-- The value by which a snapshot is written. -/
def Snapshot.toValue (s : Snapshot) : Value :=
  .object [("mailers", .list (s.mailers.map Mailer.toValue))]

end Mailers
end Marginalia
