/-
# Route snapshots

The routes of an application, as recorded.

Key definitions: `Routes.Route`, `Routes.Snapshot`.
-/
import Marginalia.Data.Shape

namespace Marginalia
namespace Routes

/-- One route. -/
structure Route where
  /-- The name under which the route is known; a route may have none. -/
  label : String := ""
  /-- The kind of request that it answers; empty if it answers every kind. -/
  verb : String := ""
  /-- The path of its requests. -/
  path : String
  /-- What answers them. -/
  endpoint : String
deriving DecidableEq, Repr

/-- Reads a route. -/
def Route.ofValue? (v : Value) : Option Route := do
  let f ← v.fields? ["prefix", "verb", "path", "reqs"]
  some {
    label := ← f.orDefault "prefix" Value.text? ""
    verb := ← f.orDefault "verb" Value.text? ""
    path := ← f.need "path" Value.text?
    endpoint := ← f.need "reqs" Value.text? }

/-- The value by which a route is written. -/
def Route.toValue (r : Route) : Value :=
  .object [("prefix", .str r.label), ("verb", .str r.verb), ("path", .str r.path),
    ("reqs", .str r.endpoint)]

/-- All routes of an application, in order. -/
structure Snapshot where
  /-- The routes as recorded. -/
  routes : List Route := []
deriving DecidableEq, Repr

/-- Reads a snapshot. -/
def Snapshot.ofValue? (v : Value) : Option Snapshot := do
  let f ← v.fields? ["routes"]
  some { routes := ← f.need "routes" (Value.items? Route.ofValue?) }

/-- The value by which a snapshot is written. -/
def Snapshot.toValue (s : Snapshot) : Value :=
  .object [("routes", .list (s.routes.map Route.toValue))]

end Routes
end Marginalia
