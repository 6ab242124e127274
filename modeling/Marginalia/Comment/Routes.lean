/-
# Route comments

The route map: a table with a heading row and one row for each route.

Key definitions: `Routes.heading`, `Routes.row`, `Routes.comment`.
-/
import Marginalia.Snapshot.Routes
import Marginalia.Text.Blank
import Marginalia.Text.Padding

namespace Marginalia
namespace Routes

/-- The heading of the table, as a row of it. -/
def heading : Route where
  label := "Prefix"
  verb := "Verb"
  path := "URI Pattern"
  endpoint := "Controller#Action"

/-- A row whose first three fields have the given widths. The first one stands to the right. -/
def row (labelWidth verbWidth pathWidth : Nat) (r : Route) : Text :=
  Text.trimEnd (Text.padStart labelWidth r.label.toList ++ ' ' :: Text.padEnd verbWidth r.verb.toList ++
    ' ' :: Text.padEnd pathWidth r.path.toList ++ ' ' :: r.endpoint.toList)

/-- The rows of the table, the heading first. -/
def rows (rs : List Route) : List Text :=
  let all := heading :: rs
  all.map (row (Text.columnWidth (all.map (·.label.toList))) (Text.columnWidth (all.map (·.verb.toList)))
    (Text.columnWidth (all.map (·.path.toList))))

/-- The comment with the route map. -/
def comment (rs : List Route) : Text := Text.joinLines (["== Route Map".toList, []] ++ rows rs)

end Routes
end Marginalia
