/-
# Mailer comments

The comment of a mailer: its actions with their parameters, one a line.

Key definition: `Mailers.comment`.
-/
import Marginalia.Snapshot.Mailers
import Marginalia.Text.Basic

namespace Marginalia
namespace Mailers

/-- The line of one action. -/
def actionLine (a : Action) : Text :=
  a.name.toList ++ "(".toList ++ ", ".toList.intercalate (a.params.map String.toList) ++ ")".toList

/-- The comment of a mailer; without a list of its actions there is none. -/
def comment (m : Mailer) : Except Fault Text := do
  let actions ← m.actions.get m.name "actions"
  let lines := if actions.isEmpty then ["(no actions)".toList] else actions.map actionLine
  return Text.joinLines (["== Mailer Information".toList, []] ++ lines)

end Mailers
end Marginalia
