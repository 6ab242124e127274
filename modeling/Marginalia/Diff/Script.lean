/-
# Edit scripts

An edit script turns one list of lines into another: it is a list of runs of
lines that are kept, deleted or inserted. The kept and deleted lines of a
script are the old list, the kept and inserted ones the new list. Besides its
lines a run records the places in both lists at which it was found.

Key definitions: `Diff.Run`, `Diff.oldLines`, `Diff.newLines`.
-/
import Marginalia.Text.Basic

namespace Marginalia
namespace Diff

/-- What becomes of the lines of a run. -/
inductive Action where
  /-- The lines stand in both lists. -/
  | keep
  /-- The lines stand in the old list only. -/
  | delete
  /-- The lines stand in the new list only. -/
  | insert
deriving DecidableEq, Repr

/-- Consecutive lines with one fate. -/
structure Run where
  /-- What becomes of the lines. -/
  action : Action
  /-- The recorded place in the old list. -/
  old : Nat
  /-- The recorded place in the new list. -/
  new : Nat
  /-- The lines. -/
  lines : List Text
deriving DecidableEq, Repr

namespace Run

/-- The recorded place in the old list at which the run ends. -/
def oldStop (r : Run) : Nat := if r.action = .insert then r.old else r.old + r.lines.length

/-- The recorded place in the new list at which the run ends. -/
def newStop (r : Run) : Nat := if r.action = .delete then r.new else r.new + r.lines.length

end Run

/-- The old list of a script. -/
def oldLines (script : List Run) : List Text :=
  (script.filter fun r => r.action ≠ .insert).flatMap (·.lines)

/-- The new list of a script. -/
def newLines (script : List Run) : List Text :=
  (script.filter fun r => r.action ≠ .delete).flatMap (·.lines)

/-- The length of the longest common start of two lists. -/
def commonStart : List Text → List Text → Nat
  | a :: as, b :: bs => if a = b then commonStart as bs + 1 else 0
  | _, _ => 0

/-- The length of the longest common end of two lists. -/
def commonEnd (as bs : List Text) : Nat := commonStart as.reverse bs.reverse

end Diff
end Marginalia
