/-
# Reports

What a command prints of a tally: a line for each entity and a summary, or a
JSON record. A dry run prints the planned changes first.

Key definitions: `Output`, `Action`, `Tally.report`.
-/
import Marginalia.Annotation.Target
import Marginalia.Data.Json.Printer

namespace Marginalia

/-- What a command prints. -/
structure Output where
  /-- The text on the standard output. -/
  out : Text := []
  /-- The text on the standard error output. -/
  err : Text := []
deriving DecidableEq, Repr

namespace Output

/-- One output after the other. -/
def append (a b : Output) : Output := { out := a.out ++ b.out, err := a.err ++ b.err }

instance : Append Output := ⟨append⟩

/-- A line on the standard output. -/
def line (s : String) : Output := { out := s.toList ++ ['\n'] }

/-- A line on the standard error output. -/
def errorLine (s : String) : Output := { err := s.toList ++ ['\n'] }

end Output

/-- What a command does to files. -/
inductive Action where
  /-- It writes annotations. -/
  | annotate
  /-- It takes annotations out. -/
  | clean
deriving DecidableEq, Repr

namespace Action

/-- What was done. -/
def done : Action → String
  | annotate => "Annotated"
  | clean => "Cleaned"

/-- What would have been done. -/
def planned : Action → String
  | annotate => "Would have annotated"
  | clean => "Would have cleaned"

end Action

namespace Tally

/-- The record by which a tally is written; changes are left out. -/
def toValue (t : Tally) : Value :=
  .object [("succeeded", .strs t.succeeded), ("skipped", .strs t.skipped),
    ("failed", .list (t.failed.map fun f =>
      .object [("identifier", .str f.identifier), ("message", .str f.reason)]))]

/-- The report as a JSON record. -/
def jsonReport (t : Tally) : Output := { out := Json.pretty t.toValue ++ ['\n'] }

/-- The last line on what a command did. -/
def summary (t : Tally) (action : Action) (dryRun : Bool) : String :=
  (if t.hasFailures then "⚠" else "✓") ++ " " ++ (if dryRun then action.planned else action.done) ++ " " ++
    t.succeeded.length.repr ++ " of " ++ t.total.repr ++ " (" ++ t.changes.length.repr ++ " files, " ++
    t.skipped.length.repr ++ " skipped, " ++ t.failed.length.repr ++ " failed)"

/-- The report as lines. -/
def linesReport (t : Tally) (action : Action) (dryRun : Bool) : Output where
  out :=
    (if dryRun then t.changes.flatMap FileChange.diff else []) ++
      t.succeeded.flatMap (fun n => ("✓ " ++ n ++ "\n").toList) ++
      t.skipped.flatMap (fun n => ("→ " ++ n ++ " (unchanged)\n").toList) ++
      '\n' :: (t.summary action dryRun ++ "\n").toList ++
      (if dryRun && !t.changes.isEmpty then "Run without --dry-run to write changes\n".toList else [])
  err := t.failed.flatMap fun f => ("✗ " ++ f.identifier ++ ": " ++ f.reason ++ "\n").toList

/-- The report of a tally. -/
def report (t : Tally) (action : Action) (dryRun json : Bool) : Output :=
  if json then t.jsonReport else t.linesReport action dryRun

end Tally
end Marginalia
