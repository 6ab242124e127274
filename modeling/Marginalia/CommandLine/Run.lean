/-
# Running the program

The program reads the settings, lets its arguments override them, runs the
command and ends with an exit code: zero if all went well, one after a fault
or a failed entity, two if the arguments are refused.

Key definitions: `Exit`, `CommandLine.settings`, `CommandLine.run`.
-/
import Marginalia.Command.Basic
import Marginalia.Command.Inspect
import Marginalia.CommandLine.Arguments

namespace Marginalia

/-- How the program ends. -/
structure Exit where
  /-- The exit code. -/
  code : Nat
  /-- What it prints. -/
  output : Output := {}
  /-- The files as it leaves them. -/
  files : FileTree
deriving DecidableEq, Repr

namespace CommandLine

/-- The name of the program and its version. -/
def versionLine : String := "rb-annotate 0.3.0"

/-- The settings of the project, as the arguments override them. -/
def settings (files : FileTree) (i : Invocation) : Except Fault Settings := do
  let s ← match i.config with
    | some p => Settings.load files p
    | none => Settings.discover files (i.root.getD (Path.ofString "."))
  return { s with
    root := (i.root.map Path.toString).getD s.root
    position := i.position.getD s.position
    dryRun := s.dryRun || i.dryRun
    allowOutside := s.allowOutside || i.allowOutside }

/-- The tags of the given names. -/
def tags (names : List String) : Except Fault (List Tag) :=
  names.mapM fun n =>
    match Tag.ofName? n with
    | some tag => .ok tag
    | none => .error (.unknownTag n)

/-- The end after a fault. -/
def failed (files : FileTree) (message : String) : Exit :=
  { code := 1, output := Output.errorLine ("Error: " ++ message), files := files }

/-- The end after a command that leaves a tally. -/
def finished (files : FileTree) (r : Except CommandFault CommandRun) : Exit :=
  match r with
  | .error f => failed files f.message
  | .ok run =>
    if run.tally.hasFailures then
      { code := 1
        output := run.output ++
          Output.errorLine ("✗ " ++ run.tally.failed.length.repr ++ " entities failed")
        files := run.files }
    else { code := 0, output := run.output, files := run.files }

/-- The end of a command under its settings. -/
def runCommand (files : FileTree) (s : Settings) (i : Invocation) : Exit :=
  match i.command with
  | .models snapshot noIndexes noForeignKeys noCheckConstraints =>
    let s := { s with
      showIndexes := s.showIndexes && !noIndexes
      showForeignKeys := s.showForeignKeys && !noForeignKeys
      showCheckConstraints := s.showCheckConstraints && !noCheckConstraints }
    finished files (Command.models files s i.json snapshot)
  | .routes snapshot file => finished files (Command.routes files s i.json snapshot file)
  | .mailers snapshot => finished files (Command.mailers files s i.json snapshot)
  | .remove names =>
    match tags names with
    | .error f => failed files f.message
    | .ok ts => finished files (Command.remove files s i.json ts)
  | .inspect p =>
    if files.isFile p then { code := 0, output := Command.inspect files p i.json, files := files }
    else { code := 1, output := Output.errorLine ("✗ File not found: " ++ p.toString), files := files }

/-- Runs the program with arguments. -/
def run (files : FileTree) (args : List String) : Exit :=
  match Request.ofArguments args with
  | .refused => { code := 2, files := files }
  | .help => { code := 0, files := files }
  | .version => { code := 0, output := Output.line versionLine, files := files }
  | .invoke i =>
    match settings files i with
    | .error f => failed files f.message
    | .ok s => runCommand files s i

end CommandLine
end Marginalia
