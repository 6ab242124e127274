/-
# The program

Takes the files that a run may touch into a file tree, runs the command line
over the tree, writes the files that differ afterwards and prints what the
run prints. All decisions are made over the tree; nothing is decided here.

Key definitions: `Disk`, `main`.
-/
import Marginalia.CommandLine.Run
import Std.Data.HashMap

namespace Marginalia

/-- What was found at the locations that were looked at, by their paths. -/
abbrev Disk := Std.HashMap String (Location × Entry)

namespace Disk

/-- The path of a location. -/
def path (l : Location) : String := (FileTree.pathOf l).toString

/-- Adds what stands at a location, unless it was found before. -/
def add (found : Disk) (l : Location) (e : Entry) : Disk := found.insertIfNew (path l) (l, e)

/-- What stands at a location, with the locations that it leads to. -/
def look (l : Location) : IO (Option (Entry × List Location)) := do
  let place : IO.FS.DirEntry :=
    { root := ⟨path l.dropLast⟩, fileName := String.ofList (l.getLastD []) }
  try
    match (← place.path.symlinkMetadata).type with
    | .dir =>
      let inner := (← place.path.readDir).toList.map fun d => l ++ [d.fileName.toList]
      return some (.folder, inner)
    | .file => return some (.file (Content.ofBytes (← IO.FS.readBinFile place.path).toList), [])
    | .symlink =>
      let target := Path.ofString (← IO.FS.realPath place.path).toString
      return some (.link target, [FileTree.plainLocation {} target])
    | .other => return none
  catch _ => return none

/-- Adds what stands at the locations and at those that they lead to. What cannot be read is left
out. -/
partial def gather (found : Disk) : List Location → IO Disk
  | [] => return found
  | l :: ls => do
    if found.contains (path l) then gather found ls
    else match ← look l with
      | none => gather found ls
      | some (entry, next) => gather (found.add l entry) (next ++ ls)

/-- Adds the folders above what was found. -/
def withLeads (found : Disk) : Disk :=
  found.values.foldl (fun d e =>
    (List.range e.1.length).foldl (fun d n => d.add (e.1.take n) .folder) d) found

/-- The file tree of what was found. -/
def tree (found : Disk) (workingFolder : Location) : FileTree :=
  { entries := (found.add workingFolder .folder).withLeads.values
    workingFolder := workingFolder }

/-- Writes the files of `after` that differ from those that were found. -/
def save (found : Disk) (after : FileTree) : IO Unit :=
  for (l, entry) in after.entries do
    match entry with
    | .file (.text text) =>
      if (found[path l]?).map (·.2) != some entry then
        IO.FS.writeFile (path l) (String.ofList text)
    | _ => pure ()

end Disk

/-- The paths at which the settings of an invocation may stand. -/
def CommandLine.Invocation.settingsPaths (i : CommandLine.Invocation) : List Path :=
  match i.config with
  | some p => [p]
  | none => Settings.fileNames.map fun n => (i.root.getD (Path.ofString ".")).join (Path.ofString n)

/-- The paths with which an invocation works. -/
def CommandLine.Invocation.paths (i : CommandLine.Invocation) : List Path :=
  match i.command with
  | .models snapshot .. => snapshot.toList
  | .routes snapshot file => snapshot.toList ++ file.toList
  | .mailers snapshot => snapshot.toList
  | .remove _ => []
  | .inspect file => [file]

/-- The paths that the settings name. -/
def Settings.paths (s : Settings) : List Path :=
  Path.ofString s.root :: s.modelPaths ++ s.mailerPaths ++
    [s.routesFile, s.schemaSnapshot, s.routesSnapshot, s.mailerSnapshot].map s.resolve

end Marginalia

open Marginalia in
/-- Runs the program with arguments over the files that the arguments and the settings name. -/
def main (args : List String) : IO UInt32 := do
  let here := FileTree.plainLocation {} (Path.ofString (← IO.currentDir).toString)
  let locations (paths : List Path) : List Location :=
    paths.map (FileTree.plainLocation { workingFolder := here })
  let mut found : Disk := {}
  if let .invoke i := CommandLine.Request.ofArguments args then
    found ← Disk.gather found (locations i.settingsPaths)
    if let .ok s := CommandLine.settings (found.tree here) i then
      let paths := match i.command with
        | .inspect _ => i.paths
        | _ => i.paths ++ s.paths
      found ← Disk.gather found (locations paths)
  let exit := CommandLine.run (found.tree here) args
  found.save exit.files
  IO.print (String.ofList exit.output.out)
  IO.eprint (String.ofList exit.output.err)
  return exit.code.toUInt32
