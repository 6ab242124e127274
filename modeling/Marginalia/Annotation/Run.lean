/-
# Runs over files

A run puts the annotations of many targets into their files, or takes blocks
out of them. The targets of one file are handled together. A file is touched
only if it exists, lies within the root and is not excluded; in a dry run all
is worked out but nothing written.

Key definitions: `Annotator`, `Annotator.admits`, `Annotator.groups`, `Annotator.applyAll`,
`Annotator.removeAll`, `Annotator.removeFrom`.
-/
import Marginalia.Annotation.Rewrite
import Marginalia.FileTree.Basic
import Marginalia.Glob

namespace Marginalia

/-- How runs are made. -/
structure Annotator where
  /-- The folder that holds all files which may be written. -/
  root : Path
  /-- Where blocks go. -/
  position : Position := .top
  /-- Whether nothing is written. -/
  dryRun : Bool := false
  /-- Whether files outside the root may be written. -/
  allowOutside : Bool := false
  /-- The files that are not written. -/
  exclude : List Glob := []
  /-- What a source declares. -/
  parse : Text → Index

/-- What a run leaves: the tally and the files. -/
structure Run where
  /-- What became of the entities. -/
  tally : Tally := {}
  /-- The files as they are now. -/
  files : FileTree
deriving DecidableEq, Repr

namespace Annotator

/-! ### Which files are touched -/

/-- A path without links, dots and steps up; one that leads nowhere is left as it is. -/
def canonical (files : FileTree) (p : Path) : Path := (files.canonical? p).getD p

/-- Whether the path leads into the root. -/
def isWithinRoot (a : Annotator) (files : FileTree) (p : Path) : Bool :=
  (canonical files p).startsWith (canonical files a.root)

/-- Whether the path as written, or its part below the root, is excluded. -/
def isExcluded (a : Annotator) (p : Path) : Bool :=
  let inner := (Path.dropLead? a.root p).getD p
  a.exclude.any fun g => g.accepts inner.text || g.accepts p.text

/-- Whether the path leads to a file that may be touched. -/
def admits (a : Annotator) (files : FileTree) (p : Path) : Bool :=
  files.isFile p && (a.allowOutside || a.isWithinRoot files p) && !a.isExcluded p

/-- The file of a target, if it may be touched. -/
def admitted? (a : Annotator) (files : FileTree) (t : Target) : Option Path :=
  t.file.filter (a.admits files)

/-- Adds a target to the group of its path, or makes a new group of it. -/
def addToGroup (p : Path) (t : Target) : List (Path × List Target) → List (Path × List Target)
  | [] => [(p, [t])]
  | g :: gs => if g.1.same p then (g.1, g.2 ++ [t]) :: gs else g :: addToGroup p t gs

/-- The targets by their paths, in the order in which the paths first occur. A target whose file
may not be touched is in no group. -/
def groups (a : Annotator) (files : FileTree) (targets : List Target) : List (Path × List Target) :=
  targets.foldl (fun gs t =>
    match a.admitted? files t with
    | some p => addToGroup p t gs
    | none => gs) []

/-- The identifiers of the targets whose file may not be touched. -/
def refused (a : Annotator) (files : FileTree) (targets : List Target) : List String :=
  (targets.filter fun t => (a.admitted? files t).isNone).map (·.identifier)

/-! ### Runs -/

/-- Makes a change, unless it changes nothing or the run is dry. -/
def commit (a : Annotator) (files : FileTree) (c : FileChange) : Except Fault FileTree :=
  if c.isNoop || a.dryRun then .ok files
  else (files.write c.path c.after).mapError Fault.io

/-- Reads the file at a path. -/
def read (files : FileTree) (p : Path) : Except Fault Text := (files.read p).mapError Fault.io

/-- Puts the annotations of a group into its file. -/
def applyGroup (a : Annotator) (files : FileTree) (p : Path) (group : List Target) : Except Fault Run := do
  let before ← read files p
  let (after, placed) := Annotation.rewrite a.parse a.position group before
  let change : FileChange := { path := p, before := before, after := after }
  let files ← a.commit files change
  let done (t : Target) : Bool := !change.isNoop && placed.contains t.identifier
  return {
    tally := {
      succeeded := (group.filter done).map (·.identifier)
      skipped := (group.filter fun t => !done t).map (·.identifier)
      changes := if change.isNoop then [] else [change] }
    files := files }

/-- Takes the blocks of the tags out of a file. -/
def removeTags (a : Annotator) (files : FileTree) (p : Path) (tags : List Tag) :
    Except Fault (Option FileChange × FileTree) := do
  let before ← read files p
  let change : FileChange :=
    { path := p, before := before, after := tags.foldl (fun t tag => Block.removeAll tag t) before }
  let files ← a.commit files change
  return (if change.isNoop then none else some change, files)

/-- Takes the blocks of all tags of a group out of its file. -/
def removeGroup (a : Annotator) (files : FileTree) (p : Path) (group : List Target) : Except Fault Run := do
  let (change, files) ← a.removeTags files p (Tag.all.filter fun tag => group.any (·.tag = tag))
  let ids := group.map (·.identifier)
  return match change with
    | some c => { tally := { succeeded := ids, changes := [c] }, files := files }
    | none => { tally := { skipped := ids }, files := files }

/-- Goes on with a run that may fail; if it does, the identifiers are counted as failed. -/
def extend (r : Run) (ids : List String) (next : FileTree → Except Fault Run) : Run :=
  match next r.files with
  | .ok s => { tally := r.tally ++ s.tally, files := s.files }
  | .error f => { r with tally := r.tally ++ Tally.failing ids f }

/-- Handles the targets group by group; those whose file may not be touched are skipped. -/
def overGroups (a : Annotator) (handle : FileTree → Path → List Target → Except Fault Run)
    (files : FileTree) (targets : List Target) : Run :=
  (a.groups files targets).foldl
    (fun r g => extend r (g.2.map (·.identifier)) fun files => handle files g.1 g.2)
    { tally := { skipped := a.refused files targets }, files := files }

/-- Puts the annotations of the targets into their files. -/
def applyAll (a : Annotator) : FileTree → List Target → Run := a.overGroups a.applyGroup

/-- Takes the blocks of the targets' tags out of their files. -/
def removeAll (a : Annotator) : FileTree → List Target → Run := a.overGroups a.removeGroup

/-- Takes the blocks of a tag out of one file, which is counted under its path. -/
def removeFromFile (a : Annotator) (tag : Tag) (r : Run) (p : Path) : Run :=
  if a.admits r.files p then
    extend r [p.toString] fun files => do
      let (change, files) ← a.removeTags files p [tag]
      return match change with
        | some c => { tally := { succeeded := [p.toString], changes := [c] }, files := files }
        | none => { tally := { skipped := [p.toString] }, files := files }
  else { r with tally := r.tally ++ { skipped := [p.toString] : Tally } }

/-- Takes the blocks of a tag out of files, which are counted under their paths. -/
def removeFrom (a : Annotator) (files : FileTree) (paths : List Path) (tag : Tag) : Run :=
  paths.foldl (a.removeFromFile tag) { files := files }

/-- Puts the annotation of one target into its file; tells whether the file changed. -/
def apply (a : Annotator) (files : FileTree) (t : Target) : Bool × FileTree :=
  let r := a.applyAll files [t]
  (!r.tally.succeeded.isEmpty, r.files)

/-- Takes the block of one target out of its file; tells whether the file changed. -/
def remove (a : Annotator) (files : FileTree) (t : Target) : Bool × FileTree :=
  let r := a.removeAll files [t]
  (!r.tally.succeeded.isEmpty, r.files)

end Annotator
end Marginalia
