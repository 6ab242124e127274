/-
# Inserting ready blocks into files

Blocks that are already written out go into one file, without regard to
blocks that stand in it. What cannot be placed leaves the file as it is.

Key definitions: `Insertion.plan?`, `Insertion.planAll?`, `Insertion.insert`, `Insertion.insertAll`.
-/
import Marginalia.Annotation.Target
import Marginalia.FileTree.Basic
import Marginalia.Placement.Batch

namespace Marginalia

/-- How ready blocks are inserted. -/
structure Insertion where
  /-- Where blocks go. -/
  position : Position := .top
  /-- Whether nothing is written. -/
  dryRun : Bool := false
  /-- What a source declares. -/
  parse : Text → Index

namespace Insertion

/-- The change that puts one block into a file; `none` if the file cannot be read or has no such
class. -/
def plan? (i : Insertion) (files : FileTree) (p : Path) (r : Placement.Request) : Option FileChange := do
  let before ← (files.read p).toOption
  let after ← Placement.insert? i.position (i.parse before) before r
  return { path := p, before := before, after := after }

/-- The change that puts several blocks into a file; `none` if the file cannot be read or has none
of the classes. -/
def planAll? (i : Insertion) (files : FileTree) (p : Path) (rs : List Placement.Request) :
    Option (FileChange × Placement.Outcome) := do
  let before ← (files.read p).toOption
  let outcome := Placement.insertAll i.position (i.parse before) before rs
  if outcome.inserted.isEmpty then none
  return ({ path := p, before := before, after := outcome.text }, outcome)

/-- Makes a change, unless nothing is to be written; tells whether it is done. -/
def commit (i : Insertion) (files : FileTree) (c : FileChange) : Bool × FileTree :=
  if i.dryRun then (true, files)
  else match files.write c.path c.after with
    | .ok files => (true, files)
    | .error _ => (false, files)

/-- Puts one block into a file; tells whether the file changed, or would in a dry run. -/
def insert (i : Insertion) (files : FileTree) (p : Path) (r : Placement.Request) : Bool × FileTree :=
  match i.plan? files p r with
  | some c => if c.isNoop then (false, files) else i.commit files c
  | none => (false, files)

/-- Puts several blocks into a file; tells how many found their class, if the file changed. -/
def insertAll (i : Insertion) (files : FileTree) (p : Path) (rs : List Placement.Request) :
    Nat × FileTree :=
  match i.planAll? files p rs with
  | some (c, outcome) =>
    if c.isNoop then (0, files)
    else match i.commit files c with
      | (true, files) => (outcome.inserted.length, files)
      | (false, files) => (0, files)
  | none => (0, files)

end Insertion
end Marginalia
