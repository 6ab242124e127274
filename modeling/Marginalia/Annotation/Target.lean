/-
# Targets and tallies

A target is the annotation of one entity: what it says and where it belongs.
A run over targets ends with a tally, which sorts the entities by what became
of them and lists the rewritten files.

Key definitions: `Anchor`, `Target`, `FileChange`, `Tally`.
-/
import Marginalia.Block.Basic
import Marginalia.Diff.Unified
import Marginalia.Fault
import Marginalia.FileTree.Path
import Marginalia.Pattern.Basic

namespace Marginalia

/-- What a block is put next to. -/
inductive Anchor where
  /-- The class that a name stands for. -/
  | declaration (name : String)
  /-- The first line that matches. -/
  | line (pattern : Pattern)
deriving DecidableEq, Repr

/-- The annotation of one entity. -/
structure Target where
  /-- The name under which the entity is counted. -/
  identifier : String
  /-- The file to annotate, if one was found. -/
  file : Option Path
  /-- What the block is put next to. -/
  anchor : Anchor
  /-- The kind of annotation. -/
  tag : Tag
  /-- What the annotation says. -/
  payload : Text
deriving DecidableEq, Repr

namespace Target

/-- The block of the annotation; empty if it says nothing. -/
def block (t : Target) : Text := (Block.ofText t.tag t.payload).render

/-- The name of the class at which the block is placed, if it is placed at a class. -/
def className? (t : Target) : Option String :=
  match t.anchor with
  | .declaration name => some name
  | .line _ => none

end Target

/-- A rewritten file. -/
structure FileChange where
  /-- The path by which the file was named. -/
  path : Path
  /-- The text that was read. -/
  before : Text
  /-- The text that takes its place. -/
  after : Text
deriving DecidableEq, Repr

namespace FileChange

/-- Whether the two texts are equal. -/
def isNoop (c : FileChange) : Bool := c.before == c.after

/-- The change as a unified diff. -/
def diff (c : FileChange) : Text := Diff.unified c.path.toString c.before c.after

end FileChange

/-- An entity that could not be annotated, and why. -/
structure Failure where
  /-- The name of the entity. -/
  identifier : String
  /-- The reason. -/
  reason : String
deriving DecidableEq, Repr

/-- What became of the entities of a run. -/
structure Tally where
  /-- Those whose file was changed. -/
  succeeded : List String := []
  /-- Those for which there was nothing to do. -/
  skipped : List String := []
  /-- Those that could not be annotated. -/
  failed : List Failure := []
  /-- The changes of files, made or planned. -/
  changes : List FileChange := []
deriving DecidableEq, Repr

namespace Tally

/-- One tally after the other. -/
def append (a b : Tally) : Tally where
  succeeded := a.succeeded ++ b.succeeded
  skipped := a.skipped ++ b.skipped
  failed := a.failed ++ b.failed
  changes := a.changes ++ b.changes

instance : Append Tally := ⟨append⟩

/-- The tally in which all identifiers fail for one reason. -/
def failing (ids : List String) (f : Fault) : Tally where
  failed := ids.map fun i => ⟨i, f.message⟩

/-- Whether an entity failed. -/
def hasFailures (t : Tally) : Bool := !t.failed.isEmpty

/-- The number of entities. -/
def total (t : Tally) : Nat := t.succeeded.length + t.skipped.length + t.failed.length

end Tally
end Marginalia
