/-
# Rewriting the text of one file

All targets of a file are handled on one text. Where a tag has one target and
the text has one block of the tag, the block is exchanged where it stands;
otherwise the blocks of the tag are taken out and the targets' blocks are put
in anew, those of all tags at once. Blocks at a line come last. A rewrite
that differs from the text only by folded blank lines is none.

Key definitions: `Draft`, `exchange?`, `Draft.afterTag`, `Draft.afterLine`, `draft`, `rewrite`.
-/
import Marginalia.Annotation.Target
import Marginalia.Block.Rewrite
import Marginalia.Placement.Batch

namespace Marginalia
namespace Annotation

/-- A text on which targets are being worked on. -/
structure Draft where
  /-- The text as it stands. -/
  text : Text
  /-- The identifiers of the targets whose place was found. -/
  placed : List String := []
  /-- The targets whose blocks are to be put in anew, with the names of their classes. -/
  pending : List (Target × String) := []
deriving DecidableEq, Repr

/-- The text with the target's block in place of the only block of its tag; `none` if there are
more or none, if the target says nothing, or if its class is not there. -/
def exchange? (parse : Text → Index) (t : Text) (target : Target) (name : String) : Option Text :=
  if target.block = [] ∨ Block.count target.tag t ≠ 1 then none
  else if ((parse t).resolve? name).isNone then none
  else Block.replace? target.tag target.block t

/-- The targets of a tag that are placed at a class, with its name. -/
def atClasses (tag : Tag) (group : List Target) : List (Target × String) :=
  group.filterMap fun t =>
    match t.className? with
    | some name => if t.tag = tag then some (t, name) else none
    | none => none

namespace Draft

/-- Takes out the blocks of the tag, to put in those of the targets later. -/
def strip (d : Draft) (tag : Tag) (targets : List (Target × String)) : Draft :=
  { d with text := Block.removeAll tag d.text, pending := d.pending ++ targets }

/-- Handles the targets of one tag that are placed at classes. -/
def afterTag (parse : Text → Index) (group : List Target) (d : Draft) (tag : Tag) : Draft :=
  match atClasses tag group with
  | [] => d
  | [(target, name)] =>
    match exchange? parse d.text target name with
    | some t => { d with text := t, placed := d.placed ++ [target.identifier] }
    | none => d.strip tag [(target, name)]
  | targets => d.strip tag targets

/-- Puts in the blocks that are pending. -/
def afterPending (parse : Text → Index) (pos : Position) (d : Draft) : Draft :=
  let outcome := Placement.insertAll pos (parse d.text) d.text
    (d.pending.map fun p => { name := p.2, block := p.1.block })
  { text := outcome.text
    placed := d.placed ++
      (d.pending.filter fun p => outcome.inserted.contains p.2).map (·.1.identifier) }

/-- Handles a target that is placed at a line. -/
def afterLine (d : Draft) (target : Target) : Draft :=
  match target.anchor with
  | .declaration _ => d
  | .line pattern =>
    let t := Block.upsert target.tag target.block pattern.isIn d.text
    if t ≠ d.text || Block.isIn target.tag d.text || pattern.isIn d.text then
      { d with text := t, placed := d.placed ++ [target.identifier] }
    else { d with text := t }

end Draft

/-- The draft once all targets of a group were handled. -/
def draft (parse : Text → Index) (pos : Position) (group : List Target) (t : Text) : Draft :=
  let d := Tag.all.foldl (Draft.afterTag parse group) { text := t }
  let d := if d.pending.isEmpty then d else d.afterPending parse pos
  group.foldl Draft.afterLine d

/-- The text of a file for a group of targets, and the identifiers of the placed ones. -/
def rewrite (parse : Text → Index) (pos : Position) (group : List Target) (t : Text) :
    Text × List String :=
  let d := draft parse pos group t
  if d.placed.isEmpty || Text.foldBlankRuns t == d.text then (t, d.placed) else (d.text, d.placed)

end Annotation
end Marginalia
