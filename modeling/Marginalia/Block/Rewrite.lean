/-
# Rewriting a block where it stands

A block is exchanged for a new one with the old one's indentation
(`Block.replace?`), or put below an anchor line with a blank line on both
sides (`Block.upsert`). The anchor is any test on lines.

Key definitions: `Block.indentWith`, `Block.replace?`, `Block.spliceApart`, `Block.upsert`.
-/
import Marginalia.Block.Removal

namespace Marginalia
namespace Block

/-- The text with `indent` before every line that is not empty. -/
def indentWith (indent t : Text) : Text :=
  Text.joinLines ((Text.lines t).map fun l => if l = [] then [] else indent ++ l)

/-- The text with `new` in place of the first block of the tag, indented as the block was. -/
def replace? (tag : Tag) (new t : Text) : Option Text :=
  (Excerpt.find? tag t).map fun e => e.before ++ indentWith (Text.indentOf e.text) new ++ e.after

/-- A block between two texts, one blank line apart from each that holds more than newlines. -/
def spliceApart (before block after : Text) : Text :=
  let head := Text.dropEndNewlines before
  let tail := Text.dropNewlines after
  (if head = [] then [] else head ++ ['\n', '\n']) ++ block ++
    (if tail = [] then ['\n'] else '\n' :: '\n' :: tail)

/-- A raw line without the carriage returns and newlines at its end. -/
def anchorText (l : Text) : Text := Text.dropEndWhile (fun c => c == '\r' || c == '\n') l

/-- The raw lines up to the first that passes the test, and those below it. -/
def splitBelow? (isAnchor : Text → Bool) : List Text → Option (List Text × List Text)
  | [] => none
  | l :: ls =>
    if isAnchor (anchorText l) then some ([l], ls)
    else (splitBelow? isAnchor ls).map fun p => (l :: p.1, p.2)

/-- Puts `new` in place of the first block of the tag or, if there is none, below the first
line that passes the test; with neither the text stays as it is. An empty `new` removes the
blocks of the tag. -/
def upsert (tag : Tag) (new : Text) (isAnchor : Text → Bool) (t : Text) : Text :=
  if new = [] then removeAll tag t
  else match Excerpt.find? tag t with
    | some e => spliceApart e.before new e.after
    | none =>
      match splitBelow? isAnchor (Text.rawLines t) with
      | some (above, below) => spliceApart above.flatten new below.flatten
      | none => t

end Block
end Marginalia
