/-
# Placing one block

A block goes to the top of a file, right above a declaration or right below
it. At the top it stays below the leading directives, a blank line apart from
what surrounds it; beside a declaration it takes that declaration's
indentation.

Key definitions: `Position`, `Placement.atTop`, `Placement.above`, `Placement.below`,
`Placement.place`.
-/
import Marginalia.Block.Rewrite
import Marginalia.Declaration.Basic
import Marginalia.Directive

namespace Marginalia

/-- Where a block goes. -/
inductive Position where
  /-- Below the leading directives of the file. -/
  | top
  /-- Right above the line of the keyword. -/
  | before
  /-- Right below the line of the closing `end`. -/
  | after
deriving DecidableEq, Repr

namespace Position

/-- The name of a position in settings and answers. -/
def name : Position → String
  | top => "top"
  | before => "before"
  | after => "after"

/-- The position of a given name. -/
def ofName? (s : String) : Option Position := [top, before, after].find? (·.name == s)

end Position

namespace Placement

/-- The text with the block below its leading directives. -/
def atTop (t block : Text) : Text :=
  let (head, rest) := Directive.splitHeader t
  let rest := Text.dropNewlines rest
  (if head = [] then []
    else head ++ (if head.getLast? = some '\n' then [] else ['\n']) ++ ['\n']) ++
    block ++ '\n' :: (if rest = [] then [] else '\n' :: rest)

/-- The raw lines with the block as a line of its own below the first `n` of them. -/
def insertLine (ls : List Text) (n : Nat) (block : Text) : Text :=
  let head := (ls.take n).flatten
  head ++ (if head = [] ∨ head.getLast? = some '\n' then [] else ['\n']) ++
    block ++ '\n' :: (ls.drop n).flatten

/-- The indentation of line `n`, counted from one. -/
def indentAt (ls : List Text) (n : Nat) : Text := Text.indentOf (ls.getD (n - 1) [])

/-- The block with `indent` before every line that is not empty; without indentation it is
taken as it is. -/
def indented (indent block : Text) : Text :=
  if indent = [] then block else Block.indentWith indent block

/-- The text with the block right above the declaration. -/
def above (t : Text) (d : Declaration) (block : Text) : Text :=
  let ls := Text.rawLines t
  insertLine ls (d.line - 1) (indented (indentAt ls d.line) block)

/-- The text with the block right below the declaration. -/
def below (t : Text) (d : Declaration) (block : Text) : Text :=
  let ls := Text.rawLines t
  insertLine ls d.endLine (indented (indentAt ls d.line) block)

/-- The text with the block where the position says. -/
def place (pos : Position) (t : Text) (d : Declaration) (block : Text) : Text :=
  match pos with
  | .top => atTop t block
  | .before => above t d block
  | .after => below t d block

/-- The line of the declaration by which blocks are ordered. -/
def anchorLine (pos : Position) (d : Declaration) : Nat :=
  match pos with
  | .after => d.endLine
  | .top | .before => d.line

end Placement
end Marginalia
