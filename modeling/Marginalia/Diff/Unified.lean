/-
# Unified diffs

A script is shown as hunks: changes with three kept lines around them, the
deleted lines of a change above its inserted ones. The head of a hunk gives
the ranges of lines that it covers in both texts.

Key definitions: `Diff.splitLines`, `Diff.Part`, `Diff.hunks`, `Diff.unified`.
-/
import Marginalia.Diff.Compact

namespace Marginalia
namespace Diff

/-- The lines of a text with their line ends: a newline, a carriage return, or both. -/
def splitLines : Text → List Text
  | [] => []
  | '\x0d' :: '\n' :: cs => ['\x0d', '\n'] :: splitLines cs
  | c :: cs =>
    if c = '\n' ∨ c = '\x0d' then [c] :: splitLines cs
    else match splitLines cs with
      | [] => [[c]]
      | l :: ls => (c :: l) :: ls

/-- A stretch of a script: lines that are kept, or lines that are exchanged for others. -/
inductive Part where
  /-- Kept lines with their places. -/
  | same (old new : Nat) (lines : List Text)
  /-- Deleted and inserted lines with their places. -/
  | change (old new : Nat) (deleted inserted : List Text)
deriving DecidableEq, Repr

namespace Part

/-- The place in the old list. -/
def old : Part → Nat
  | same o _ _ => o
  | change o _ _ _ => o

/-- The place in the new list. -/
def new : Part → Nat
  | same _ n _ => n
  | change _ n _ _ => n

/-- The place in the old list at which the part ends. -/
def oldStop : Part → Nat
  | same o _ ls => o + ls.length
  | change o _ ds _ => o + ds.length

/-- The place in the new list at which the part ends. -/
def newStop : Part → Nat
  | same _ n ls => n + ls.length
  | change _ n _ is => n + is.length

end Part

/-- The script as parts: neighbouring deletions and insertions are one change. A change takes its
place in the old list from its deletions and its place in the new list from its insertions, as
far as it has them. -/
def parts : List Run → List Part
  | [] => []
  | r :: rs =>
    match r.action, parts rs with
    | .keep, .same _ _ ls :: ps => .same r.old r.new (r.lines ++ ls) :: ps
    | .keep, ps => .same r.old r.new r.lines :: ps
    | .delete, .change _ n ds is :: ps =>
      .change r.old (if is = [] then r.new else n) (r.lines ++ ds) is :: ps
    | .delete, ps => .change r.old r.new r.lines [] :: ps
    | .insert, .change o _ ds is :: ps =>
      .change (if ds = [] then r.old else o) r.new ds (r.lines ++ is) :: ps
    | .insert, ps => .change r.old r.new [] r.lines :: ps

/-- The number of kept lines around a change. -/
def context : Nat := 3

/-- Kept lines, all but the last `context` of them dropped. -/
def dropLead : List Part → List Part
  | .same o n ls :: ps =>
    let k := ls.length - context
    .same (o + k) (n + k) (ls.drop k) :: ps
  | ps => ps

/-- Kept lines at the end, all but the first `context` of them dropped. -/
def dropTail : List Part → List Part
  | [] => []
  | [.same o n ls] => [.same o n (ls.take context)]
  | p :: ps => p :: dropTail ps

/-- Cuts the parts where more than twice the context is kept; `group` holds the parts since the
last cut, the last first. -/
def cutAt (group : List Part) : List Part → List (List Part)
  | [] =>
    match group with
    | [] => []
    | [.same ..] => []
    | _ => [group.reverse]
  | .same o n ls :: ps =>
    if 2 * context < ls.length then
      let k := ls.length - context
      (.same o n (ls.take context) :: group).reverse :: cutAt [.same (o + k) (n + k) (ls.drop k)] ps
    else cutAt (.same o n ls :: group) ps
  | p :: ps => cutAt (p :: group) ps

/-- The hunks of a script. -/
def hunks (script : List Run) : List (List Part) := cutAt [] (dropTail (dropLead (parts script)))

/-- A range of lines, counted from one; a single line is named by its number, and an empty range
by the line above it. -/
def rangeText (start stop : Nat) : Text :=
  let n := stop - start
  if n = 1 then Nat.toDigits 10 (start + 1)
  else Nat.toDigits 10 (if n = 0 then start else start + 1) ++ ',' :: Nat.toDigits 10 n

/-- A line with its sign; a line without a line end is marked. -/
def lineText (sign : Char) (l : Text) : Text :=
  let ended := l.getLast?.any fun c => c == '\n' || c == '\x0d'
  sign :: l ++ (if ended then [] else "\n\\ No newline at end of file\n".toList)

/-- The lines of a part with their signs. -/
def partText : Part → Text
  | .same _ _ ls => ls.flatMap (lineText ' ')
  | .change _ _ ds is => ds.flatMap (lineText '-') ++ is.flatMap (lineText '+')

/-- A hunk with its head. -/
def hunkText (ps : List Part) : Text :=
  match ps, ps.getLast? with
  | first :: _, some last =>
    "@@ -".toList ++ rangeText first.old last.oldStop ++ " +".toList ++ rangeText first.new last.newStop ++
      " @@\n".toList ++ ps.flatMap partText
  | _, _ => []

/-- The unified diff of two texts under the names `a/…` and `b/…`; equal texts have an empty one. -/
def unified (name : String) (old new : Text) : Text :=
  if old = new then []
  else
    match hunks (compact (align (splitLines old) (splitLines new))) with
    | [] => []
    | hs =>
      "--- a/".toList ++ name.toList ++ "\n+++ b/".toList ++ name.toList ++ '\n' :: hs.flatMap hunkText

end Diff
end Marginalia
