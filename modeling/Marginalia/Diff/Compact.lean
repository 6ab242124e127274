/-
# Compacting edit scripts

Inserted lines can often stand at several places without changing what a
script does. Every insertion is moved up as far as it goes, and then down as
far as it goes; deletions and insertions that meet on the way change places
or, if they are of one kind, become one run. Runs keep their recorded places
when others pass them.

Key definitions: `Diff.Cut`, `Diff.Cut.up`, `Diff.Cut.down`, `Diff.compact`.
-/
import Marginalia.Diff.Align

namespace Marginalia
namespace Diff

/-- A script cut at one of its runs. -/
structure Cut where
  /-- The runs above, the nearest first. -/
  above : List Run
  /-- The run at the cut. -/
  here : Run
  /-- The runs below, the nearest first. -/
  below : List Run
deriving Repr

namespace Cut

/-- The number of lines and runs of a list of runs. -/
def weight (runs : List Run) : Nat := runs.foldr (fun r n => r.lines.length + 1 + n) 0

/-- The run at the cut, moved up past `n` kept lines that equal its last ones. -/
def raise (c : Cut) (kept : Run) (rest : List Run) (n : Nat) : Cut :=
  let moved := kept.lines.drop (kept.lines.length - n)
  let kept' := { kept with lines := kept.lines.take (kept.lines.length - n) }
  { above := if kept'.lines = [] then rest else kept' :: rest
    here :=
      { c.here with
        old := c.here.old - n
        new := c.here.new - n
        lines := moved ++ c.here.lines.take (c.here.lines.length - n) }
    below :=
      match c.below with
      | b :: bs =>
        if b.action = .keep then
          { b with old := b.old - n, new := b.new - n, lines := moved ++ b.lines } :: bs
        else ⟨.keep, kept.oldStop - n, c.here.newStop - n, moved⟩ :: c.below
      | [] => [⟨.keep, kept.oldStop - n, c.here.newStop - n, moved⟩] }

/-- The run at the cut, moved down past `n` kept lines that equal its first ones. -/
def lower (c : Cut) (kept : Run) (rest : List Run) (n : Nat) : Cut :=
  let moved := kept.lines.take n
  let kept' := { kept with old := kept.old + n, new := kept.new + n, lines := kept.lines.drop n }
  { above :=
      match c.above with
      | a :: as =>
        if a.action = .keep then { a with lines := a.lines ++ moved } :: as
        else ⟨.keep, kept.old, c.here.new, moved⟩ :: c.above
      | [] => [⟨.keep, kept.old, c.here.new, moved⟩]
    here :=
      { c.here with
        old := c.here.old + n
        new := c.here.new + n
        lines := c.here.lines.drop n ++ moved }
    below := if kept'.lines = [] then rest else kept' :: rest }

/-- Moves the run at the cut up as far as it goes. -/
def up : (fuel : Nat) → Cut → Cut
  | 0, c => c
  | fuel + 1, c =>
    match c.above with
    | [] => c
    | p :: rest =>
      if p.action = c.here.action then
        up fuel { c with above := rest, here := { p with lines := p.lines ++ c.here.lines } }
      else if p.action = .keep then
        let n := if c.here.action = .insert then commonEnd p.lines c.here.lines else 0
        if 0 < n then up fuel (c.raise p rest n)
        else if p.lines = [] then up fuel { c with above := rest }
        else c
      else up fuel { c with above := rest, below := p :: c.below }

/-- Moves the run at the cut down as far as it goes. -/
def down : (fuel : Nat) → Cut → Cut
  | 0, c => c
  | fuel + 1, c =>
    match c.below with
    | [] => c
    | q :: rest =>
      if q.action = c.here.action then
        down fuel { c with here := { c.here with lines := c.here.lines ++ q.lines }, below := rest }
      else if q.action = .keep then
        let n := if c.here.action = .insert then commonStart q.lines c.here.lines else 0
        if 0 < n then down fuel (c.lower q rest n)
        else if q.lines = [] then down fuel { c with below := rest }
        else c
      else down fuel { c with above := q :: c.above, below := rest }

end Cut

/-- Settles every run with the given action, from the top down; the runs of `above` are done. -/
def settle (action : Action) : (fuel : Nat) → (above below : List Run) → List Run
  | 0, above, below => above.reverse ++ below
  | _, above, [] => above.reverse
  | fuel + 1, above, r :: below =>
    if r.action = action then
      let weight := 2 * (Cut.weight above + Cut.weight (r :: below)) + 2
      let c := Cut.down weight (Cut.up weight ⟨above, r, below⟩)
      settle action fuel (c.here :: c.above) c.below
    else settle action fuel (r :: above) below

/-- The script with its deletions and then its insertions moved to their places. -/
def compact (script : List Run) : List Run :=
  let fuel := 2 * Cut.weight script + 2
  settle .insert fuel [] (settle .delete fuel [] script)

end Diff
end Marginalia
