/-
# Aligning two lists of lines

A shortest edit script is found by divide and conquer: common lines at both
ends are kept, and what remains is cut where a path of edits from the front
and one from the back meet. On every diagonal the paths keep the furthest
place that a number of edits reaches.

Key definitions: `Diff.meeting?`, `Diff.align`.
-/
import Marginalia.Diff.Script

namespace Marginalia
namespace Diff

/-- For each diagonal, the furthest place in the first list that is reached. -/
structure Frontier where
  /-- The places, with diagonal zero in the middle. -/
  cells : Array Nat
  /-- The index of diagonal zero. -/
  middle : Nat

namespace Frontier

/-- The frontier that has reached nothing, for diagonals up to `n` on both sides. -/
def start (n : Nat) : Frontier := ⟨Array.replicate (2 * n + 3) 0, n + 1⟩

/-- The place reached on a diagonal. -/
def get (f : Frontier) (k : Int) : Nat := f.cells.getD (k + f.middle).toNat 0

/-- The frontier with another place reached on a diagonal. -/
def set (f : Frontier) (k : Int) (x : Nat) : Frontier :=
  { f with cells := f.cells.setIfInBounds (k + f.middle).toNat x }

/-- The place from which diagonal `k` is followed after `d` edits: a deletion from the diagonal
below or an insertion from the one above, whichever has come further. -/
def entry (f : Frontier) (d k : Int) : Nat :=
  if k = -d ∨ (k ≠ d ∧ f.get (k - 1) < f.get (k + 1)) then f.get (k + 1) else f.get (k - 1) + 1

end Frontier

/-- The number of equal lines from the places `x` and `y` on. -/
def matching (a b : Array Text) (x y : Nat) : Nat :=
  go (a.size - x) 0
where
  /-- Counts on from `n`, with at most `fuel` lines left. -/
  go : Nat → Nat → Nat
    | 0, n => n
    | fuel + 1, n =>
      match a[x + n]?, b[y + n]? with
      | some l, some m => if l = m then go fuel (n + 1) else n
      | _, _ => n

/-- The diagonals that `d` edits can reach, from the highest down. -/
def diagonals (d : Nat) : List Int := (List.range (d + 1)).map fun (i : Nat) => (d : Int) - 2 * (i : Int)

/-- Follows each diagonal `d` edits in from the front of `a` and `b`, and stops when the frontier
from the other end is met, if `meets` allows it. The answer is the place where the last run of
equal lines begins and the place where it ends. -/
def sweep (a b : Array Text) (other : Frontier) (meets : Int → Bool) (d : Nat) :
    List Int → Frontier → Frontier × Option ((Nat × Nat) × (Nat × Nat))
  | [], f => (f, none)
  | k :: ks, f =>
    let x₀ := f.entry d k
    let y₀ := ((x₀ : Int) - k).toNat
    let n := matching a b x₀ y₀
    let f := f.set k (x₀ + n)
    let delta := (a.size : Int) - b.size
    if meets k && decide (a.size ≤ x₀ + n + other.get (delta - k)) then
      (f, some ((x₀, y₀), (x₀ + n, y₀ + n)))
    else sweep a b other meets d ks f

/-- The place at which a shortest script for `a` and `b` may be cut in two. -/
def meeting? (a b : Array Text) : Option (Nat × Nat) :=
  let n := a.size
  let m := b.size
  let limit := (n + m + 1) / 2 + 1
  go limit 0 (.start (limit + 1)) (.start (limit + 1))
where
  /-- Tries `d` edits from each end, and more if the ends do not meet. -/
  go : (fuel d : Nat) → Frontier → Frontier → Option (Nat × Nat)
    | 0, _, _, _ => none
    | fuel + 1, d, front, back =>
      let delta := (a.size : Int) - b.size
      let odd := delta % 2 != 0
      match sweep a b back (fun k => odd && decide ((k - delta).natAbs + 1 ≤ d)) d (diagonals d) front with
      | (_, some (start, _)) => some start
      | (front, none) =>
        match sweep a.reverse b.reverse front (fun k => !odd && decide ((k - delta).natAbs ≤ d)) d
            (diagonals d) back with
        | (_, some (_, stop)) => some (a.size - stop.1, b.size - stop.2)
        | (back, none) => go fuel (d + 1) front back

/-- A run, if it has lines. -/
def run (action : Action) (old new : Nat) (lines : List Text) : List Run :=
  if lines = [] then [] else [⟨action, old, new, lines⟩]

/-- A script for the lists `a` and `b`, which stand at the places `old` and `new`. -/
def alignAt : (fuel old new : Nat) → List Text → List Text → List Run
  | 0, old, new, a, b => run .delete old new a ++ run .insert (old + a.length) new b
  | fuel + 1, old, new, a, b =>
    let i := commonStart a b
    let a' := a.drop i
    let b' := b.drop i
    let j := commonEnd a' b'
    let a'' := a'.take (a'.length - j)
    let b'' := b'.take (b'.length - j)
    let old' := old + i
    let new' := new + i
    let middle :=
      if b'' = [] then run .delete old' new' a''
      else if a'' = [] then run .insert old' new' b''
      else match meeting? a''.toArray b''.toArray with
        | some (x, y) =>
          alignAt fuel old' new' (a''.take x) (b''.take y) ++
            alignAt fuel (old' + x) (new' + y) (a''.drop x) (b''.drop y)
        | none => run .delete old' new' a'' ++ run .insert old' new' b''
    run .keep old new (a.take i) ++ middle ++
      run .keep (old' + a''.length) (new' + b''.length) (a'.drop (a'.length - j))

/-- A shortest script that turns `a` into `b`. -/
def align (a b : List Text) : List Run := alignAt (a.length + b.length + 1) 0 0 a b

end Diff
end Marginalia
