/-
# Tables of characters

A table is written as words of hexadecimal code points: `41` is one
character, `41-5A` a run without gaps, `100:12E` a run of every second
character. In a table of shifts the run is followed by the image of its first
character, as in `41-5A>61`; the run keeps its order.

Key definitions: `Span`, `Table`, `Table.contains`, `Shifts.image`, `Shifts.origins`.
-/
import Marginalia.Data.Value

namespace Marginalia
namespace Unicode

/-- A run of code points at equal distances. -/
structure Span where
  /-- The first code point of the run. -/
  first : Nat
  /-- The last code point of the run. -/
  last : Nat
  /-- The distance between two neighbours. -/
  step : Nat
deriving DecidableEq, Repr

namespace Span

/-- Whether a code point is in the run. -/
def contains (s : Span) (n : Nat) : Bool := s.first ≤ n && n ≤ s.last && (n - s.first) % s.step == 0

/-- Reads a run. -/
def ofText (t : Text) : Span :=
  let number (t : Text) : Nat := (Word.ofDigits? 16 t).getD 0
  let isDigit (c : Char) : Bool := c != '-' && c != ':'
  let first := number (t.takeWhile isDigit)
  match t.dropWhile isDigit with
  | '-' :: last => ⟨first, number last, 1⟩
  | _ :: last => ⟨first, number last, 2⟩
  | [] => ⟨first, first, 1⟩

end Span

/-- The words of a text between its spaces. -/
def words (t : Text) : List Text :=
  (t.foldr (fun c ws =>
    match c, ws with
    | ' ', ws => [] :: ws
    | c, w :: ws => (c :: w) :: ws
    | c, [] => [[c]]) [[]]).filter (· ≠ [])

/-- A set of characters as runs of code points. -/
abbrev Table := List Span

namespace Table

/-- Reads a table. -/
def ofLines (ls : List String) : Table := ls.flatMap fun l => (words l.toList).map Span.ofText

/-- Whether the character is in the table. -/
def contains (t : Table) (c : Char) : Bool := t.any (·.contains c.toNat)

end Table

/-- A run of code points and what its first one is mapped to. -/
structure Shift where
  /-- The run. -/
  span : Span
  /-- The image of the first code point. -/
  image : Nat
deriving DecidableEq, Repr

/-- A map of characters that moves runs of code points. -/
abbrev Shifts := List Shift

namespace Shifts

/-- Reads a table of shifts. -/
def ofLines (ls : List String) : Shifts :=
  ls.flatMap fun l => (words l.toList).map fun w =>
    { span := Span.ofText (w.takeWhile (· != '>'))
      image := (Word.ofDigits? 16 ((w.dropWhile (· != '>')).drop 1)).getD 0 }

/-- The image of a character, if the table has it. -/
def image (s : Shifts) (c : Char) : Option Char :=
  (s.find? (·.span.contains c.toNat)).map fun s => Char.ofNat (s.image + (c.toNat - s.span.first))

/-- The characters that the table maps to the given one. -/
def origins (s : Shifts) (c : Char) : List Char :=
  s.filterMap fun s =>
    let n := s.span.first + (c.toNat - s.image)
    if s.image ≤ c.toNat ∧ s.span.contains n then some (Char.ofNat n) else none

end Shifts
end Unicode
end Marginalia
