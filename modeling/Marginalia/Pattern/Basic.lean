/-
# Patterns

A pattern is a regular expression with assertions on the place at which it
stands. Matching marks, among all places of a text at once, those at which a
match may begin, and finds those at which one may end; so no text takes long.

Key definitions: `Spot`, `Assertion`, `Pattern`, `Pattern.after`, `Pattern.isIn`.
Key theorems: `Pattern.length_after`.
-/
import Marginalia.Pattern.CharSet

namespace Marginalia

/-- A place in a text, between the character before it and the one after it. -/
structure Spot where
  /-- The character before the place; none at the start of the text. -/
  before : Option Char
  /-- The character after the place; none at the end of the text. -/
  after : Option Char
deriving DecidableEq, Repr

/-- The places of a text, one more than it has characters. -/
def Spot.all (t : Text) : List Spot :=
  List.zipWith Spot.mk (none :: t.map some) (t.map some ++ [none])

/-- Which characters make up words. -/
inductive WordKind where
  /-- Those of ASCII. -/
  | ascii
  /-- Those of every script. -/
  | unicode
deriving DecidableEq, Repr

/-- Whether the character is part of a word. -/
def WordKind.contains : WordKind → Char → Bool
  | ascii, c => CharSet.asciiWord.contains c
  | unicode, c => Unicode.isWord c

/-- A condition on a place in a text. -/
inductive Assertion where
  /-- The start of the text. -/
  | textStart
  /-- The end of the text. -/
  | textEnd
  /-- The start of a line. -/
  | lineStart
  /-- The end of a line. -/
  | lineEnd
  /-- The start of a line, where carriage returns end lines too. -/
  | lineStartReturn
  /-- The end of a line, where carriage returns end lines too. -/
  | lineEndReturn
  /-- The start or the end of a word. -/
  | wordEdge (k : WordKind)
  /-- Neither the start nor the end of a word. -/
  | noWordEdge (k : WordKind)
  /-- The start of a word. -/
  | wordStart (k : WordKind)
  /-- The end of a word. -/
  | wordEnd (k : WordKind)
  /-- No word goes on from before the place. -/
  | noWordBefore (k : WordKind)
  /-- No word goes on after the place. -/
  | noWordAfter (k : WordKind)
deriving DecidableEq, Repr

/-- Whether the condition holds at the place. -/
def Assertion.holds (a : Assertion) (s : Spot) : Bool :=
  let wordBefore (k : WordKind) : Bool := s.before.any k.contains
  let wordAfter (k : WordKind) : Bool := s.after.any k.contains
  match a with
  | textStart => s.before.isNone
  | textEnd => s.after.isNone
  | lineStart => s.before.isNone || s.before == some '\n'
  | lineEnd => s.after.isNone || s.after == some '\n'
  | lineStartReturn => s.before.isNone || s.before == some '\n' ||
      (s.before == some '\r' && s.after != some '\n')
  | lineEndReturn => s.after.isNone || s.after == some '\r' ||
      (s.after == some '\n' && s.before != some '\r')
  | wordEdge k => wordBefore k != wordAfter k
  | noWordEdge k => wordBefore k == wordAfter k
  | wordStart k => !wordBefore k && wordAfter k
  | wordEnd k => wordBefore k && !wordAfter k
  | noWordBefore k => !wordBefore k
  | noWordAfter k => !wordAfter k

/-- A regular expression. -/
inductive Pattern where
  /-- Matches nothing but the empty text. -/
  | empty
  /-- Matches one character of the set. -/
  | char (set : CharSet)
  /-- Matches the empty text where the condition holds. -/
  | assert (a : Assertion)
  /-- Matches the one pattern and then the other. -/
  | cat (a b : Pattern)
  /-- Matches one of the two patterns. -/
  | alt (a b : Pattern)
  /-- Matches the pattern at least `least` times and, if there is a bound, at most `most` times. -/
  | times (p : Pattern) (least : Nat) (most : Option Nat)
deriving DecidableEq, Repr

namespace Pattern

/-- For each place of a text, whether it is marked. -/
abbrev Marks := List Bool

/-- The places that are marked in one of the two. -/
def union (m n : Marks) : Marks := List.zipWith (· || ·) m n

/-- Takes a step `n` times; it ends early where a step changes nothing. -/
def iterate (step : Marks → Marks) : Nat → Marks → Marks
  | 0, m => m
  | n + 1, m =>
    let m' := step m
    if m' = m then m else iterate step n m'

/-- The places that the pattern leads to from the marked places. -/
def after (spots : List Spot) : Pattern → Marks → Marks
  | empty, m => m
  | char set, m =>
    (false :: List.zipWith (fun marked s => marked && s.after.any set.contains) m spots).dropLast
  | assert a, m => List.zipWith (fun marked s => marked && a.holds s) m spots
  | cat a b, m => after spots b (after spots a m)
  | alt a b, m => union (after spots a m) (after spots b m)
  | times p least most, m =>
    let more := match most with
      | some n => n - least
      | none => spots.length
    iterate (fun m => union m (after spots p m)) more (iterate (after spots p) least m)

/-- Whether the pattern matches somewhere in the text. -/
def isIn (p : Pattern) (t : Text) : Bool :=
  let spots := Spot.all t
  (p.after spots (spots.map fun _ => true)).any id

theorem length_iterate {step : Marks → Marks} {k : Nat} (h : ∀ m, m.length = k → (step m).length = k) :
    ∀ (n : Nat) (m : Marks), m.length = k → (iterate step n m).length = k
  | 0, _, hm => hm
  | n + 1, m, hm => by
    simp only [iterate]
    split
    · exact hm
    · exact length_iterate h n _ (h m hm)

/-- Every place is marked or not. -/
theorem length_after (spots : List Spot) (p : Pattern) :
    ∀ m : Marks, m.length = spots.length → (p.after spots m).length = spots.length := by
  induction p with
  | empty => exact fun _ hm => hm
  | char set => intro m hm; simp [after, hm]
  | assert a => intro m hm; simp [after, hm]
  | cat a b iha ihb => exact fun m hm => ihb _ (iha m hm)
  | alt a b iha ihb => intro m hm; simp [after, union, iha m hm, ihb m hm]
  | times p least most ih =>
    intro m hm
    refine length_iterate (fun n hn => ?_) _ _ (length_iterate ih _ _ hm)
    simp [union, hn, ih n hn]

end Pattern
end Marginalia
