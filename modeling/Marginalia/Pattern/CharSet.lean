/-
# Sets of characters

The sets that a pattern can ask for: ranges, properties and what is made of
them. Where letter case does not count, a set is closed under the characters
that differ in case alone.

Key definitions: `CharSet`, `CharSet.contains`, `CharSet.isAscii`.
-/
import Marginalia.Unicode.LetterCase

namespace Marginalia

/-- A set of characters. -/
inductive CharSet where
  /-- The empty set. -/
  | empty
  /-- The characters from the first to the last one. -/
  | range (first last : Char)
  /-- The characters with a property. -/
  | property (p : Unicode.Property)
  /-- The characters that are in one of the sets. -/
  | union (a b : CharSet)
  /-- The characters that are in both sets. -/
  | inter (a b : CharSet)
  /-- The characters of the first set that are not in the second. -/
  | diff (a b : CharSet)
  /-- The characters that are in one set and not in the other. -/
  | symmDiff (a b : CharSet)
  /-- The characters that are not in the set. -/
  | compl (a : CharSet)
  /-- The characters that differ from one of the set at most in case. -/
  | folded (a : CharSet)
  /-- The same for ASCII letters alone. -/
  | foldedAscii (a : CharSet)
deriving DecidableEq, Repr

namespace CharSet

/-- The set of one character. -/
def single (c : Char) : CharSet := range c c

/-- The characters that are in one of the sets. -/
def unionAll (l : List CharSet) : CharSet := l.foldr union empty

/-- The ranges of characters. -/
def ranges (l : List (Char × Char)) : CharSet := unionAll (l.map fun r => range r.1 r.2)

/-- Whether the character is in the set. -/
def contains : CharSet → Char → Bool
  | empty, _ => false
  | range first last, c => first ≤ c && c ≤ last
  | property p, c => p.contains c
  | union a b, c => a.contains c || b.contains c
  | inter a b, c => a.contains c && b.contains c
  | diff a b, c => a.contains c && !b.contains c
  | symmDiff a b, c => a.contains c != b.contains c
  | compl a, c => !a.contains c
  | folded a, c => a.contains c || (Unicode.caseVariants c).any a.contains
  | foldedAscii a, c => a.contains c || a.contains c.toLower || a.contains c.toUpper

mutual

/-- Whether it shows that every character of the set is an ASCII character. -/
def isAscii : CharSet → Bool
  | empty => true
  | range _ last => last.toNat < 0x80
  | property p => p = .ascii
  | union a b => a.isAscii && b.isAscii
  | inter a b => a.isAscii || b.isAscii
  | diff a b => a.isAscii || b.hasOthers
  | symmDiff a b => a.isAscii && b.isAscii
  | compl a => a.hasOthers
  | folded _ => false
  | foldedAscii a => a.isAscii

/-- Whether it shows that every character beyond ASCII is in the set. -/
def hasOthers : CharSet → Bool
  | empty => false
  | range _ _ => false
  | property p => p = .any
  | union a b => a.hasOthers || b.hasOthers
  | inter a b => a.hasOthers && b.hasOthers
  | diff a b => a.hasOthers && b.isAscii
  | symmDiff a b => (a.isAscii && b.hasOthers) || (a.hasOthers && b.isAscii)
  | compl a => a.isAscii
  | folded a => a.hasOthers
  | foldedAscii a => a.hasOthers

end

/-! ### Sets with a name -/

/-- The decimal digits of ASCII. -/
def asciiDigit : CharSet := range '0' '9'

/-- The blanks of ASCII. -/
def asciiSpace : CharSet := ranges [('\t', '\x0d'), (' ', ' ')]

/-- The characters of words in ASCII. -/
def asciiWord : CharSet := ranges [('0', '9'), ('A', 'Z'), ('_', '_'), ('a', 'z')]

/-- The sets of ASCII characters by their names. -/
def asciiClass? : String → Option CharSet
  | "alnum" => some (ranges [('0', '9'), ('A', 'Z'), ('a', 'z')])
  | "alpha" => some (ranges [('A', 'Z'), ('a', 'z')])
  | "ascii" => some (range '\x00' '\x7f')
  | "blank" => some (ranges [('\t', '\t'), (' ', ' ')])
  | "cntrl" => some (ranges [('\x00', '\x1f'), ('\x7f', '\x7f')])
  | "digit" => some asciiDigit
  | "graph" => some (range '!' '~')
  | "lower" => some (range 'a' 'z')
  | "print" => some (range ' ' '~')
  | "punct" => some (ranges [('!', '/'), (':', '@'), ('[', '\x60'), ('\x7b', '~')])
  | "space" => some asciiSpace
  | "upper" => some (range 'A' 'Z')
  | "word" => some asciiWord
  | "xdigit" => some (ranges [('0', '9'), ('A', 'F'), ('a', 'f')])
  | _ => none

end CharSet
end Marginalia
