/-
# Blank characters

The characters with the Unicode property `White_Space`, and trimming by them.

Key definitions: `isBlank`, `trimEnd`.
Key theorem: `isBlank_of_isWhitespace`.
-/
import Marginalia.Text.Basic

namespace Marginalia
namespace Text

/-- The character is white space in the sense of Unicode. -/
def isBlank (c : Char) : Bool :=
  let n := c.toNat
  (0x9 ≤ n && n ≤ 0xD) || n == 0x20 || n == 0x85 || n == 0xA0 || n == 0x1680 ||
    (0x2000 ≤ n && n ≤ 0x200A) || n == 0x2028 || n == 0x2029 || n == 0x202F || n == 0x205F ||
    n == 0x3000

/-- Every blank of the ASCII range that the core library knows is blank. -/
theorem isBlank_of_isWhitespace {c : Char} (h : c.isWhitespace = true) : isBlank c = true := by
  simp only [Char.isWhitespace, Bool.or_eq_true, decide_eq_true_eq] at h
  rcases h with ((h | h) | h) | h <;> subst h <;> decide

/-- The text without the blanks at its end. -/
def trimEnd (t : Text) : Text := dropEndWhile isBlank t

/-- The text without the blanks at its two ends. -/
def trim (t : Text) : Text := trimEnd (t.dropWhile isBlank)

end Text
end Marginalia
