/-
# File names by convention

By convention the file of a class is named for it in lower case, with an
underscore where a word begins and a separator for each scope mark. The words
are found by two passes: the first ends a run of capitals and digits before
the capital that begins a word, the second begins a word at a capital after a
small letter or a digit.

Key definitions: `Naming.acronymEnd?`, `Naming.wordEnd?`, `Naming.cutWords`, `Naming.underscore`.
-/
import Marginalia.Unicode.LetterCase

namespace Marginalia
namespace Naming

/-- A small letter of ASCII. -/
def isSmall (c : Char) : Bool := 'a' ≤ c && c ≤ 'z'

/-- A capital of ASCII. -/
def isCapital (c : Char) : Bool := 'A' ≤ c && c ≤ 'Z'

/-- A capital of ASCII or a digit of any script. -/
def isCapitalOrDigit (c : Char) : Bool := isCapital c || Unicode.isDigit c

/-- A small letter of ASCII or a digit of any script. -/
def isSmallOrDigit (c : Char) : Bool := isSmall c || Unicode.isDigit c

/-- The text with a separator for each scope mark. -/
def separateScopes : Text → Text
  | ':' :: ':' :: r => '/' :: separateScopes r
  | c :: r => c :: separateScopes r
  | [] => []

/-- A place where a text is cut: what comes before it and what comes after, both of which are
used up, and the rest. -/
abbrev Cut := Text × Text × Text

/-- The cut of a text that starts with a run of capitals and digits: the last capital of the run
begins a word if a small letter follows it. -/
def acronymEnd? (t : Text) : Option Cut :=
  let run := t.takeWhile isCapitalOrDigit
  match run.reverse, t.drop run.length with
  | last :: c :: cs, next :: rest =>
    if isCapital last && isSmall next then some ((c :: cs).reverse, [last, next], rest) else none
  | _, _ => none

/-- The cut of a text that starts with a small letter or a digit before a capital. -/
def wordEnd? : Text → Option Cut
  | a :: b :: rest => if isSmallOrDigit a && isCapital b then some ([a], [b], rest) else none
  | _ => none

/-- Puts an underscore at every cut, from the left, going on after what a cut has used up. A cut
uses up a character at least, so `fuel` may be the length of the text. -/
def cutWords (cut? : Text → Option Cut) : (fuel : Nat) → Text → Text
  | 0, t => t
  | _, [] => []
  | fuel + 1, c :: cs =>
    match cut? (c :: cs) with
    | some (before, after, rest) => before ++ '_' :: after ++ cutWords cut? fuel rest
    | none => c :: cutWords cut? fuel cs

/-- A hyphen becomes an underscore. -/
def joinHyphen (c : Char) : Char := if c = '-' then '_' else c

/-- The name of a class as the path of a file, without an ending. -/
def underscore (name : Text) : Text :=
  let t := separateScopes name
  let t := cutWords acronymEnd? t.length t
  let t := cutWords wordEnd? t.length t
  Unicode.lowerText (t.map joinHyphen)

end Naming
end Marginalia
