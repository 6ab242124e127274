/-
# Quoted stretches of Ruby sources

Strings, symbols, word lists, regular expressions, shell commands and here
documents hide their text from the reader of an outline, but for the code
that some of them hold between `#{` and `}`.

Key definitions: `Ruby.Quote`, `Ruby.percentQuote?`, `Ruby.Heredoc`, `Ruby.heredoc?`.
-/
import Marginalia.Ruby.Word

namespace Marginalia
namespace Ruby

/-- How a quoted stretch ends and what it may hold. -/
structure Quote where
  /-- The character that ends the stretch. -/
  close : Char
  /-- The character that nests inside the stretch, if the two ends differ. -/
  opener : Option Char := none
  /-- Whether code may stand inside. -/
  interpolates : Bool := true
  /-- Whether letters right after the end belong to the stretch. -/
  flagged : Bool := false
deriving DecidableEq, Repr

/-- The character that closes a bracket. -/
def closing? : Char → Option Char
  | '(' => some ')'
  | '[' => some ']'
  | '\x7b' => some '\x7d'
  | '<' => some '>'
  | _ => none

/-- A stretch that begins with the delimiter `c`. -/
def delimited (c : Char) (interpolates flagged : Bool) : Quote :=
  match closing? c with
  | some close => { close, opener := some c, interpolates, flagged }
  | none => { close := c, interpolates, flagged }

/-- A punctuation mark of ASCII that may delimit a stretch. -/
def isDelimiter (c : Char) : Bool :=
  0x21 ≤ c.toNat && c.toNat < 0x7F && !c.isAlphanum

/-- The stretch that begins with the delimiter at hand, and what follows the delimiter. -/
def delimiter? (interpolates flagged : Bool) : Text → Option (Quote × Text)
  | c :: rest => if isDelimiter c then some (delimited c interpolates flagged, rest) else none
  | [] => none

/-- The stretch that begins after a percent sign, and what follows its delimiter. -/
def percentQuote? : Text → Option (Quote × Text)
  | k :: rest =>
    if ['q', 'w', 'i', 's'].contains k then delimiter? false false rest
    else if ['Q', 'W', 'I', 'x', 'r'].contains k then delimiter? true (k == 'r') rest
    else delimiter? true false (k :: rest)
  | [] => none

/-- A here document: the line that ends it and what its body may hold. -/
structure Heredoc where
  /-- The text of the line that ends the document. -/
  word : Text
  /-- Whether that line may be indented. -/
  indented : Bool
  /-- Whether code may stand inside. -/
  interpolates : Bool
deriving DecidableEq, Repr

/-- The here document of the word at hand, and what follows the word. -/
def heredocWord? (indented : Bool) (t : Text) : Option (Heredoc × Text) :=
  match t with
  | q :: rest =>
    if q = '"' ∨ q = '\x27' ∨ q = '\x60' then
      let word := rest.takeWhile fun c => c != q && c != '\n'
      match rest.drop word.length with
      | c :: after => if c = q ∧ word ≠ [] then some (⟨word, indented, q != '\x27'⟩, after) else none
      | [] => none
    else if isNameStart q then
      some (⟨t.takeWhile isNameChar, indented, true⟩, t.dropWhile isNameChar)
    else none
  | [] => none

/-- The here document that is announced after `<<`, and what follows its announcement. -/
def heredoc? : Text → Option (Heredoc × Text)
  | '~' :: rest => heredocWord? true rest
  | '-' :: rest => heredocWord? true rest
  | t => heredocWord? false t

/-- Whether the line at the start of a text ends the here document. -/
def Heredoc.endsAt (h : Heredoc) (t : Text) : Bool :=
  let line := t.takeWhile (· != '\n')
  let line := if line.getLast? == some '\x0d' then line.dropLast else line
  (if h.indented then line.dropWhile isGap else line) == h.word

end Ruby
end Marginalia
