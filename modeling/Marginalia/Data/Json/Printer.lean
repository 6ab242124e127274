/-
# Writing JSON

A value is written on one line without blanks (`Json.compact`), or with one
item a line, each level indented by two spaces (`Json.pretty`). A text is
quoted; the quote, the backslash and control characters are escaped, all
other characters stand for themselves.

Key definitions: `Json.quote`, `Json.compact`, `Json.pretty`.
-/
import Marginalia.Data.Value

namespace Marginalia
namespace Json

/-- The digit of a value below sixteen. -/
def hexDigit (n : Nat) : Char := (Nat.toDigits 16 n).getD 0 '0'

/-- A character inside a quoted text. -/
def escape (c : Char) : Text :=
  match c with
  | '"' => ['\\', '"']
  | '\\' => ['\\', '\\']
  | '\x08' => ['\\', 'b']
  | '\x0c' => ['\\', 'f']
  | '\n' => ['\\', 'n']
  | '\x0d' => ['\\', 'r']
  | '\t' => ['\\', 't']
  | c =>
    if c.toNat < 0x20 then ['\\', 'u', '0', '0', hexDigit (c.toNat / 16), hexDigit (c.toNat % 16)]
    else [c]

/-- A text in quotes. -/
def quote (s : String) : Text := '"' :: (s.toList.map escape).flatten ++ ['"']

/-- A decimal integer. -/
def intText (n : Int) : Text :=
  if n < 0 then '-' :: Nat.toDigits 10 n.natAbs else Nat.toDigits 10 n.natAbs

mutual

/-- The value on one line. -/
def compact : Value → Text
  | .null => ['n', 'u', 'l', 'l']
  | .bool true => ['t', 'r', 'u', 'e']
  | .bool false => ['f', 'a', 'l', 's', 'e']
  | .int n => intText n
  | .real l => l.toList
  | .str s => quote s
  | .bare w => quote w
  | .list items => '[' :: compactItems items ++ [']']
  | .sequence items => '[' :: compactItems items ++ [']']
  | .record fields => '\x7b' :: compactFields fields ++ ['\x7d']
  | .misfit => ['n', 'u', 'l', 'l']

/-- The items of a list with commas between them. -/
def compactItems : List Value → Text
  | [] => []
  | [v] => compact v
  | v :: vs => compact v ++ ',' :: compactItems vs

/-- The fields of a record with commas between them. -/
def compactFields : List (Key × Value) → Text
  | [] => []
  | [(k, v)] => quote k.text ++ ':' :: compact v
  | (k, v) :: fs => quote k.text ++ ':' :: compact v ++ ',' :: compactFields fs

end

/-- A new line at a level of nesting. -/
def newLine (level : Nat) : Text := '\n' :: List.replicate (2 * level) ' '

mutual

/-- The value with one item a line, at a level of nesting. -/
def prettyAt (level : Nat) : Value → Text
  | .list [] => ['[', ']']
  | .list items => '[' :: prettyItems (level + 1) items ++ newLine level ++ [']']
  | .record [] => ['\x7b', '\x7d']
  | .record fields => '\x7b' :: prettyFields (level + 1) fields ++ newLine level ++ ['\x7d']
  | v => compact v

/-- The items of a list, each on a line of its own. -/
def prettyItems (level : Nat) : List Value → Text
  | [] => []
  | [v] => newLine level ++ prettyAt level v
  | v :: vs => newLine level ++ prettyAt level v ++ ',' :: prettyItems level vs

/-- The fields of a record, each on a line of its own. -/
def prettyFields (level : Nat) : List (Key × Value) → Text
  | [] => []
  | [(k, v)] => newLine level ++ quote k.text ++ ':' :: ' ' :: prettyAt level v
  | (k, v) :: fs =>
    newLine level ++ quote k.text ++ ':' :: ' ' :: prettyAt level v ++ ',' :: prettyFields level fs

end

/-- The value with one item a line. -/
def pretty (v : Value) : Text := prettyAt 0 v

end Json
end Marginalia
