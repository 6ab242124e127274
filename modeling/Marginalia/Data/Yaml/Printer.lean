/-
# Writing YAML

Records are written one field a line, a list below its key without further
indentation. A text is written plain where it reads back as that text, in
single quotes where a plain form would be something else, as a block of lines
where it has line ends, and in double quotes where nothing else is possible.

Key definitions: `Yaml.Form`, `Yaml.formOf`, `Yaml.scalar`, `Yaml.print`.
-/
import Marginalia.Data.Json.Printer
import Marginalia.Data.Yaml.Scalar

namespace Marginalia
namespace Yaml

/-- The written form of a text. -/
inductive Form where
  /-- As it is. -/
  | plain
  /-- In single quotes. -/
  | single
  /-- In double quotes, with escapes. -/
  | double
  /-- As a block of lines. -/
  | block
deriving DecidableEq, Repr

/-- Words that some readers take for truth values. -/
def truthWords : List String :=
  ["y", "Y", "yes", "Yes", "YES", "n", "N", "no", "No", "NO", "true", "True", "TRUE", "false", "False",
    "FALSE", "on", "On", "ON", "off", "Off", "OFF"]

/-- Whether a character can be written as it is. -/
def isWritable (c : Char) : Bool :=
  let n := c.toNat
  c == '\n' || (0x20 ≤ n && n ≤ 0x7E) || (0xA0 ≤ n && n ≤ 0xFFFD && n ≠ 0xFEFF) || 0x10000 ≤ n

/-- A character that ends a line. -/
def isLineEnd (c : Char) : Bool := ['\n', '\r', '\u0085', '\u2028', '\u2029'].contains c

/-- Whether the sign would structure the document where it stands. `before` and `after` are its
neighbours. -/
def structures (before after : Option Char) (c : Char) : Bool :=
  let isGap (d : Option Char) : Bool := d.all fun d => isBlank d || isLineEnd d
  match before with
  | none => isIndicator c || (['?', ':', '-'].contains c && isGap after)
  | some _ => (c == ':' && isGap after) || (c == '#' && isGap before)

/-- Whether a sign of the text would structure the document. -/
def hasStructure : Option Char → Text → Bool
  | _, [] => false
  | before, c :: cs => structures before cs.head? c || hasStructure (some c) cs

/-- Whether the text has `first` right before `second`. -/
def hasPair (first second : Char → Bool) : Text → Bool
  | a :: b :: r => (first a && second b) || hasPair first second (b :: r)
  | _ => false

/-- Whether every character can be written and no blank stands before a line end. -/
def isRegular (t : Text) : Bool := t.all isWritable && !hasPair (· == ' ') isLineEnd t

/-- Whether the text can stand as it is. -/
def canBePlain (t : Text) : Bool :=
  isRegular t && !t.any isLineEnd && t.head? != some ' ' && t.getLast? != some ' ' &&
    ["---", "..."].all (fun m => (Text.after? m.toList t).isNone) && !hasStructure none t

/-- Whether the text can stand in single quotes. -/
def canBeSingle (t : Text) : Bool := isRegular t && !hasPair isLineEnd (· == ' ') t

/-- Whether the text can stand as a block of lines. -/
def canBeBlock (t : Text) : Bool := isRegular t && t.getLast? != some ' '

/-- The form in which a text is written. -/
def formOf (s : String) : Form :=
  let t := s.toList
  let unquoted : Form := if canBePlain t then .plain else if canBeSingle t then .single else .double
  let quoted : Form := if canBeSingle t then .single else .double
  if truthWords.contains s then quoted
  else if t.contains '\n' then (if canBeBlock t then .block else .double)
  else if Word.isText s && !Word.hasIdleZero t then unquoted
  else quoted

/-- A character in double quotes. -/
def escaped (c : Char) : Text :=
  let hex (width n : Nat) : Text :=
    let digits := (Nat.toDigits 16 n).map Char.toUpper
    List.replicate (width - digits.length) '0' ++ digits
  match c with
  | '\x00' => ['\\', '0']
  | '\x07' => ['\\', 'a']
  | '\x08' => ['\\', 'b']
  | '\t' => ['\\', 't']
  | '\n' => ['\\', 'n']
  | '\x0b' => ['\\', 'v']
  | '\x0c' => ['\\', 'f']
  | '\x0d' => ['\\', 'r']
  | '\x1b' => ['\\', 'e']
  | '"' => ['\\', '"']
  | '\\' => ['\\', '\\']
  | '\u0085' => ['\\', 'N']
  | '\u00A0' => ['\\', '_']
  | '\u2028' => ['\\', 'L']
  | '\u2029' => ['\\', 'P']
  | _ =>
    let n := c.toNat
    if isWritable c then [c]
    else if n ≤ 0xFF then '\\' :: 'x' :: hex 2 n
    else if n ≤ 0xFFFF then '\\' :: 'u' :: hex 4 n
    else '\\' :: 'U' :: hex 8 n

/-- A character in single quotes. -/
def singleChar (c : Char) : Text := if c = '\x27' then ['\x27', '\x27'] else [c]

/-- A text as a block of lines below a mark, each line behind the indentation. -/
def blockOf (indent : Nat) (t : Text) : Text :=
  let hint : Text := if t.head?.any (fun c => c == ' ' || isLineEnd c) then ['2'] else []
  let chomp : Text :=
    if t.getLast? ≠ some '\n' then ['-']
    else if t = ['\n'] ∨ (Text.after? ['\n', '\n'] t.reverse).isSome then ['+'] else []
  let lines := (Text.rawLines t).map Text.dropLineEnd
  '|' :: hint ++ chomp ++
    lines.flatMap fun l => '\n' :: (if l = [] then [] else List.replicate indent ' ' ++ l)

/-- A text in its written form. -/
def scalar (indent : Nat) (s : String) : Text :=
  match formOf s with
  | .plain => s.toList
  | .single => '\x27' :: s.toList.flatMap singleChar ++ ['\x27']
  | .double => '"' :: s.toList.flatMap escaped ++ ['"']
  | .block => blockOf indent s.toList

mutual

/-- A value that is no record, on the line of its key or hyphen, or the whole value where it has no
entries. -/
def inline (indent : Nat) : Value → Text
  | .str s => scalar indent s
  | .bare w => w.toList
  | .list _ => ['[', ']']
  | .sequence _ => ['[', ']']
  | .record _ => ['\x7b', '\x7d']
  | v => Json.compact v

/-- The fields of a record in a column, each on a line that a line end closes. The first field
stands on a line that has begun. -/
def fieldsAt (column : Nat) : (first : Bool) → List (Key × Value) → Text
  | _, [] => []
  | first, (k, v) :: fs =>
    (if first then [] else List.replicate column ' ') ++ inline (column + 2) (.str k.text) ++ ':' ::
      valueAt column v ++ fieldsAt column false fs

/-- The value after a key in a column. -/
def valueAt (column : Nat) : Value → Text
  | .list (v :: vs) => '\n' :: itemsAt column false (v :: vs)
  | .sequence (v :: vs) => '\n' :: itemsAt column false (v :: vs)
  | .record (f :: fs) => '\n' :: List.replicate (column + 2) ' ' ++ fieldsAt (column + 2) true (f :: fs)
  | v => ' ' :: inline (column + 2) v ++ ['\n']

/-- The items of a list in a column, each on a line that a line end closes. The first item may stand
on a line that has begun. -/
def itemsAt (column : Nat) : (first : Bool) → List Value → Text
  | _, [] => []
  | first, v :: vs =>
    (if first then [] else List.replicate column ' ') ++ '-' :: ' ' :: itemAt column v ++
      itemsAt column false vs

/-- An item after its hyphen. -/
def itemAt (column : Nat) : Value → Text
  | .list (v :: vs) => itemsAt (column + 2) true (v :: vs)
  | .sequence (v :: vs) => itemsAt (column + 2) true (v :: vs)
  | .record (f :: fs) => fieldsAt (column + 2) true (f :: fs)
  | v => inline (column + 2) v ++ ['\n']

end

/-- The value as a document. -/
def print : Value → Text
  | .list (v :: vs) => itemsAt 0 true (v :: vs)
  | .sequence (v :: vs) => itemsAt 0 true (v :: vs)
  | .record (f :: fs) => fieldsAt 0 true (f :: fs)
  | v => inline 2 v ++ ['\n']

end Yaml
end Marginalia
