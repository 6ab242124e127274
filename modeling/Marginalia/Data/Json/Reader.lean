/-
# Reading JSON

A reader of JSON texts after RFC 8259: lists and records nest at most 127
deep, a text may hold no bare control character, an escaped surrogate needs
its other half, and nothing but blanks may follow the value. The order of a
record's fields is kept, and so are repeated fields.

Key definitions: `Json.read?`.
-/
import Marginalia.Data.Value

namespace Marginalia
namespace Json

/-- The blanks that may stand between tokens. -/
def isBlank (c : Char) : Bool := c == ' ' || c == '\t' || c == '\n' || c == '\x0d'

/-- The text without the blanks at its start. -/
def skipBlanks (t : Text) : Text := t.dropWhile isBlank

/-! ### Texts -/

/-- The number that four hexadecimal digits denote, and what follows them. -/
def hex4? : Text → Option (Nat × Text)
  | a :: b :: c :: d :: rest => (Word.ofDigits? 16 [a, b, c, d]).map fun n => (n, rest)
  | _ => none

/-- The character of an escape after `\u`: one code unit, or two that are a surrogate pair. -/
def unicodeEscape? (t : Text) : Option (Char × Text) := do
  let (unit, rest) ← hex4? t
  if 0xD800 ≤ unit ∧ unit < 0xDC00 then
    match rest with
    | '\\' :: 'u' :: rest => do
      let (low, rest) ← hex4? rest
      if 0xDC00 ≤ low ∧ low < 0xE000 then
        some (Char.ofNat (0x10000 + (unit - 0xD800) * 0x400 + (low - 0xDC00)), rest)
      else none
    | _ => none
  else if 0xDC00 ≤ unit ∧ unit < 0xE000 then none
  else some (Char.ofNat unit, rest)

/-- The character that an escape of one letter stands for. -/
def letterEscape? : Char → Option Char
  | '"' => some '"'
  | '\\' => some '\\'
  | '/' => some '/'
  | 'b' => some '\x08'
  | 'f' => some '\x0c'
  | 'n' => some '\n'
  | 'r' => some '\x0d'
  | 't' => some '\t'
  | _ => none

/-- The rest of a text after its opening quote, up to the closing one, and what follows. Each step
takes at least one character, so `fuel` may be the length of the text. -/
def string? : (fuel : Nat) → Text → Option (Text × Text)
  | 0, _ => none
  | fuel + 1, t =>
    match t with
    | [] => none
    | '"' :: rest => some ([], rest)
    | '\\' :: 'u' :: rest => do
      let (c, rest) ← unicodeEscape? rest
      let (cs, rest) ← string? fuel rest
      some (c :: cs, rest)
    | '\\' :: e :: rest => do
      let c ← letterEscape? e
      let (cs, rest) ← string? fuel rest
      some (c :: cs, rest)
    | c :: rest =>
      if c.toNat < 0x20 ∨ c = '\\' then none
      else (string? fuel rest).map fun p => (c :: p.1, p.2)

/-! ### Numbers -/

/-- The digits at the start of a text and what follows them; at least one is needed. -/
def digits? (t : Text) : Option (Text × Text) :=
  match t.takeWhile Char.isDigit with
  | [] => none
  | ds => some (ds, t.dropWhile Char.isDigit)

/-- The digits before the point: a zero alone, or digits that do not begin with a zero. -/
def whole? : Text → Option (Text × Text)
  | '0' :: rest => if (rest.head?.any Char.isDigit) then none else some (['0'], rest)
  | t => digits? t

/-- The point and the digits after it, if there is a point. -/
def fraction? : Text → Option (Text × Text)
  | '.' :: rest => (digits? rest).map fun p => ('.' :: p.1, p.2)
  | t => some ([], t)

/-- The exponent, if there is one. -/
def exponent? : Text → Option (Text × Text)
  | c :: rest =>
    if c = 'e' ∨ c = 'E' then
      match rest with
      | '+' :: rest => (digits? rest).map fun p => (c :: '+' :: p.1, p.2)
      | '-' :: rest => (digits? rest).map fun p => (c :: '-' :: p.1, p.2)
      | _ => (digits? rest).map fun p => (c :: p.1, p.2)
    else some ([], c :: rest)
  | [] => some ([], [])

/-- A number without its sign. A number with a fraction or an exponent is no integer, and neither
is a zero with a sign. -/
def unsigned? (negative : Bool) (t : Text) : Option (Value × Text) := do
  let (whole, rest) ← whole? t
  let (fraction, rest) ← fraction? rest
  let (exponent, rest) ← exponent? rest
  let n := (Word.ofDigits? 10 whole).getD 0
  if fraction = [] ∧ exponent = [] ∧ ¬(negative = true ∧ n = 0) then
    some (.int (if negative then -(n : Int) else n), rest)
  else
    some (.real (String.ofList ((if negative then ['-'] else []) ++ whole ++ fraction ++ exponent)), rest)

/-- A number at the start of a text. -/
def number? : Text → Option (Value × Text)
  | '-' :: rest => unsigned? true rest
  | t => unsigned? false t

/-! ### Values -/

mutual

/-- A value at the start of a text, with lists and records nested at most `depth` deep. Each step
takes at least one character, so `fuel` is bounded by the length of the text. -/
def value? : (fuel depth : Nat) → Text → Option (Value × Text)
  | 0, _, _ => none
  | fuel + 1, depth, t =>
    match skipBlanks t with
    | 'n' :: 'u' :: 'l' :: 'l' :: rest => some (.null, rest)
    | 't' :: 'r' :: 'u' :: 'e' :: rest => some (.bool true, rest)
    | 'f' :: 'a' :: 'l' :: 's' :: 'e' :: rest => some (.bool false, rest)
    | '"' :: rest => (string? fuel rest).map fun p => (.str (String.ofList p.1), p.2)
    | '[' :: rest =>
      match depth with
      | 0 => none
      | depth + 1 =>
        match skipBlanks rest with
        | ']' :: rest => some (.list [], rest)
        | _ => (items? fuel depth rest).map fun p => (.list p.1, p.2)
    | '\x7b' :: rest =>
      match depth with
      | 0 => none
      | depth + 1 =>
        match skipBlanks rest with
        | '\x7d' :: rest => some (.record [], rest)
        | _ => (fields? fuel depth rest).map fun p => (.record p.1, p.2)
    | t => number? t

/-- The items of a list up to its closing bracket. -/
def items? : (fuel depth : Nat) → Text → Option (List Value × Text)
  | 0, _, _ => none
  | fuel + 1, depth, t => do
    let (v, rest) ← value? fuel depth t
    match skipBlanks rest with
    | ',' :: rest => do
      let (vs, rest) ← items? fuel depth rest
      some (v :: vs, rest)
    | ']' :: rest => some ([v], rest)
    | _ => none

/-- The fields of a record up to its closing brace. -/
def fields? : (fuel depth : Nat) → Text → Option (List (Key × Value) × Text)
  | 0, _, _ => none
  | fuel + 1, depth, t => do
    let (key, rest) ← match skipBlanks t with
      | '"' :: rest => string? fuel rest
      | _ => none
    let rest ← match skipBlanks rest with
      | ':' :: rest => some rest
      | _ => none
    let (v, rest) ← value? fuel depth rest
    let field : Key × Value := (⟨String.ofList key, false⟩, v)
    match skipBlanks rest with
    | ',' :: rest => do
      let (fs, rest) ← fields? fuel depth rest
      some (field :: fs, rest)
    | '\x7d' :: rest => some ([field], rest)
    | _ => none

end

/-- How deep lists and records may nest. -/
def maxDepth : Nat := 127

/-- The value that a JSON text holds. -/
def read? (t : Text) : Option Value :=
  match value? (2 * t.length + 2) maxDepth t with
  | some (v, rest) => if skipBlanks rest = [] then some v else none
  | none => none

end Json
end Marginalia
