/-
# Scalars of YAML

The written forms of a single text in a YAML document: plain, in single or
double quotes, and as a block of indented lines. In the first three a line
end stands for a blank and further line ends for themselves.

Key definitions: `Yaml.plainChunk`, `Yaml.singleQuoted?`, `Yaml.doubleQuoted?`, `Yaml.foldGaps`,
`Yaml.blockLines`.
-/
import Marginalia.Data.Json.Reader

namespace Marginalia
namespace Yaml

/-- A blank between the tokens of a line. -/
def isBlank (c : Char) : Bool := c == ' ' || c == '\t'

/-- Whether a text is at the end of a token: nothing, a blank or a line end follows. -/
def endsToken (t : Text) : Bool := t.head?.all fun c => isBlank c || c == '\n'

/-- The signs that structure lists and records within a line. -/
def isFlowSign (c : Char) : Bool := [',', '[', ']', '\x7b', '\x7d'].contains c

/-- Whether a colon before the text separates a key from its value. -/
def endsKey (flow : Bool) (t : Text) : Bool := endsToken t || (flow && t.head?.any isFlowSign)

/-! ### Plain scalars -/

/-- The signs that no plain scalar starts with. -/
def isIndicator (c : Char) : Bool :=
  isFlowSign c || ['#', '&', '*', '!', '|', '>', '\x27', '"', '%', '@', '\x60'].contains c

/-- Whether a plain scalar can start here. -/
def startsPlain (flow : Bool) : Text → Bool
  | [] => false
  | c :: cs =>
    if isBlank c || c == '\n' || isIndicator c then false
    else if c == '-' then !(cs.head?.any isBlank || endsToken cs)
    else if c == '?' || c == ':' then !flow && !endsToken cs
    else true

/-- The plain scalar up to the end of its line, a remark or what structures the line. -/
def plainRun (flow : Bool) : (afterBlank : Bool) → Text → Text
  | _, [] => []
  | afterBlank, c :: cs =>
    if c == '\n' || (c == '#' && afterBlank) || (c == ':' && endsKey flow cs) || (flow && isFlowSign c)
    then []
    else c :: plainRun flow (isBlank c) cs

/-- The same without blanks at its end. -/
def plainChunk (flow : Bool) (t : Text) : Text := Text.dropEndWhile isBlank (plainRun flow false t)

/-! ### Quoted scalars -/

/-- A character of a quoted scalar: as it stands there, or by an escape. -/
inductive Quoted where
  /-- The character itself. -/
  | raw (c : Char)
  /-- A character that was escaped. -/
  | escaped (c : Char)
  /-- A line end that was escaped. -/
  | joined
deriving DecidableEq, Repr

/-- The characters of a scalar after its opening single quote, and what follows the closing one. -/
def singleQuoted? : Text → Option (List Quoted × Text)
  | '\x27' :: '\x27' :: r => (singleQuoted? r).map fun p => (.escaped '\x27' :: p.1, p.2)
  | '\x27' :: r => some ([], r)
  | c :: r => (singleQuoted? r).map fun p => (.raw c :: p.1, p.2)
  | [] => none

/-- The character that a letter after a backslash stands for. -/
def letterEscape? : Char → Option Char
  | '0' => some '\x00'
  | 'a' => some '\x07'
  | 'b' => some '\x08'
  | 't' => some '\t'
  | '\t' => some '\t'
  | 'n' => some '\n'
  | 'v' => some '\x0b'
  | 'f' => some '\x0c'
  | 'r' => some '\x0d'
  | 'e' => some '\x1b'
  | ' ' => some ' '
  | '"' => some '"'
  | '/' => some '/'
  | '\\' => some '\\'
  | 'N' => some '\u0085'
  | '_' => some '\u00A0'
  | 'L' => some '\u2028'
  | 'P' => some '\u2029'
  | _ => none

/-- The number of hexadecimal digits after a letter. -/
def hexWidth? : Char → Option Nat
  | 'x' => some 2
  | 'u' => some 4
  | 'U' => some 8
  | _ => none

/-- The characters of a scalar after its opening double quote, and what follows the closing one.
Each step takes at least one character, so `fuel` may be the length of the text. -/
def doubleQuoted? : (fuel : Nat) → Text → Option (List Quoted × Text)
  | 0, _ => none
  | fuel + 1, t =>
    match t with
    | [] => none
    | '"' :: r => some ([], r)
    | '\\' :: '\n' :: r => (doubleQuoted? fuel r).map fun p => (.joined :: p.1, p.2)
    | '\\' :: e :: r =>
      match hexWidth? e with
      | some width => do
        let digits := r.take width
        if digits.length < width then none
        let n ← Word.ofDigits? 16 digits
        if !n.isValidChar then none
        let (qs, rest) ← doubleQuoted? fuel (r.drop width)
        some (.escaped (Char.ofNat n) :: qs, rest)
      | none => do
        let c ← letterEscape? e
        let (qs, rest) ← doubleQuoted? fuel r
        some (.escaped c :: qs, rest)
    | c :: r => (doubleQuoted? fuel r).map fun p => (.raw c :: p.1, p.2)

/-- What a gap with line ends stands for: a blank for one line end, else one line end less. -/
def foldedGap (lineEnds : Nat) : Text :=
  if lineEnds = 1 then [' '] else List.replicate (lineEnds - 1) '\n'

/-- The text of a quoted scalar. `blanks` are those since the last character; `lineEnds` counts the
line ends since then, or is `none` where no line was broken; `isJoined` tells whether the first of
them was escaped. -/
def foldGaps : (blanks : Text) → (lineEnds : Option Nat) → (isJoined : Bool) → List Quoted → Text
  | blanks, none, _, [] => blanks
  | _, some n, isJoined, [] => if isJoined then List.replicate n '\n' else foldedGap n
  | blanks, lineEnds, isJoined, q :: qs =>
    let gap : Text := match lineEnds with
      | none => blanks
      | some n => if isJoined then List.replicate n '\n' else foldedGap n
    match q with
    | .escaped c => gap ++ c :: foldGaps [] none false qs
    | .joined => gap ++ foldGaps [] (some 0) true qs
    | .raw c =>
      if c == '\n' then foldGaps [] (some (lineEnds.getD 0 + 1)) isJoined qs
      else if isBlank c then
        match lineEnds with
        | none => foldGaps (blanks ++ [c]) none false qs
        | some n => foldGaps [] (some n) isJoined qs
      else gap ++ c :: foldGaps [] none false qs

/-! ### Blocks of lines -/

/-- What happens to the line ends at the end of a block. -/
inductive Chomping where
  /-- One is kept. -/
  | clip
  /-- None is kept. -/
  | strip
  /-- All are kept. -/
  | keep
deriving DecidableEq, Repr

/-- The signs after the mark of a block: the chomping and the digit of an indentation, each at most
once, and what follows. -/
def blockHeader? (t : Text) : Option (Chomping × Option Nat × Text) :=
  let chomping? : Text → Option (Chomping × Text)
    | '-' :: r => some (.strip, r)
    | '+' :: r => some (.keep, r)
    | _ => none
  let digit? : Text → Option (Nat × Text)
    | c :: r => if c.isDigit && c != '0' then some (c.toNat - '0'.toNat, r) else none
    | [] => none
  let (chomping, digit, r) : Option Chomping × Option Nat × Text :=
    match chomping? t with
    | some (k, r) =>
      match digit? r with
      | some (d, r) => (some k, some d, r)
      | none => (some k, none, r)
    | none =>
      match digit? t with
      | some (d, r) =>
        match chomping? r with
        | some (k, r) => (some k, some d, r)
        | none => (none, some d, r)
      | none => (none, none, t)
  let blanks := r.takeWhile isBlank
  let rest := r.drop blanks.length
  let rest := if rest.head? == some '#' then rest.dropWhile (· != '\n') else rest
  match rest with
  | [] => some (chomping.getD .clip, digit, [])
  | '\n' :: rest => some (chomping.getD .clip, digit, rest)
  | _ => none

/-- The indentation of a block whose lines are given: that of the first line with text, or of a
blank line above it that is longer, but at least `least`. -/
def blockIndent (least : Nat) : List Text → Nat
  | [] => least
  | l :: ls =>
    let spaces := (l.takeWhile (· == ' ')).length
    if spaces < (Text.dropLineEnd l).length then max least spaces
    else max spaces (blockIndent least ls)

/-- The lines of a block, without indentation and line ends, and the text below it. A line with
less indentation belongs to it only if it is blank. -/
def blockLines (indent : Nat) : List Text → List Text × List Text
  | [] => ([], [])
  | l :: ls =>
    let spaces := (l.takeWhile (· == ' ')).length
    let inner := Text.dropLineEnd l
    if spaces < indent && spaces < inner.length then ([], l :: ls)
    else
      let (block, rest) := blockLines indent ls
      (inner.drop indent :: block, rest)

/-- The text of the lines of a block, without the line ends at its end. Where lines are folded, the
line end between two lines that do not start with a blank is dropped or becomes a blank. `gap`
counts the empty lines above the first of the lines, `afterBlank` tells whether the line before them
starts with a blank, and `first` whether there is none. -/
def joinBlock (folded : Bool) : (first afterBlank : Bool) → (gap : Nat) → List Text → Text
  | _, _, _, [] => []
  | first, afterBlank, gap, [] :: ls => joinBlock folded first afterBlank (gap + 1) ls
  | first, afterBlank, gap, (c :: l) :: ls =>
    let separator : Text :=
      if first then List.replicate gap '\n'
      else if folded && !afterBlank && !isBlank c then
        (if gap = 0 then [' '] else List.replicate gap '\n')
      else List.replicate (gap + 1) '\n'
    separator ++ (c :: l) ++ joinBlock folded false (isBlank c) 0 ls

/-- The text of a block. -/
def blockText (folded : Bool) (chomping : Chomping) (lines : List Text) : Text :=
  let body := joinBlock folded true false 0 lines
  let empties := (Text.takeEndWhile (·.isEmpty) lines).length
  match chomping with
  | .strip => body
  | .clip => if body = [] then [] else body ++ ['\n']
  | .keep => body ++ List.replicate (if body = [] then empties else empties + 1) '\n'

end Yaml
end Marginalia
