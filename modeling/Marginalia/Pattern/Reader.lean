/-
# Reading patterns

The written form of regular expressions: literals, `.`, sets in brackets,
classes such as `\w` and `\p`, groups with and without a name, alternatives,
repetitions, assertions, and flags that hold up to the end of their group.
There is no look at what surrounds a match and no reference to a group. A
written form that unfolds to too much is refused.

Key definitions: `Pattern.Flags`, `Pattern.escape?`, `Pattern.bracketed?`, `Pattern.group?`,
`Pattern.ofText?`.
-/
import Marginalia.Pattern.Basic

namespace Marginalia
namespace Pattern

/-- What holds of the part of a pattern that is being read. -/
structure Flags where
  /-- Letter case does not count. -/
  ignoreCase : Bool := false
  /-- Lines have starts and ends of their own. -/
  multiLine : Bool := false
  /-- The dot stands for line ends too. -/
  dotAll : Bool := false
  /-- Classes hold ASCII characters alone. -/
  ascii : Bool := false
  /-- Blanks and remarks in the pattern do not count. -/
  verbose : Bool := false
  /-- Carriage returns end lines too. -/
  returns : Bool := false
deriving DecidableEq, Repr

namespace Flags

/-- Switches the flag of a letter; one letter has no bearing on whether a pattern matches. -/
def set? (f : Flags) (on : Bool) : Char → Option Flags
  | 'i' => some { f with ignoreCase := on }
  | 'm' => some { f with multiLine := on }
  | 's' => some { f with dotAll := on }
  | 'u' => some { f with ascii := !on }
  | 'x' => some { f with verbose := on }
  | 'R' => some { f with returns := on }
  | 'U' => some f
  | _ => none

/-- The kind of words that a word edge refers to. -/
def wordKind (f : Flags) : WordKind := if f.ascii then .ascii else .unicode

/-- The set with the characters that differ in case alone, if case does not count. -/
def fold (f : Flags) (s : CharSet) : CharSet :=
  if f.ignoreCase then (if f.ascii then .foldedAscii s else .folded s) else s

end Flags

/-- The text without the blanks and remarks at its start. -/
def dropRemarks : Nat → Text → Text
  | 0, t => t
  | fuel + 1, t =>
    match t.dropWhile Text.isBlank with
    | '#' :: r => dropRemarks fuel (r.dropWhile (· != '\n'))
    | r => r

/-- The text from the next character on that counts. -/
def skip (f : Flags) (t : Text) : Text := if f.verbose then dropRemarks t.length t else t

/-! ### Single characters and classes -/

/-- What a backslash and what follows it stand for. -/
inductive Escape where
  /-- One character. -/
  | char (c : Char)
  /-- A set of characters. -/
  | set (s : CharSet)
  /-- A condition. -/
  | assert (a : Assertion)

/-- The character of a code point. -/
def charOf? (n : Nat) : Option Char := if n.isValidChar then some (Char.ofNat n) else none

/-- The character that hexadecimal digits denote: `width` of them, or any number in braces. -/
def hex? (f : Flags) (width : Nat) (t : Text) : Option (Char × Text) :=
  match skip f t with
  | '\x7b' :: r => do
    let digits := r.takeWhile (· != '\x7d')
    let rest ← (r.drop digits.length).tail?
    let c ← charOf? (← Word.ofDigits? 16 (if f.verbose then digits.filter (!Text.isBlank ·) else digits))
    some (c, rest)
  | r => do
    let digits := r.take width
    if digits.length < width then none
    let n ← Word.ofDigits? 16 digits
    if f.ascii && width == 2 && 0x80 ≤ n then none
    some (← charOf? n, r.drop width)

/-- The set of a property, after `\p`: a letter or a name in braces. -/
def property? (f : Flags) (t : Text) : Option (CharSet × Text) := do
  if f.ascii then none
  match skip f t with
  | '\x7b' :: r =>
    let name := r.takeWhile (· != '\x7d')
    let rest ← (r.drop name.length).tail?
    match Text.splitFirst? ['!', '='] name with
    | some (kind, value) =>
      let p ← Unicode.Property.ofName? (kind ++ '=' :: value)
      some (.compl (.property p), rest)
    | none => some (.property (← Unicode.Property.ofName? name), rest)
  | '\\' :: _ => none
  | c :: r => some (.property (← Unicode.Property.ofName? [c]), r)
  | [] => none

/-- The condition of a word edge, after `\b`: an edge of any kind or one that is named in braces. -/
def wordEdge? (f : Flags) (t : Text) : Option (Assertion × Text) :=
  let k := f.wordKind
  match skip f t with
  | '\x7b' :: r =>
    let inner := skip f r
    if inner.head?.any fun c => c.isAlpha || c == '-' then
      let name := inner.takeWhile fun c => c.isAlpha || c == '-'
      match skip f (inner.drop name.length) with
      | '\x7d' :: rest =>
        match String.ofList name with
        | "start" => some (.wordStart k, rest)
        | "end" => some (.wordEnd k, rest)
        | "start-half" => some (.noWordBefore k, rest)
        | "end-half" => some (.noWordAfter k, rest)
        | _ => none
      | _ => none
    else if inner.isEmpty then none
    else some (.wordEdge k, t)
  | _ => some (.wordEdge k, t)

/-- What stands after a backslash, and the rest. -/
def escape? (f : Flags) : Text → Option (Escape × Text)
  | [] => none
  | c :: r =>
    let class? (ascii : CharSet) (p : Unicode.Property) : CharSet := if f.ascii then ascii else .property p
    let digit := class? CharSet.asciiDigit (.category [.decimalNumber])
    let space := class? CharSet.asciiSpace .whiteSpace
    let word := class? CharSet.asciiWord .word
    match c with
    | 'x' => (hex? f 2 r).map fun p => (.char p.1, p.2)
    | 'u' => (hex? f 4 r).map fun p => (.char p.1, p.2)
    | 'U' => (hex? f 8 r).map fun p => (.char p.1, p.2)
    | 'p' => (property? f r).map fun p => (.set (f.fold p.1), p.2)
    | 'P' => (property? f r).map fun p => (.set (.compl (f.fold p.1)), p.2)
    | 'd' => some (.set digit, r)
    | 'D' => some (.set (.compl digit), r)
    | 's' => some (.set space, r)
    | 'S' => some (.set (.compl space), r)
    | 'w' => some (.set word, r)
    | 'W' => some (.set (.compl word), r)
    | 'a' => some (.char '\x07', r)
    | 'f' => some (.char '\x0c', r)
    | 't' => some (.char '\t', r)
    | 'n' => some (.char '\n', r)
    | 'r' => some (.char '\r', r)
    | 'v' => some (.char '\x0b', r)
    | 'A' => some (.assert .textStart, r)
    | 'z' => some (.assert .textEnd, r)
    | 'b' => (wordEdge? f r).map fun p => (.assert p.1, p.2)
    | 'B' => some (.assert (.noWordEdge f.wordKind), r)
    | '<' => some (.assert (.wordStart f.wordKind), r)
    | '>' => some (.assert (.wordEnd f.wordKind), r)
    | _ => if c.toNat < 0x80 && !c.isAlphanum then some (.char c, r) else none

/-! ### Sets in brackets -/

/-- How two parts of a set in brackets are put together. -/
inductive SetOperator where
  /-- Both parts. -/
  | inter
  /-- The first part without the second. -/
  | diff
  /-- One of the parts, but not both. -/
  | symmDiff

/-- The set that an operator makes of two sets. -/
def SetOperator.apply : SetOperator → CharSet → CharSet → CharSet
  | inter, a, b => .inter a b
  | diff, a, b => .diff a b
  | symmDiff, a, b => .symmDiff a b

/-- The set of an item in brackets. -/
def Escape.set? : Escape → Option CharSet
  | char c => some (.single c)
  | set s => some s
  | assert _ => none

/-- An item in brackets, before it is known whether it starts a range. -/
def item? (f : Flags) : Text → Option (Escape × Text)
  | [] => none
  | '\\' :: r => escape? f r
  | c :: r => some (.char c, r)

/-- A range or a single item in brackets. -/
def rangeItem? (f : Flags) (t : Text) : Option (CharSet × Text) := do
  let (first, r) ← item? f t
  let r := skip f r
  match r with
  | '-' :: r' =>
    let after := skip f r'
    match after with
    | [] => none
    | c :: _ =>
      if c == ']' || c == '-' then some (← first.set?, r)
      else
        let (last, rest) ← item? f after
        match first, last with
        | .char a, .char b => if a ≤ b then some (.range a b, rest) else none
        | _, _ => none
  | _ => some (← first.set?, r)

/-- A named set of ASCII characters, after its opening bracket. -/
def asciiClass? : Text → Option (CharSet × Text)
  | ':' :: r =>
    let (negated, r) := match r with
      | '^' :: r => (true, r)
      | _ => (false, r)
    let name := r.takeWhile (· != ':')
    match r.drop name.length with
    | ':' :: ']' :: rest =>
      (CharSet.asciiClass? (String.ofList name)).map fun s => (if negated then .compl s else s, rest)
    | _ => none
  | _ => none

/-- The hyphens at the start of a set in brackets, each as a set, and the rest. -/
def hyphens (f : Flags) : Nat → Text → List CharSet × Text
  | 0, t => ([], t)
  | fuel + 1, t =>
    match skip f t with
    | '-' :: r =>
      let (sets, rest) := hyphens f fuel r
      (.single '-' :: sets, rest)
    | r => ([], r)

/-- What stands right after an opening bracket: whether the set is negated, and the items that
would mean something else further on. -/
def bracketStart (f : Flags) (t : Text) : Bool × List CharSet × Text :=
  let (negated, t) := match skip f t with
    | '^' :: r => (true, r)
    | r => (false, r)
  let (sets, t) := hyphens f t.length t
  match sets, t with
  | [], ']' :: r => (negated, [.single ']'], r)
  | _, _ => (negated, sets, t)

/-- The set up to the closing bracket. `left` is the operand of a pending operator and `items`
are the items read since. Each step takes at least one character. -/
def bracketed? (f : Flags) :
    Nat → Bool → Option (SetOperator × CharSet) → List CharSet → Text → Option (CharSet × Text)
  | 0, _, _, _, _ => none
  | fuel + 1, negated, left, items, t =>
    let whole : CharSet :=
      let right := CharSet.unionAll items
      match left with
      | some (o, l) => o.apply (f.fold l) (f.fold right)
      | none => right
    match skip f t with
    | [] => none
    | ']' :: r => some (if negated then .compl (f.fold whole) else f.fold whole, r)
    | '&' :: '&' :: r => bracketed? f fuel negated (some (.inter, whole)) [] r
    | '-' :: '-' :: r => bracketed? f fuel negated (some (.diff, whole)) [] r
    | '~' :: '~' :: r => bracketed? f fuel negated (some (.symmDiff, whole)) [] r
    | '[' :: r =>
      match asciiClass? r with
      | some (s, r) => bracketed? f fuel negated left (items ++ [s]) r
      | none =>
        let (inner, first, r) := bracketStart f r
        match bracketed? f fuel inner none first r with
        | some (s, r) => bracketed? f fuel negated left (items ++ [s]) r
        | none => none
    | r =>
      match rangeItem? f r with
      | some (s, r) => bracketed? f fuel negated left (items ++ [s]) r
      | none => none

/-- One character of a set; where classes hold ASCII alone, so must the set. -/
def charOf (f : Flags) (s : CharSet) : Option Pattern :=
  if f.ascii && !s.isAscii then none else some (char s)

/-! ### Groups -/

/-- What an opening parenthesis starts. -/
inductive Opening where
  /-- Flags for the rest of the group that is being read. -/
  | flags (f : Flags)
  /-- A group with flags and, perhaps, a name. -/
  | group (f : Flags) (name : Option Text)

/-- The flags before a colon or a closing parenthesis, of which no letter and no minus sign stands
twice and the minus sign not last. -/
def flags? (f : Flags) : (seen : List Char) → Text → Option (Flags × List Char × Text)
  | _, [] => none
  | seen, c :: r =>
    if c == ':' || c == ')' then
      if seen.head? == some '-' then none else some (f, seen, c :: r)
    else if seen.contains c then none
    else if c == '-' then flags? f (c :: seen) r
    else
      match f.set? (!seen.contains '-') c with
      | some f => flags? f (c :: seen) r
      | none => none

/-- Whether the character may stand in the name of a group. -/
def isNameChar (first : Bool) (c : Char) : Bool :=
  c == '_' || Unicode.isAlphabetic c ||
    (!first && (c == '.' || c == '[' || c == ']' || Unicode.isDigit c ||
      Unicode.Category.letterNumber.contains c || Unicode.Category.otherNumber.contains c))

/-- The name of a group, after its opening angle bracket. -/
def groupName? (t : Text) : Option (Text × Text) :=
  let name := t.takeWhile (· != '>')
  match t.drop name.length, name with
  | _ :: rest, c :: cs => if isNameChar true c && cs.all (isNameChar false) then some (name, rest) else none
  | _, _ => none

/-- Reads what an opening parenthesis starts. -/
def opening? (f : Flags) (t : Text) : Option (Opening × Text) :=
  match skip f t with
  | '?' :: 'P' :: '<' :: r => (groupName? r).map fun p => (.group f (some p.1), p.2)
  | '?' :: '<' :: r => (groupName? r).map fun p => (.group f (some p.1), p.2)
  | '?' :: r =>
    match flags? f [] r with
    | some (g, _, ':' :: rest) => some (.group g none, rest)
    | some (g, _ :: _, ')' :: rest) => some (.flags g, rest)
    | _ => none
  | r => some (.group f none, r)

/-- A number below 2^32, with blanks around it. -/
def count? (t : Text) : Option (Nat × Text) := do
  let t := t.dropWhile Text.isBlank
  let digits := t.takeWhile Char.isDigit
  let n ← Word.ofDigits? 10 digits
  if n < UInt32.size then some (n, (t.drop digits.length).dropWhile Text.isBlank) else none

/-- The bounds of a repetition, after the opening brace. -/
def bounds? (f : Flags) (t : Text) : Option (Nat × Option Nat × Text) := do
  let (least, r) ← count? (skip f t)
  match r with
  | '\x7d' :: r => some (least, some least, r)
  | ',' :: r =>
    match skip f r with
    | '\x7d' :: r => some (least, none, r)
    | r =>
      let (most, r) ← count? r
      match r with
      | '\x7d' :: r => if least ≤ most then some (least, some most, r) else none
      | _ => none
  | _ => none

/-- The text without the question mark that makes a repetition reluctant: the places where a
match ends are the same. -/
def dropReluctant : Text → Text
  | '?' :: r => r
  | r => r

/-- The condition of `^`. -/
def caret (f : Flags) : Assertion :=
  if f.multiLine then (if f.returns then .lineStartReturn else .lineStart) else .textStart

/-- The condition of `$`. -/
def dollar (f : Flags) : Assertion :=
  if f.multiLine then (if f.returns then .lineEndReturn else .lineEnd) else .textEnd

/-- The set of the dot. -/
def dot (f : Flags) : CharSet :=
  .compl (if f.dotAll then .empty
    else if f.returns then .ranges [('\n', '\n'), ('\r', '\r')] else .single '\n')

/-- A single character, a class or a condition. -/
def primitive? (f : Flags) : Text → Option (Pattern × Text)
  | [] => none
  | '.' :: r => (charOf f (dot f)).map fun p => (p, r)
  | '^' :: r => some (assert (caret f), r)
  | '$' :: r => some (assert (dollar f), r)
  | '\\' :: r =>
    match escape? f r with
    | some (.char c, r) => some (char (f.fold (.single c)), r)
    | some (.set s, r) => (charOf f s).map fun p => (p, r)
    | some (.assert a, r) => some (assert a, r)
    | none => none
  | c :: r => some (char (f.fold (.single c)), r)

/-- The patterns of a branch, read from its end, one after the other. -/
def branch (items : List (Option Pattern)) : Pattern :=
  (items.filterMap id).foldl (fun rest p => cat p rest) empty

/-- The branches before a further one, together with it. -/
def addBranch (done : Option Pattern) (items : List (Option Pattern)) : Pattern :=
  match done with
  | some p => alt p (branch items)
  | none => branch items

/-- Reads up to the end of the group, or of the whole if it is not nested. `done` are the
branches before the present one, whose items come last first; flags are items that cannot be
repeated. `names` are the names of groups so far. Each step takes at least one character. -/
def group? : Nat → Bool → Flags → List Text → Option Pattern → List (Option Pattern) → Text →
    Option (Pattern × List Text × Text)
  | 0, _, _, _, _, _, _ => none
  | fuel + 1, nested, f, names, done, items, t =>
    let repeated (least : Nat) (most : Option Nat) (r : Text) : Option (Pattern × List Text × Text) :=
      match items with
      | some p :: items => group? fuel nested f names done (some (times p least most) :: items) r
      | _ => none
    match skip f t with
    | [] => if nested then none else some (addBranch done items, names, [])
    | ')' :: r => if nested then some (addBranch done items, names, r) else none
    | '|' :: r => group? fuel nested f names (some (addBranch done items)) [] r
    | '(' :: r =>
      match opening? f r with
      | none => none
      | some (.flags g, r) => group? fuel nested g names done (none :: items) r
      | some (.group g name, r) =>
        if name.any names.contains then none
        else
          match group? fuel true g (name.toList ++ names) none [] r with
          | some (p, names, r) => group? fuel nested f names done (some p :: items) r
          | none => none
    | '[' :: r =>
      let (negated, first, r) := bracketStart f r
      match bracketed? f fuel negated none first r with
      | some (s, r) =>
        match charOf f s with
        | some p => group? fuel nested f names done (some p :: items) r
        | none => none
      | none => none
    | '*' :: r => repeated 0 none (dropReluctant r)
    | '+' :: r => repeated 1 none (dropReluctant r)
    | '?' :: r => repeated 0 (some 1) (dropReluctant r)
    | '\x7b' :: r =>
      match bounds? f r with
      | some (least, most, r) => repeated least most (dropReluctant (skip f r))
      | none => none
    | r =>
      match primitive? f r with
      | some (p, r) => group? fuel nested f names done (some p :: items) r
      | none => none

/-! ### Whole patterns -/

/-- The size of a pattern whose repetitions are written out. -/
def unfoldedSize : Pattern → Nat
  | empty => 1
  | char (.range _ _) => 1
  | char (.folded (.range _ _)) => 1
  | char s => if s.isAscii then 1 else 64
  | assert _ => 1
  | cat a b => a.unfoldedSize + b.unfoldedSize
  | alt a b => a.unfoldedSize + b.unfoldedSize + 1
  | times p least most => p.unfoldedSize * max 1 (most.getD (least + 1))

/-- The greatest size of a pattern that is taken. -/
def sizeLimit : Nat := 250000

/-- Reads a pattern. -/
def ofText? (t : Text) : Option Pattern :=
  match group? (t.length + 1) false {} [] none [] t with
  | some (p, _, _) => if p.unfoldedSize ≤ sizeLimit then some p else none
  | none => none

end Pattern
end Marginalia
