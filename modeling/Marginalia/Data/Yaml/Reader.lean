/-
# Reading YAML

A reader of YAML documents: records and lists by indentation or in brackets,
scalars in every written form, anchors and aliases. A text holds one document.
Unquoted words stay open (`Value.bare`), and a place without a value holds the
empty word.

The reader goes from token to token. A cursor knows the column of the next
token, by which records and lists begin and end, and whether a line end came
before it, without which no entry begins.

Key definitions: `Yaml.Cursor`, `Yaml.node?`, `Yaml.read?`.
-/
import Marginalia.Data.Yaml.Scalar

namespace Marginalia
namespace Yaml

/-- A place in a document. -/
structure Cursor where
  /-- The column of the place, counted from zero. -/
  column : Nat := 0
  /-- Whether only blanks stand before it on its line. -/
  fresh : Bool := true
  /-- The text from there on. -/
  rest : Text
  /-- The values with a name so far. -/
  anchors : List (Text × Value) := []

namespace Cursor

/-- Goes on to a rest of the text, past a token. -/
def past (c : Cursor) (rest : Text) : Cursor :=
  let token := c.rest.take (c.rest.length - rest.length)
  let lastLine := Text.takeEndWhile (· != '\n') token
  { c with
    column := if lastLine.length < token.length then lastLine.length else c.column + token.length
    fresh := false
    rest := rest }

/-- Goes on to the next token: past blanks, remarks and line ends. A tab does not indent a line.
Each step takes at least one character, so `fuel` may be the length of the text. -/
def toToken (flow : Bool) : (fuel : Nat) → Cursor → Cursor
  | 0, c => c
  | fuel + 1, c =>
    match c.rest with
    | ' ' :: r => toToken flow fuel { c with column := c.column + 1, rest := r }
    | '\t' :: r =>
      if c.fresh && !flow then c else toToken flow fuel { c with column := c.column + 1, rest := r }
    | '\n' :: r => toToken flow fuel { c with column := 0, fresh := true, rest := r }
    | '#' :: r => toToken flow fuel { c with rest := r.dropWhile (· != '\n') }
    | _ => c

/-- The next token outside of brackets. -/
def next (c : Cursor) : Cursor := c.toToken false c.rest.length

/-- The next token within brackets. -/
def nextInFlow (c : Cursor) : Cursor := c.toToken true c.rest.length

/-- Whether a line with the given mark starts here. -/
def isAtMark (c : Cursor) (mark : String) : Bool :=
  c.column == 0 && (Text.after? mark.toList c.rest).any endsToken

/-- Whether the document ends here. -/
def isAtEnd (c : Cursor) : Bool := c.rest.isEmpty || c.isAtMark "---" || c.isAtMark "..."

/-- Whether an item of a list starts here. -/
def isAtItem (c : Cursor) : Bool :=
  match c.rest with
  | '-' :: r => endsToken r
  | _ => false

end Cursor

/-! ### Scalars -/

/-- Reads the further lines of a plain scalar of which `text` was read. A line with less than
`least` columns of indentation is none of them. -/
def plainLines (flow : Bool) (least : Nat) : (fuel : Nat) → Text → Cursor → Text × Cursor
  | 0, text, c => (text, c)
  | fuel + 1, text, c =>
    let blanks := c.rest.takeWhile isBlank
    match c.rest.drop blanks.length with
    | '\n' :: below =>
      let gap := below.takeWhile fun c => isBlank c || c == '\n'
      let more := (gap.filter (· == '\n')).length
      let d := c.past (below.drop gap.length)
      if d.rest.isEmpty || d.isAtEnd || d.rest.head? == some '#' || (!flow && d.column < least) then
        (text, c)
      else
        let chunk := plainChunk flow d.rest
        if chunk = [] then (text, c)
        else plainLines flow least fuel (text ++ foldedGap (more + 1) ++ chunk)
          (d.past (d.rest.drop chunk.length))
    | _ => (text, c)

/-- Reads a plain scalar. -/
def plain? (flow : Bool) (least : Nat) (c : Cursor) : Option (Value × Cursor) :=
  if startsPlain flow c.rest then
    let chunk := plainChunk flow c.rest
    let (text, c) := plainLines flow least c.rest.length chunk (c.past (c.rest.drop chunk.length))
    some (.bare (String.ofList text), c)
  else none

/-- Reads a quoted scalar. -/
def quoted? (c : Cursor) : Option (Value × Cursor) :=
  match c.rest with
  | '\x27' :: r => (singleQuoted? r).map fun p =>
      (.str (String.ofList (foldGaps [] none false p.1)), c.past p.2)
  | '"' :: r => (doubleQuoted? r.length r).map fun p =>
      (.str (String.ofList (foldGaps [] none false p.1)), c.past p.2)
  | _ => none

/-- Reads a block of lines, after its mark. -/
def block? (folded : Bool) (least : Nat) (c : Cursor) : Option (Value × Cursor) := do
  let (chomping, digit, body) ← blockHeader? (c.rest.drop 1)
  let ls := Text.rawLines body
  let indent := match digit with
    | some d => least - 1 + d
    | none => blockIndent (max least 1) ls
  let (block, rest) := blockLines indent ls
  let isOpen := rest.isEmpty && body.getLast?.any (· != '\n') && (block.getLast?.any (· ≠ []))
  let text := blockText folded (if isOpen then .strip else chomping) block
  return (.str (String.ofList text), { c.past rest.flatten with column := 0, fresh := true })

/-- The key that a scalar is. -/
def keyOf? : Value → Option Key
  | .str s => some ⟨s, false⟩
  | .bare w => some ⟨w, true⟩
  | _ => none

/-- A record; with a key that is no scalar it fits no shape. -/
def recordOf (fields : List (Value × Value)) : Value :=
  match fields.mapM fun f => (keyOf? f.1).map fun k => (k, f.2) with
  | some fs => .record fs
  | none => .misfit

/-- Reads a key on one line and the colon after it. -/
def key? (c : Cursor) : Option (Value × Cursor) := do
  let (k, d) ← match quoted? c with
    | some (k, d) => some (k, d)
    | none =>
      if startsPlain false c.rest then
        let chunk := plainChunk false c.rest
        some (.bare (String.ofList chunk), c.past (c.rest.drop chunk.length))
      else none
  if (c.rest.take (c.rest.length - d.rest.length)).contains '\n' then none
  match d.rest.dropWhile isBlank with
  | ':' :: r => if endsToken r then some (k, d.past r) else none
  | _ => none

/-! ### Properties of nodes -/

/-- The characters of the name of an anchor or a tag. -/
def nameRun (t : Text) : Text := t.takeWhile fun c => !(isBlank c || c == '\n' || isFlowSign c)

/-- A value under a tag: a plain scalar that is tagged as a text is one. -/
def applyTag (tag : Text) (v : Value) : Value :=
  match v with
  | .bare w => if tag = "!str".toList then .str w else v
  | _ => v

/-- Remembers a value under a name. -/
def remember (name : Text) (p : Value × Cursor) : Value × Cursor :=
  (p.1, { p.2 with anchors := (name, p.1) :: p.2.anchors })

/-! ### Brackets -/

mutual

/-- Reads a node within brackets, at its first token. -/
def flowNode? : (fuel : Nat) → Cursor → Option (Value × Cursor)
  | 0, _ => none
  | fuel + 1, c =>
    match c.rest with
    | '[' :: r => flowItems? fuel [] (c.past r).nextInFlow
    | '\x7b' :: r => flowFields? fuel [] (c.past r).nextInFlow
    | '*' :: r =>
      let name := nameRun r
      (c.anchors.lookup name).map fun v => (v, c.past (r.drop name.length))
    | '&' :: r =>
      let name := nameRun r
      (flowNode? fuel (c.past (r.drop name.length)).nextInFlow).map (remember name)
    | '!' :: r =>
      let tag := nameRun r
      (flowNode? fuel (c.past (r.drop tag.length)).nextInFlow).map fun p => (applyTag tag p.1, p.2)
    | _ => (quoted? c).orElse fun _ => plain? true 0 c

/-- Reads the items of a list, from the first token of one, up to the closing bracket. -/
def flowItems? : (fuel : Nat) → List Value → Cursor → Option (Value × Cursor)
  | 0, _, _ => none
  | fuel + 1, items, c =>
    match c.rest with
    | ']' :: r => some (.sequence items, c.past r)
    | _ =>
      match flowNode? fuel c with
      | none => none
      | some (v, d) =>
        let d := d.nextInFlow
        let entry : Option (Value × Cursor) := match d.rest with
          | ':' :: r => (flowValue? fuel (d.past r).nextInFlow).map fun p => (recordOf [(v, p.1)], p.2)
          | _ => some (v, d)
        match entry with
        | none => none
        | some (v, d) =>
          let d := d.nextInFlow
          match d.rest with
          | ',' :: r => flowItems? fuel (items ++ [v]) (d.past r).nextInFlow
          | ']' :: r => some (.sequence (items ++ [v]), d.past r)
          | _ => none

/-- Reads the value after a colon, which may be left out. -/
def flowValue? : (fuel : Nat) → Cursor → Option (Value × Cursor)
  | 0, _ => none
  | fuel + 1, c =>
    match c.rest with
    | ',' :: _ => some (.bare "", c)
    | ']' :: _ => some (.bare "", c)
    | '\x7d' :: _ => some (.bare "", c)
    | _ => flowNode? fuel c

/-- Reads the fields of a record, from the first token of one, up to the closing brace. -/
def flowFields? : (fuel : Nat) → List (Value × Value) → Cursor → Option (Value × Cursor)
  | 0, _, _ => none
  | fuel + 1, fields, c =>
    match c.rest with
    | '\x7d' :: r => some (recordOf fields, c.past r)
    | _ =>
      match flowNode? fuel c with
      | none => none
      | some (k, d) =>
        let d := d.nextInFlow
        let value : Option (Value × Cursor) := match d.rest with
          | ':' :: r => flowValue? fuel (d.past r).nextInFlow
          | _ => some (.bare "", d)
        match value with
        | none => none
        | some (v, d) =>
          let d := d.nextInFlow
          match d.rest with
          | ',' :: r => flowFields? fuel (fields ++ [(k, v)]) (d.past r).nextInFlow
          | '\x7d' :: r => some (recordOf (fields ++ [(k, v)]), d.past r)
          | _ => none

end

/-! ### Indentation -/

mutual

/-- Reads a node at its first token. Its further lines are indented by `least` columns or more;
`entries` tells whether records and lists by indentation may begin here. -/
def node? : (fuel : Nat) → (least : Nat) → (entries : Bool) → Cursor → Option (Value × Cursor)
  | 0, _, _, _ => none
  | fuel + 1, least, entries, c =>
    let named (after : Text) : Option (Value × Cursor) :=
      let d := (c.past after).next
      if d.isAtEnd || (d.fresh && d.column < least) then some (.bare "", c.past after)
      else node? fuel least d.fresh d
    match c.rest with
    | '&' :: r =>
      let name := nameRun r
      (named (r.drop name.length)).map (remember name)
    | '!' :: r =>
      let tag := nameRun r
      (named (r.drop tag.length)).map fun p => (applyTag tag p.1, p.2)
    | '*' :: r =>
      let name := nameRun r
      (c.anchors.lookup name).map fun v => (v, c.past (r.drop name.length))
    | '|' :: _ => block? false least c
    | '>' :: _ => block? true least c
    | '[' :: _ => flowNode? fuel c
    | '\x7b' :: _ => flowNode? fuel c
    | _ =>
      if c.isAtItem then
        if entries then blockItems? fuel c.column [] c else none
      else if entries && (key? c).isSome then blockFields? fuel c.column [] c
      else (quoted? c).orElse fun _ => plain? false least c

/-- Reads the items of a list in a column, at the hyphen of one. -/
def blockItems? : (fuel : Nat) → (column : Nat) → List Value → Cursor → Option (Value × Cursor)
  | 0, _, _, _ => none
  | fuel + 1, column, items, c =>
    let d := (c.past (c.rest.drop 1)).next
    let value : Option (Value × Cursor) :=
      if d.isAtEnd || (d.fresh && d.column ≤ column) then some (.bare "", d)
      else node? fuel (column + 1) true d
    match value with
    | none => none
    | some (v, d) =>
      let d := d.next
      if d.isAtEnd || (d.fresh && d.column < column) then some (.sequence (items ++ [v]), d)
      else if !d.fresh || column < d.column then none
      else if d.isAtItem then blockItems? fuel column (items ++ [v]) d
      else some (.sequence (items ++ [v]), d)

/-- Reads the fields of a record in a column, at the key of one. -/
def blockFields? : (fuel : Nat) → (column : Nat) → List (Value × Value) → Cursor →
    Option (Value × Cursor)
  | 0, _, _, _ => none
  | fuel + 1, column, fields, c =>
    match key? c with
    | none => none
    | some (k, d) =>
      let d := d.next
      let value : Option (Value × Cursor) :=
        if d.isAtEnd then some (.bare "", d)
        else if !d.fresh then node? fuel (column + 1) false d
        else if column < d.column then node? fuel (column + 1) true d
        else if d.column = column && d.isAtItem then blockItems? fuel column [] d
        else some (.bare "", d)
      match value with
      | none => none
      | some (v, d) =>
        let d := d.next
        if d.isAtEnd || (d.fresh && d.column < column) then some (recordOf (fields ++ [(k, v)]), d)
        else if !d.fresh || column < d.column || d.isAtItem then none
        else blockFields? fuel column (fields ++ [(k, v)]) d

end

/-! ### Documents -/

/-- Line ends in one form. -/
def unifyLineEnds : Text → Text
  | '\r' :: '\n' :: r => '\n' :: unifyLineEnds r
  | '\r' :: r => '\n' :: unifyLineEnds r
  | '\u0085' :: r => '\n' :: unifyLineEnds r
  | c :: r => c :: unifyLineEnds r
  | [] => []

/-- Whether a document may hold the character. -/
def isPrintable (c : Char) : Bool :=
  let n := c.toNat
  c == '\t' || c == '\n' || (0x20 ≤ n && n ≤ 0x7E) || n == 0x85 || (0xA0 ≤ n && n ≤ 0xFFFD) ||
    0x10000 ≤ n

/-- The lines of directives before a document are passed over. Each step takes a line. -/
def dropDirectives : (fuel : Nat) → Cursor → Cursor
  | 0, c => c
  | fuel + 1, c =>
    match c.rest with
    | '%' :: r => if c.column = 0 then dropDirectives fuel (c.past (r.dropWhile (· != '\n'))).next else c
    | _ => c

/-- Reads a text that holds one document. A text without one holds the empty word. -/
def read? (t : Text) : Option Value := do
  let t := unifyLineEnds (match t with
    | '\uFEFF' :: r => r
    | _ => t)
  if !t.all isPrintable then none
  let start := ({ rest := t } : Cursor).next
  let c := dropDirectives t.length start
  let c := if c.isAtMark "---" then (c.past (c.rest.drop 3)).next else c
  if c.rest.isEmpty then return .bare ""
  let (v, c) ← if c.isAtEnd then some (.bare "", c) else node? (3 * t.length + 10) 0 c.fresh c
  let c := c.next
  let c := if c.isAtMark "..." then (c.past (c.rest.drop 3)).next else c
  if c.rest.isEmpty then return v
  none

end Yaml
end Marginalia
