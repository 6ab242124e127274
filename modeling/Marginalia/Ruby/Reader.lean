/-
# Reading the outline of a Ruby source

The source is read from left to right with a stack of open stretches
(`Reader`). Each step that meets no fault takes at least one character. A
closing mark that closes nothing is passed over and leaves the source
degraded, except for a surplus `end`. What is open when the source ends is dropped and its parts are
kept, unless it is a single definition: that one ends with the last token.

Key definitions: `Ruby.Reader`, `Ruby.step`, `Ruby.outline`, `Index.ofSource`.
-/
import Marginalia.Ruby.Frame

namespace Marginalia
namespace Ruby

/-- What the token before leaves open for the next one. -/
inductive Due where
  /-- A value is due. -/
  | operand
  /-- A value has ended. -/
  | operator
  /-- A name was read, which may be a value or a command. -/
  | either
deriving DecidableEq, Repr

/-- The state of reading. -/
structure Reader where
  /-- What is still to be read. -/
  rest : Text
  /-- Where the rest begins. -/
  place : Place := ⟨1, 0⟩
  /-- The open stretches, innermost first; the last is the source. -/
  frames : List Frame
  /-- What is due. -/
  due : Due := .operand
  /-- Whether a gap stands before the rest. -/
  spaced : Bool := true
  /-- Whether the name to come is the name of a method that is called. -/
  called : Bool := false
  /-- The number of names to come that are no keywords. -/
  names : Nat := 0
  /-- Whether a comma continues a list of names. -/
  listing : Bool := false
  /-- The here documents that begin on the next line. -/
  pending : List Heredoc := []
  /-- Where the last token ended. -/
  lastStop : Place := ⟨1, 0⟩
  /-- What stood to be read when the last token ended. -/
  lastRest : Text := []
  /-- Whether a fault was met. -/
  degraded : Bool := false
deriving Repr

namespace Reader

/-- The state in which a source is about to be read. -/
def start (t : Text) : Reader where
  rest := t
  frames := [{ opening := .source, start := ⟨1, 0⟩ }]

/-- Passes over one character. -/
def next (r : Reader) : Reader :=
  match r.rest with
  | [] => r
  | c :: rest =>
    { r with
      rest := rest
      place := if c = '\n' then ⟨r.place.line + 1, 0⟩ else ⟨r.place.line, r.place.column + c.utf8Size⟩ }

/-- Passes over `n` characters. -/
def skip (r : Reader) : Nat → Reader
  | 0 => r
  | n + 1 => r.next.skip n

/-- Passes over characters as long as they satisfy `p`. -/
def skipWhile (r : Reader) (p : Char → Bool) : Reader := r.skip (r.rest.takeWhile p).length

/-- Passes over text up to `rest`, which is an end of what is to be read. -/
def skipTo (r : Reader) (rest : Text) : Reader := r.skip (r.rest.length - rest.length)

/-- Notes a fault. -/
def fault (r : Reader) : Reader := { r with degraded := true }

/-- What opened the innermost stretch. -/
def opening (r : Reader) : Opening := (r.frames.head?.map (·.opening)).getD .source

/-- Changes what is known of the opening of the innermost stretch. -/
def setOpening (r : Reader) (o : Opening) : Reader :=
  match r.frames with
  | f :: fs => { r with frames := { f with opening := o } :: fs }
  | [] => r

/-- Opens a stretch at `start`. -/
def push (r : Reader) (o : Opening) (start : Place) : Reader :=
  { r with frames := { opening := o, start := start } :: r.frames }

/-- Closes the innermost stretch at `stop`; the source itself stays open. -/
def pop (r : Reader) (stop : Place) : Reader :=
  match r.frames with
  | f :: g :: fs => { r with frames := { g with parts := f.outline stop :: g.parts } :: fs }
  | _ => r

/-- Drops the innermost stretch and keeps what was closed inside it. -/
def dissolve (r : Reader) : Reader :=
  match r.frames with
  | f :: g :: fs => { r with frames := { g with parts := f.parts ++ g.parts } :: fs }
  | _ => r

/-- Notes that a token ended, and what is due after it. -/
def token (r : Reader) (due : Due) : Reader :=
  { r with due, spaced := false, called := false, lastStop := r.place, lastRest := r.rest }

/-! ### Names of definitions -/

/-- The name read between `written` and the end of the last token. -/
def writtenName (r : Reader) (written : Text) (last : Text) : DeclaredName where
  last := String.ofList last
  written :=
    let w := (written.take (written.length - r.lastRest.length)).filter fun c => !Text.isBlank c
    String.ofList (dropMarks w)
where
  /-- Drops scope marks from the start. -/
  dropMarks : Text → Text
    | ':' :: ':' :: rest => dropMarks rest
    | t => t

/-- A token that the name of a definition may hold. -/
inductive NamePart where
  /-- A constant. -/
  | constant (name : Text)
  /-- Another operand. -/
  | operand
  /-- A number. -/
  | number
  /-- A scope mark. -/
  | scope
  /-- A dot. -/
  | dot
  /-- An opening bracket. -/
  | bracket
  /-- The sign of a superclass. -/
  | superclass
  /-- Any other token. -/
  | other

/-- Follows the name of the innermost definition when a token comes. -/
def follow (r : Reader) (part : NamePart) : Reader :=
  match r.opening with
  | .definition kind phase written name =>
    let goOn (phase : NamePhase) : Reader := r.setOpening (.definition kind phase written name)
    let stop (last : Text) : Reader :=
      let name := some (r.writtenName written last)
      match part with
      | .superclass => r.setOpening (.definition kind .superclassDue written name)
      | _ => r.setOpening (.definition kind .complete written name)
    match phase with
    | .due =>
      let start (phase : NamePhase) : Reader := r.setOpening (.definition kind phase r.rest none)
      match part with
      | .constant c => start (.constant c)
      | .operand => start .operand
      | .scope => start .partDue
      | .bracket => start .operand
      | .number => r.fault
      | _ => r.dissolve.fault
    | .partDue =>
      match part with
      | .constant c => goOn (.constant c)
      | .operand => goOn .operand
      | _ => r.dissolve.fault
    | .methodDue =>
      match part with
      | .constant _ => goOn .operand
      | .operand => goOn .operand
      | .bracket => goOn .operand
      | _ => r.dissolve.fault
    | .constant c =>
      match part with
      | .scope => if r.spaced then stop c else goOn .partDue
      | .dot => goOn .methodDue
      | .bracket =>
        if r.spaced then stop c else goOn .operand
      | _ => stop c
    | .operand =>
      match part with
      | .scope => if r.spaced then r.dissolve.fault else goOn .partDue
      | .dot => goOn .methodDue
      | .bracket => if r.spaced then r.dissolve.fault else r
      | _ => r.dissolve.fault
    | .superclassDue => r.setOpening (.definition kind .complete written name)
    | .complete => r
  | _ => r

/-- The number of characters before a constant that only names, numbers and gaps precede. -/
def constantAhead? (t : Text) : Option Nat :=
  go false 0 t
where
  /-- Counts on from `n`; `inName` holds inside a name. -/
  go (inName : Bool) (n : Nat) : Text → Option Nat
    | [] => none
    | c :: cs =>
      if c.isUpper ∧ ¬inName then some n
      else if isNameChar c ∨ isGap c ∨ c = '\n' then go (isNameStart c) (n + 1) cs
      else none

/-- Whether the name of the innermost definition cannot go on with this word. -/
def nameFails (r : Reader) (name : Text) : Bool :=
  match r.opening with
  | .definition _ .due _ _ => (keyword? name).any fun k => !k.isOperand
  | .definition _ .operand _ _ => true
  | _ => false

/-- Notes that a definition has no usable name if its superclass is still due. -/
def refuseSuperclass (r : Reader) : Reader :=
  match r.opening with
  | .definition kind .superclassDue written _ =>
    (r.setOpening (.definition kind .complete written none)).fault
  | _ => r

/-! ### Heads of methods and loops -/

/-- The head of the innermost method definition ends, if it has not ended. -/
def endHead (r : Reader) : Reader :=
  match r.opening with
  | .method .complete => r
  | .method _ => r.setOpening (.method .complete)
  | _ => r

/-- The innermost loop takes no `do` any more. -/
def endLoopHead (r : Reader) : Reader :=
  match r.opening with
  | .loop true => r.setOpening (.loop false)
  | _ => r

/-- What every token but a gap does to the stretches around it. -/
def meet (r : Reader) (part : NamePart) : Reader := (r.follow part).endHead

/-! ### Line ends -/

/-- Opens the body of the first here document that is due. -/
def openBody (r : Reader) : Reader :=
  match r.pending with
  | doc :: docs => { r.push (.heredoc doc) r.place with pending := docs }
  | [] => r

/-- What the end of a line or a semicolon does to the state. -/
def endStatement (r : Reader) : Reader :=
  { r with due := .operand, names := 0, listing := false }

/-- Passes over a line end. A line that ends within an expression goes on in the next one. -/
def lineEnd (r : Reader) : Reader :=
  let r := if r.due = .operand then r else r.endLoopHead.endStatement
  { r.next with spaced := true }.openBody

/-! ### Quoted stretches -/

/-- Closes a quoted stretch. -/
def endQuote (r : Reader) (flagged : Bool) : Reader :=
  let r := r.next
  let r := if flagged then r.skipWhile Char.isLower else r
  (r.pop r.place).token .operator

/-- One step inside a quoted stretch. -/
def quotedStep (r : Reader) (q : Quote) (depth : Nat) : Reader :=
  match r.rest with
  | [] => r
  | '\\' :: _ :: _ => r.skip 2
  | '#' :: '\x7b' :: _ =>
    if q.interpolates then
      { r.skip 2 with due := .operand, spaced := true, called := false }.push .code r.place
    else r.next
  | c :: _ =>
    if c = q.close then
      match depth with
      | 0 => r.endQuote q.flagged
      | depth + 1 => r.next.setOpening (.quoted q depth)
    else if q.opener = some c then r.next.setOpening (.quoted q (depth + 1))
    else r.next

/-- One step inside the body of a here document. -/
def heredocStep (r : Reader) (doc : Heredoc) : Reader :=
  if r.place.column = 0 ∧ doc.endsAt r.rest then
    let r := (r.skipWhile (· != '\n')).next
    { r.pop r.place with due := .operand, spaced := true }.openBody
  else
    match r.rest with
    | '\\' :: _ :: _ => if doc.interpolates then r.skip 2 else r.next
    | '#' :: '\x7b' :: _ =>
      if doc.interpolates then
        { r.skip 2 with due := .operand, spaced := true, called := false }.push .code r.place
      else r.next
    | _ => r.next

/-- Opens a quoted stretch whose delimiter is followed by `rest`. -/
def openQuote (r : Reader) (q : Quote) (rest : Text) : Reader :=
  let r := r.meet .operand
  (r.skipTo rest).push (.quoted q 0) r.place

/-! ### Words -/

/-- Reads a name that is no keyword. -/
def plainName (r : Reader) (name : Text) : Reader :=
  let r := r.meet (if isConstant name then .constant name else .operand)
  let r := { r with names := r.names - 1 }
  (r.skip name.length).token .either

/-- Opens a stretch with a keyword. -/
def openWith (r : Reader) (name : Text) (o : Opening) : Reader :=
  let start := r.place
  (((r.meet .other).skip name.length).token .operand).push o start

/-- Passes over the name of a method that is being defined, with the receivers before it. -/
def methodName (r : Reader) : (fuel : Nat) → Reader
  | 0 => r
  | fuel + 1 =>
    match operatorNameAt? r.rest with
    | some op => r.skip op.length
    | none =>
      match r.rest with
      | c :: _ =>
        if isNameStart c then
          let r := r.skip (nameAt r.rest).length
          match r.rest with
          | '.' :: _ => r.next.methodName fuel
          | ':' :: ':' :: _ => (r.skip 2).methodName fuel
          | '=' :: d :: _ => if ['=', '~', '>', ' ', '\n'].contains d then r else r.next
          | _ => r
        else r
      | [] => r

/-- Closes the innermost stretch that `end` closes, if it is innermost. -/
def closeWithEnd (r : Reader) (name : Text) : Reader :=
  let r := r.refuseSuperclass
  let r := (r.meet .other).skip name.length
  if r.opening.endsWithEnd then (r.pop r.place).token .operator
  else if r.frames.length ≤ 1 then r.token .operator
  else (r.token .operator).fault

/-- Reads a keyword. -/
def keyword (r : Reader) (name : Text) (k : Keyword) : Reader :=
  let pass (due : Due) : Reader := ((r.meet .other).skip name.length).token due
  match k with
  | .klass => r.openWith name (.definition .klass .due [] none)
  | .module => r.openWith name (.definition .module .due [] none)
  | .definition =>
    let r := (r.openWith name (.method .named)).skipWhile isGap
    (r.methodName (r.rest.length + 1)).token .either
  | .body => r.openWith name .body
  | .counted => r.openWith name (.loop true)
  | .condition => if r.due = .operand then r.openWith name .body else pass .operand
  | .loop => if r.due = .operand then r.openWith name (.loop true) else pass .operand
  | .block =>
    match r.opening with
    | .loop true => (pass .operand).setOpening (.loop false)
    | _ => r.openWith name .body
  | .close => r.closeWithEnd name
  | .rename => { pass .operand with names := 2 }
  | .forget => { pass .operand with names := 1, listing := true }
  | .link => pass .operand
  | .value => ((r.meet .operand).skip name.length).token .operator
  | .command => ((r.meet .operand).skip name.length).token .either

/-- Reads a name, which may be a keyword. -/
def named (r : Reader) (name : Text) : Reader :=
  match keyword? name with
  | some k => r.keyword name k
  | none => r.plainName name

/-- Reads a word: a label, a name or a keyword. A definition whose name fails at this word takes
the next constant that only words part from it, and is dropped if there is none. -/
def word (r : Reader) : Reader :=
  let name := nameAt r.rest
  match r.rest.drop name.length with
  | ':' :: ':' :: _ => nameOrKeyword name
  | ':' :: _ =>
    if r.called then r.plainName name
    else ((r.meet .other).skip (name.length + 1)).token .operand
  | _ => nameOrKeyword name
where
  /-- Reads a word that is no label. -/
  nameOrKeyword (name : Text) : Reader :=
    if r.called ∨ 0 < r.names then r.plainName name
    else if r.nameFails name then
      match r.opening, constantAhead? r.rest with
      | .definition kind _ _ _, some n => ((r.skip n).setOpening (.definition kind .due [] none)).fault
      | _, _ => r.dissolve.fault.named name
    else r.named name

/-! ### Punctuation -/

/-- Passes over `n` characters of an operator. -/
def operator (r : Reader) (n : Nat) (part : NamePart) : Reader :=
  ((r.meet part).skip n).token .operand

/-- Reads an opening bracket. -/
def openBracket (r : Reader) (o : Opening) : Reader :=
  let start := r.place
  match r.opening, o with
  | .method .named, .paren => ((r.setOpening (.method .listed)).next.token .operand).push o start
  | _, .brace => ((r.meet .other).next.token .operand).push o start
  | _, _ => ((r.meet .bracket).next.token .operand).push o start

/-- Reads a closing bracket, which should close a stretch opened by `o`. -/
def closeBracket (r : Reader) (o : Opening) : Reader :=
  if r.opening = o then (r.next.pop r.next.place).token .operator
  else (r.meet .other).next.fault

/-- Reads a closing brace, which ends code inside a quoted stretch as well. -/
def closeBrace (r : Reader) : Reader :=
  if r.opening = .code then r.next.pop r.next.place else r.closeBracket .brace

/-- Reads an equals sign: after the head of a method it takes the place of a body. -/
def equals (r : Reader) : Reader :=
  match r.opening, r.rest with
  | .method .complete, _ => r.operator 1 .other
  | .method _, '=' :: d :: _ =>
    if ['=', '~', '>'].contains d then r.operator 2 .other else (r.next.token .operand).pop r.place
  | _, _ => r.operator 1 .other

/-- Whether a name before makes the operator at hand the start of its argument. -/
def opensArgument (r : Reader) (next : Text) : Bool :=
  match r.due with
  | .operand => true
  | .operator => false
  | .either =>
    r.spaced && (match next with
      | c :: _ => !(isGap c || c == '\n' || c == '=')
      | [] => false)

/-- Reads a less-than sign. -/
def lessThan (r : Reader) : Reader :=
  match r.rest with
  | '<' :: '<' :: rest =>
    match r.opening with
    | .definition .klass .due _ _ => ((r.setOpening .body).skip 2).token .operand
    | _ =>
      match heredoc? rest with
      | some (doc, after) =>
        if r.opensArgument rest then
          let r := ((r.meet .operand).skipTo after).token .operator
          { r with pending := r.pending ++ [doc] }
        else r.operator 2 .other
      | none => r.operator 2 .other
  | _ => r.operator 1 .superclass

/-- Reads a colon: a scope mark, a symbol or a separator. -/
def colon (r : Reader) : Reader :=
  match r.rest with
  | ':' :: ':' :: _ => { ((r.meet .scope).skip 2).token .operand with called := !r.spaced }
  | ':' :: '"' :: rest => r.openQuote (delimited '"' true false) rest
  | ':' :: '\x27' :: rest => r.openQuote (delimited '\x27' false false) rest
  | ':' :: rest =>
    match rest with
    | c :: _ =>
      if isNameStart c then
        let r := (r.meet .operand).skip (1 + (nameAt rest).length)
        { r.token .operator with names := r.names - 1 }
      else
        match operatorNameAt? rest with
        | some op =>
          let r := (r.meet .operand).skip (1 + op.length)
          { r.token .operator with names := r.names - 1 }
        | none => r.operator 1 .other
    | [] => r.operator 1 .other
  | _ => r.next

/-- Reads a question mark: a character, or the sign of a choice. -/
def question (r : Reader) : Reader :=
  match r.due, r.rest with
  | .operand, '?' :: '\\' :: _ :: _ => ((r.meet .operand).skip 3).token .operator
  | .operand, '?' :: c :: rest =>
    if Text.isBlank c ∨ (isNameChar c ∧ rest.head?.any isNameChar) then r.operator 1 .other
    else ((r.meet .operand).skip 2).token .operator
  | _, _ => r.operator 1 .other

/-- Reads a variable with a sigil. -/
def sigilled (r : Reader) : Reader :=
  match r.rest with
  | '$' :: c :: rest =>
    let n := if isNameStart c then (c :: rest).takeWhile isNameChar |>.length else 1
    { ((r.meet .operand).skip (1 + n)).token .operator with names := r.names - 1 }
  | '$' :: [] => r.next.fault
  | t =>
    let sigils := t.takeWhile (· == '@')
    let name := (t.drop sigils.length).takeWhile isNameChar
    let r := ((r.meet .operand).skip (sigils.length + name.length)).token .operator
    if name = [] ∨ 2 < sigils.length then r.fault else r

/-- Reads a number. -/
def number (r : Reader) : Reader :=
  let r := ((r.meet .number).skipWhile fun c => c.isDigit || c == '_')
  let r := match r.rest with
    | '.' :: c :: _ =>
      if c.isDigit then r.next.skipWhile fun c => c.isDigit || c == '_' else r
    | _ => r
  r.token .operator

/-- Reads a dot or a range sign. -/
def dots (r : Reader) : Reader :=
  match r.rest with
  | '.' :: '.' :: _ => ((r.meet .other).skipWhile (· == '.')).token .operand
  | _ => { (r.meet .dot).next.token .operand with called := true }

/-- What follows the first `=end` and the rest of its line. -/
def afterEndMark? : Text → Option Text
  | '=' :: 'e' :: 'n' :: 'd' :: rest => some (rest.dropWhile (· != '\n'))
  | '=' :: 'e' :: 'n' :: _ :: rest => afterEndMark? rest
  | '=' :: 'e' :: _ :: rest => afterEndMark? rest
  | '=' :: _ :: rest => afterEndMark? rest
  | _ :: rest => afterEndMark? rest
  | [] => none

/-- What follows a block comment, which goes from a line that `=begin` starts to the line of
`=end`. -/
def afterBlockComment? (t : Text) : Option Text :=
  match Text.after? "=begin".toList t with
  | some rest =>
    match rest.dropWhile (· != '\n') with
    | _ :: rest => afterEndMark? rest
    | [] => none
  | none => none

/-- Whether a block comment is at hand that nothing ends. -/
def opensComment (r : Reader) : Bool :=
  r.place.column = 0 &&
    match Text.after? "=begin".toList r.rest with
    | some (c :: _) => isGap c || c == '\n'
    | some [] => true
    | none => false

/-- Whether the mark is at hand after which nothing belongs to the source. -/
def endsSource (r : Reader) : Bool :=
  r.opening = .source && !r.called && r.names = 0 &&
    match Text.after? "__END__".toList r.rest with
    | some (c :: _) => c == '\n' || c == '\x0d'
    | _ => false

/-- The operator at hand that is the name of a method. -/
def operatorName? (r : Reader) : Option Text :=
  if r.called ∨ 0 < r.names then operatorNameAt? r.rest else none

/-- Reads the sign `c`, which `rest` follows. -/
def sign (r : Reader) (c : Char) (rest : Text) : Reader :=
  match c with
  | '\ufeff' => r.next
  | '"' => r.openQuote (delimited '"' true false) rest
  | '\x27' => r.openQuote (delimited '\x27' false false) rest
  | '\x60' => r.openQuote (delimited '\x60' true false) rest
  | '@' | '$' => r.sigilled
  | '(' => r.openBracket .paren
  | '[' => r.openBracket .bracket
  | '\x7b' => r.openBracket .brace
  | ')' => r.closeBracket .paren
  | ']' => r.closeBracket .bracket
  | '\x7d' => r.closeBrace
  | ';' => { ((r.meet .other).endLoopHead.endStatement.next).token .operand with spaced := true }
  | ',' =>
    let r := r.operator 1 .other
    if r.listing then { r with names := 1 } else r
  | '.' => r.dots
  | '&' => if rest.head? = some '.' then { r.operator 2 .dot with called := true } else r.operator 1 .other
  | ':' => r.colon
  | '?' => r.question
  | '<' => r.lessThan
  | '=' => r.equals
  | '/' =>
    if r.opensArgument rest then r.openQuote (delimited '/' true true) rest else r.operator 1 .other
  | '%' =>
    match percentQuote? rest with
    | some (q, after) =>
      if r.opensArgument rest then r.openQuote q after else r.operator 1 .other
    | none => r.operator 1 .other
  | _ =>
    if c.toNat < 0x20 ∨ c.toNat = 0x7F ∨ c = '\\' then r.next.fault else r.operator 1 .other

/-- One step in code. -/
def codeStep (r : Reader) : Reader :=
  match r.rest with
  | [] => r
  | c :: rest =>
    if c = '\n' then r.lineEnd
    else if isGap c then { r.next with spaced := true }
    else if c = '#' then { r.skipWhile (· != '\n') with spaced := true }
    else if let some after := afterBlockComment? r.rest then { r.skipTo after with spaced := true }
    else if r.opensComment then (r.skip r.rest.length).fault
    else if r.endsSource then r.skip r.rest.length
    else if c = '\\' ∧ (rest.head? = some '\n' ∨ rest.take 2 = ['\x0d', '\n']) then
      { (r.skipWhile (· != '\n')).next with spaced := true }
    else if c.isDigit then r.number
    else if isNameStart c ∧ c ≠ '\ufeff' then r.word
    else if let some op := r.operatorName? then
      { (((r.meet .operand).skip op.length).token .either) with names := r.names - 1 }
    else r.sign c rest

end Reader

/-- One step of reading. -/
def step (r : Reader) : Reader :=
  match r.opening with
  | .quoted q depth => r.quotedStep q depth
  | .heredoc doc => r.heredocStep doc
  | _ => r.codeStep

/-- Reads on until nothing is left. A step that takes no character is followed by one that does, so twice as
many steps as there are characters are enough. -/
def readAll : (fuel : Nat) → Reader → Reader
  | 0, r => r
  | fuel + 1, r => if r.rest = [] then r else readAll fuel (step r)

/-- What is left to be closed when the source has ended. -/
def finish (r : Reader) : Reader :=
  match r.frames with
  | [_] => r
  | _ =>
    let r := (r.refuseSuperclass.meet .other).fault
    if r.frames.length = 2 ∧ r.opening.isNamed then r.pop r.lastStop
    else (List.range r.frames.length).foldl (fun r _ => r.dissolve) r

/-- The outline of a source, and whether a fault was met. -/
def outline (t : Text) : Outline × Bool :=
  let r := finish (readAll (2 * t.length + 1) (.start t))
  (match r.frames.getLast? with
    | some f => f.outline r.place
    | none => .group ⟨1, 0⟩ r.place [], r.degraded)

end Ruby

/-- The index of a Ruby source. -/
def Index.ofSource (t : Text) : Index := (Ruby.outline t).1.index (Ruby.outline t).2

end Marginalia
