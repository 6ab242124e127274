/-
# Leading directives

Some comments act only at the top of a file: a shebang line, a magic comment
such as `# encoding: utf-8`, an editor's mode line. An annotation at the top
of a file goes below the run of them with which the file begins.

Key definitions: `isDirective`, `headerLength`, `splitHeader`.
Key theorem: `splitHeader_append`.
-/
import Marginalia.Text.Blank

namespace Marginalia
namespace Directive

/-- The names of magic comments. -/
def magicNames : List String :=
  ["frozen_string_literal", "encoding", "coding", "warn_indent", "warn_past_scope",
    "shareable_constant_value", "typed"]

/-- The simple case folding of a character, as far as ASCII letters are concerned: besides the
capitals, the long s and the kelvin sign fold to an ASCII letter. -/
def foldCase (c : Char) : Char :=
  if c = 'ſ' then 's' else if c = 'K' then 'k' else c.toLower

/-- A magic name followed by a colon, with blanks around the name. -/
def isMagic (t : Text) : Bool :=
  let t := (t.dropWhile Text.isBlank).map foldCase
  magicNames.any fun name =>
    match Text.after? name.toList t with
    | some rest => (rest.dropWhile Text.isBlank).head? == some ':'
    | none => false

/-- The mark `-*-`, which opens and closes the content of a mode line. -/
def modeMark : Text := ['-', '*', '-']

/-- Two mode marks, one after the other, before the first newline. -/
def isModeLine (t : Text) : Bool :=
  match Text.splitFirst? modeMark (t.takeWhile fun c => !Text.isNewline c) with
  | some (_, rest) => (Text.splitFirst? modeMark rest).isSome
  | none => false

/-- Whether a line is a directive: it starts with `#`, and a shebang's `!`, a magic name or a
mode line follows. -/
def isDirective (line : Text) : Bool :=
  match Text.trimEnd line with
  | '#' :: rest => rest.head? == some '!' || isMagic rest || isModeLine rest
  | _ => false

/-- The number of directive lines with which the text begins. -/
def headerLength (t : Text) : Nat := ((Text.lines t).takeWhile isDirective).length

/-- The run of directive lines with which the text begins, and the rest. -/
def splitHeader (t : Text) : Text × Text :=
  (((Text.rawLines t).take (headerLength t)).flatten, ((Text.rawLines t).drop (headerLength t)).flatten)

theorem splitHeader_append (t : Text) : (splitHeader t).1 ++ (splitHeader t).2 = t := by
  simp only [splitHeader, ← List.flatten_append, List.take_append_drop, Text.rawLines_flatten]

end Directive
end Marginalia
