/-
# Words of Ruby

The characters of names, the names that are keywords, and the operators that
may be method names.

Key definitions: `Ruby.nameAt`, `Ruby.keyword?`, `Ruby.operatorNameAt?`.
-/
import Marginalia.Text.Blank

namespace Marginalia
namespace Ruby

/-- A character that may begin a name. -/
def isNameStart (c : Char) : Bool := c.isAlpha || c == '_' || 0x80 ≤ c.toNat

/-- A character that may continue a name. -/
def isNameChar (c : Char) : Bool := isNameStart c || c.isDigit

/-- A character between tokens that is no line end. -/
def isGap (c : Char) : Bool := c == ' ' || c == '\t' || c == '\x0d' || c == '\x0b' || c == '\x0c'

/-- The mark that may end a method name: `?` or `!`, unless an operator begins with it. -/
def nameMark : Text → Text
  | m :: rest =>
    if m = '?' ∨ m = '!' then
      match rest with
      | '=' :: '=' :: _ => [m]
      | '=' :: '~' :: _ => [m]
      | '=' :: '>' :: _ => [m]
      | '=' :: _ => []
      | _ => [m]
    else []
  | [] => []

/-- The name at the start of a text that begins with a name character. -/
def nameAt (t : Text) : Text := t.takeWhile isNameChar ++ nameMark (t.dropWhile isNameChar)

/-- Whether a name is a constant: it begins with a capital ASCII letter. -/
def isConstant (name : Text) : Bool := name.head?.any Char.isUpper

/-- What a keyword does to the nesting and to what may follow it. -/
inductive Keyword where
  /-- Opens a class definition. -/
  | klass
  /-- Opens a module definition. -/
  | module
  /-- Opens a method definition. -/
  | definition
  /-- Opens a body. -/
  | body
  /-- Opens a body at the start of an expression, and is a suffix of a statement elsewhere. -/
  | condition
  /-- As `condition`, but a `do` may follow that belongs to it. -/
  | loop
  /-- Opens a loop over values. -/
  | counted
  /-- Opens a block, or the body of a loop. -/
  | block
  /-- Closes a body. -/
  | close
  /-- Takes names. -/
  | rename
  /-- Takes a list of names. -/
  | forget
  /-- Stands between expressions. -/
  | link
  /-- Is a value. -/
  | value
  /-- Is a command that may take a value. -/
  | command
deriving DecidableEq, Repr

/-- The keyword that a name is. -/
def keyword? (name : Text) : Option Keyword :=
  match String.ofList name with
  | "class" => some .klass
  | "module" => some .module
  | "def" => some .definition
  | "begin" | "case" => some .body
  | "if" | "unless" => some .condition
  | "while" | "until" => some .loop
  | "for" => some .counted
  | "do" => some .block
  | "end" => some .close
  | "alias" => some .rename
  | "undef" => some .forget
  | "and" | "or" | "not" | "then" | "else" | "elsif" | "when" | "in" | "ensure" | "rescue" => some .link
  | "self" | "nil" | "true" | "false" | "redo" | "retry" => some .value
  | "return" | "break" | "next" | "yield" | "super" => some .command
  | _ => none

/-- Whether a keyword may be a part of a declared name. -/
def Keyword.isOperand : Keyword → Bool
  | .value | .command => true
  | _ => false

/-- The operators that may be method names, longer ones first. -/
def operatorNames : List String :=
  ["[]=", "<=>", "===", "[]", "**", "==", "=~", "!~", "!=", "<<", ">>", "<=", ">=", "+@", "-@", "~@",
    "!@", "<", ">", "+", "-", "*", "/", "%", "&", "|", "^", "~", "!", "\x60"]

/-- The operator that may be a method name at the start of a text. -/
def operatorNameAt? (t : Text) : Option Text :=
  (operatorNames.map String.toList).find? fun op => op.isPrefixOf t

end Ruby
end Marginalia
