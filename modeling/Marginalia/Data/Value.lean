/-
# Data values

The value that a data document holds, whichever format it is written in. A
YAML document may hold unquoted words (`Value.bare`), which are a text, a
number, a truth value or nothing, as their reader asks; `Value.settle` fixes
what they are where no reader asks for a certain shape.

Key definitions: `Value`, `Word.settle`, `Value.settle`.
-/
import Marginalia.Text.Basic

namespace Marginalia

/-- The key of a field. -/
structure Key where
  /-- The key as text. -/
  text : String
  /-- Whether the key is an unquoted word, which may denote something else than a text. -/
  bare : Bool := false
deriving DecidableEq, Repr

/-- The value of a data document. -/
inductive Value where
  /-- Nothing. -/
  | null
  /-- A truth value. -/
  | bool (b : Bool)
  /-- An integer. -/
  | int (n : Int)
  /-- A number that is no integer, as written. -/
  | real (literal : String)
  /-- A text. -/
  | str (s : String)
  /-- An unquoted word, whose kind is open. -/
  | bare (word : String)
  /-- A list of values. -/
  | list (items : List Value)
  /-- A list of values that cannot stand for the fields of a record. -/
  | sequence (items : List Value)
  /-- Named values in the order in which they are written. -/
  | record (fields : List (Key × Value))
  /-- Values under keys of which one is no text; it fits no record shape. -/
  | misfit
deriving Repr, Inhabited

namespace Value

/-- A record of named values. -/
def object (fields : List (String × Value)) : Value := record (fields.map fun f => (⟨f.1, false⟩, f.2))

/-- A list of texts. -/
def strs (l : List String) : Value := list (l.map str)

/-- A text or nothing. -/
def optStr : Option String → Value
  | some s => str s
  | none => null

/-- A natural number. -/
def nat (n : Nat) : Value := int n

/-- A natural number or nothing. -/
def optNat : Option Nat → Value
  | some n => nat n
  | none => null

/-- The value under a key, the first if there are several. -/
def get? (v : Value) (key : String) : Option Value :=
  match v with
  | record fields => (fields.find? fun f => f.1.text == key).map (·.2)
  | _ => none

end Value

/-! ### Unquoted words -/

namespace Word

/-- A word without a leading plus sign. -/
def dropPlus : Text → Text
  | '+' :: t => t
  | t => t

/-- The value of a digit in any base up to sixteen. -/
def digit? (c : Char) : Option Nat :=
  if c.isDigit then some (c.toNat - '0'.toNat)
  else if 'a' ≤ c ∧ c ≤ 'f' then some (c.toNat - 'a'.toNat + 10)
  else if 'A' ≤ c ∧ c ≤ 'F' then some (c.toNat - 'A'.toNat + 10)
  else none

/-- The number that digits of the base denote; at least one digit is needed. -/
def ofDigits? (base : Nat) : Text → Option Nat
  | [] => none
  | t => t.foldl (fun n c => do
      let n ← n
      let d ← digit? c
      if d < base then some (base * n + d) else none) (some 0)

/-- Two or more digits of which the first is a zero, after an optional sign: such a word is no number. -/
def hasIdleZero (t : Text) : Bool :=
  let t := match t with
    | '-' :: r => r
    | '+' :: r => r
    | _ => t
  match t with
  | '0' :: r => !r.isEmpty && r.all Char.isDigit
  | _ => false

/-- The magnitude after an optional base mark. -/
def magnitude? (t : Text) : Option Nat :=
  match t with
  | '0' :: 'x' :: r => ofDigits? 16 r
  | '0' :: 'o' :: r => ofDigits? 8 r
  | '0' :: 'b' :: r => ofDigits? 2 r
  | _ => ofDigits? 10 t

/-- The unsigned integer that a word denotes. -/
def nat? (t : Text) : Option Nat := if hasIdleZero t then none else magnitude? (dropPlus t)

/-- The integer that a word denotes. -/
def int? (t : Text) : Option Int :=
  match nat? t with
  | some n => some n
  | none =>
    if hasIdleZero t then none
    else match t with
      | '-' :: r => (magnitude? r).map fun n => -(n : Int)
      | _ => none

/-- Whether a word has the form of a decimal fraction or of a number with an exponent. -/
def isDecimal (t : Text) : Bool :=
  let t := match t with
    | '-' :: r => r
    | _ => t
  let whole := t.takeWhile Char.isDigit
  let rest := t.dropWhile Char.isDigit
  let (fraction, rest) := match rest with
    | '.' :: r => (r.takeWhile Char.isDigit, r.dropWhile Char.isDigit)
    | _ => ([], rest)
  let exponentFits := match rest with
    | [] => true
    | c :: r =>
      (c == 'e' || c == 'E') &&
        (let r := match r with
          | '+' :: r => r
          | '-' :: r => r
          | _ => r
        !r.isEmpty && r.all Char.isDigit)
  !(whole.isEmpty && fraction.isEmpty) && exponentFits

/-- Whether a word denotes a number that is not written as an integer. -/
def isReal (t : Text) : Bool :=
  let u := dropPlus t
  let signed := t != u && (u.head? == some '+' || u.head? == some '-')
  !hasIdleZero t && !signed &&
    ([".inf", ".Inf", ".INF", "-.inf", "-.Inf", "-.INF", ".nan", ".NaN", ".NAN"].any
      (·.toList == u) || isDecimal u)

/-- Whether a word denotes nothing. -/
def isNull (s : String) : Bool := s == "" || ["null", "Null", "NULL", "~"].contains s

/-- The truth value that a word denotes. -/
def bool? (s : String) : Option Bool :=
  if ["true", "True", "TRUE"].contains s then some true
  else if ["false", "False", "FALSE"].contains s then some false
  else none

/-- What an unquoted word denotes where no certain kind of value is asked for. -/
def settle (s : String) : Value :=
  if isNull s then .null
  else match bool? s with
    | some b => .bool b
    | none =>
      match int? s.toList with
      | some n => .int n
      | none => if isReal s.toList then .real s else .str s

/-- Whether the word denotes itself as a text. -/
def isText (s : String) : Bool :=
  match settle s with
  | .str _ => true
  | _ => false

end Word

namespace Value

/-- Whether a key is a text, or a count of fields, where no text is asked for. -/
def keyFits (k : Key) : Bool := !k.bare || Word.isText k.text || (Word.nat? k.text.toList).isSome

mutual

/-- The value with every unquoted word read as what it denotes. -/
def settle : Value → Value
  | bare w => Word.settle w
  | list items => list (settleAll items)
  | sequence items => list (settleAll items)
  | record fields =>
    if fields.all fun f => keyFits f.1 then record (settleFields fields) else misfit
  | null => null
  | bool b => bool b
  | int n => int n
  | real l => real l
  | str s => str s
  | misfit => misfit

/-- Settles each value of a list. -/
def settleAll : List Value → List Value
  | [] => []
  | v :: vs => v.settle :: settleAll vs

/-- Settles each value of a record. -/
def settleFields : List (Key × Value) → List (Key × Value)
  | [] => []
  | (k, v) :: fs => (k, v.settle) :: settleFields fs

end

end Value
end Marginalia
