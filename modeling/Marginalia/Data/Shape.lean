/-
# Shapes of data values

How a value is read as a value of a certain kind. A record shape has a list
of names; a value fits it as a record that holds each of these names at most
once (other fields may stand beside them), or as a list of the fields in the
order of the names, of which the last may be absent. An unquoted word is read
as what the shape asks for, and a value that was left empty as an empty list
or a record without fields.

Key definitions: `Value.text?`, `Value.below?`, `Value.items?`, `Value.fields?`,
`Fields.need`, `Fields.orDefault`.
-/
import Marginalia.Data.Value

namespace Marginalia

/-- The fields of a record shape that a value holds. -/
abbrev Fields := List (String × Value)

namespace Fields

/-- Reads a field that may not be absent. -/
def need (fs : Fields) (name : String) (read? : Value → Option α) : Option α :=
  (fs.lookup name).bind read?

/-- Reads a field, or takes the default where it is absent. -/
def orDefault (fs : Fields) (name : String) (read? : Value → Option α) (default : α) : Option α :=
  match fs.lookup name with
  | some v => read? v
  | none => some default

end Fields

namespace Value

/-- Reads a text. -/
def text? : Value → Option String
  | str s => some s
  | bare w => some w
  | _ => none

/-- Reads a truth value. -/
def truth? : Value → Option Bool
  | bool b => some b
  | bare w => Word.bool? w
  | _ => none

/-- Reads a natural number below `bound`. -/
def below? (bound : Nat) (v : Value) : Option Nat :=
  let n : Option Nat := match v with
    | int n => if 0 ≤ n then some n.toNat else none
    | bare w => Word.nat? w.toList
    | _ => none
  n.filter (· < bound)

/-- Reads an unsigned number of 32 bits. -/
def uint32? (v : Value) : Option UInt32 := (below? UInt32.size v).map UInt32.ofNat

/-- Reads an unsigned number of 64 bits. -/
def uint64? (v : Value) : Option UInt64 := (below? UInt64.size v).map UInt64.ofNat

/-- Reads nothing, or something as `read?` does. -/
def option? (read? : Value → Option α) : Value → Option (Option α)
  | null => some none
  | bare w => if Word.isNull w then some none else (read? (bare w)).map some
  | v => (read? v).map some

/-- Reads a list whose items are read by `read?`. -/
def items? (read? : Value → Option α) : Value → Option (List α)
  | list vs => vs.mapM read?
  | sequence vs => vs.mapM read?
  | bare w => if w = "" then some [] else none
  | _ => none

/-- Whether a name stands at most once among the keys of a record. -/
def standsOnce (fs : List (Key × Value)) (name : String) : Bool :=
  (fs.filter fun f => f.1.text == name).length ≤ 1

/-- Reads a record with the given names; a list does not fit. -/
def record? (names : List String) : Value → Option Fields
  | record fs =>
    if names.all (standsOnce fs) then
      some ((fs.filter fun f => names.contains f.1.text).map fun f => (f.1.text, f.2))
    else none
  | bare w => if w = "" then some [] else none
  | _ => none

/-- Reads a record with the given names, or the list of its fields. -/
def fields? (names : List String) : Value → Option Fields
  | list vs => if vs.length ≤ names.length then some (names.zip vs) else none
  | v => record? names v

/-- A value or nothing, as a field. -/
def ofOption (write : α → Value) : Option α → Value
  | some a => write a
  | none => null

end Value
end Marginalia
