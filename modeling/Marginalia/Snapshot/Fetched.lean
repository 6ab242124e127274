/-
# Lists that may have failed to be had

A snapshot records a list, or why the list could not be had. The failure is
written as a record with the field `error`.

Key definitions: `Fetched`, `Fetched.ofValue?`, `Fetched.toValue`, `Fetched.get`.
-/
import Marginalia.Data.Shape
import Marginalia.Fault

namespace Marginalia

/-- A list as recorded, or why it could not be had. -/
inductive Fetched (α : Type) where
  /-- The list could not be had. -/
  | failed (cause : String)
  /-- The recorded list. -/
  | items (l : List α)
deriving DecidableEq, Repr

namespace Fetched

/-- Reads a failure, that is a record with one text `error`. -/
def cause? : Value → Option String
  | .record fs => do
    let fields ← Value.record? ["error"] (.record fs)
    fields.need "error" Value.text?
  | _ => none

/-- Reads a failure, else a list. The value is settled first, so an unquoted word in it is
read as what it denotes. -/
def ofValue? (read? : Value → Option α) (v : Value) : Option (Fetched α) :=
  match cause? v.settle with
  | some cause => some (failed cause)
  | none => (Value.items? read? v.settle).map items

/-- The value by which a recorded list or failure is written. -/
def toValue (write : α → Value) : Fetched α → Value
  | failed cause => .object [("error", .str cause)]
  | items l => .list (l.map write)

/-- The list, or the fault that `what` of the entity is unavailable. -/
def get (entity what : String) : Fetched α → Except Fault (List α)
  | failed cause => .error (.unavailable entity what cause)
  | items l => .ok l

end Fetched
end Marginalia
