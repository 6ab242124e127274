/-
# Data documents

The ending of a file name tells the format of the data in it.

Key definitions: `Format`, `Format.ofPath?`, `Format.read`, `Format.print`.
-/
import Marginalia.Data.Json.Reader
import Marginalia.Data.Json.Printer
import Marginalia.Data.Yaml.Reader
import Marginalia.Data.Yaml.Printer
import Marginalia.Fault
import Marginalia.FileTree.Path

namespace Marginalia

/-- A format of data documents. -/
inductive Format where
  /-- JSON. -/
  | json
  /-- YAML. -/
  | yaml
deriving DecidableEq, Repr

namespace Format

/-- The format of an ending. -/
def ofExtension? (e : Text) : Option Format :=
  match String.ofList e with
  | "yml" => some yaml
  | "yaml" => some yaml
  | "json" => some json
  | _ => none

/-- The format of the file at a path, if its ending tells one. -/
def ofPath? (p : Path) : Option Format := p.extension?.bind ofExtension?

/-- The fault of a document that is malformed or has another shape than expected. -/
def fault : Format → Fault
  | json => .json
  | yaml => .yaml

/-- Reads a document as a value of a certain shape. -/
def read (f : Format) (shape? : Value → Option α) (t : Text) : Except Fault α :=
  let v : Option Value := match f with
    | json => Json.read? t
    | yaml => Yaml.read? t
  match v.bind shape? with
  | some a => .ok a
  | none => .error f.fault

/-- Writes a document. -/
def print : Format → Value → Text
  | json => Json.pretty
  | yaml => Yaml.print

end Format
end Marginalia
