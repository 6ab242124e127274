/-
# Settings in files

Settings are kept in a file whose ending tells the format. A blank file holds
the defaults, whatever its ending.

Key definitions: `Settings.load`, `Settings.save`, `Settings.discover`, `Settings.loadOrDefault`.
-/
import Marginalia.Data.Document
import Marginalia.FileTree.Basic
import Marginalia.Settings.Basic

namespace Marginalia
namespace Settings

/-- Reads the settings in a file. -/
def load (files : FileTree) (p : Path) : Except Fault Settings := do
  let t ← (files.read p).mapError Fault.io
  if t.all Text.isBlank then return {}
  match Format.ofPath? p with
  | some f => f.read ofValue? t
  | none => throw (.settingsFormat (p.extension?.map String.ofList))

/-- The text of the settings for the file at a path; without an ending that tells otherwise it is
JSON. -/
def document (s : Settings) (p : Path) : Text := ((Format.ofPath? p).getD .json).print s.toValue

/-- Writes the settings to a file. -/
def save (files : FileTree) (s : Settings) (p : Path) : Except Fault FileTree :=
  (files.write p (s.document p)).mapError Fault.io

/-- The names of the files that may hold the settings of a project, the first of them first. -/
def fileNames : List String := [".annotaterb.yml", ".annotaterb.yaml", ".annotate.config.json"]

/-- The settings of the project in a folder; the defaults if no file holds any. -/
def discover (files : FileTree) (folder : Path) : Except Fault Settings :=
  match (fileNames.map fun n => folder.join (Path.ofString n)).find? files.isFile with
  | some p => load files p
  | none => .ok {}

/-- The settings of the project in the working folder, or the defaults if they cannot be read. -/
def loadOrDefault (files : FileTree) : Settings :=
  match discover files (Path.ofString ".") with
  | .ok s => s
  | .error _ => {}

end Settings
end Marginalia
