/-
# Settings

What a project may set: its folders and files, where blocks go, which
sections are shown and which files are left alone. Everything has a default,
so a record of settings may lack any field.

Key definitions: `Settings`, `Settings.ofValue?`, `Settings.toValue`, `Settings.resolve`,
`Settings.annotator`.
-/
import Marginalia.Annotation.Run
import Marginalia.Comment.Schema
import Marginalia.Data.Shape
import Marginalia.Pattern.Reader

namespace Marginalia

/-- The settings of a project. -/
structure Settings where
  /-- The folder that holds all files which may be written. -/
  root : String := "."
  /-- The folders with models. -/
  modelFolders : List String := ["app/models"]
  /-- The folders with mailers. -/
  mailerFolders : List String := ["app/mailers"]
  /-- The file with the routes. -/
  routesFile : String := "config/routes.rb"
  /-- The pattern of the line below which the route map goes. -/
  routesAnchor : String := "^\\s*\\S+\\.routes\\.draw\\s+do\\b"
  /-- The snapshot of the tables. -/
  schemaSnapshot : String := "tmp/annotate/schema.json"
  /-- The snapshot of the routes. -/
  routesSnapshot : String := "tmp/annotate/routes.json"
  /-- The snapshot of the mailers. -/
  mailerSnapshot : String := "tmp/annotate/mailers.json"
  /-- Where blocks go. -/
  position : Position := .top
  /-- Whether files outside the root may be written. -/
  allowOutside : Bool := false
  /-- Whether nothing is written. -/
  dryRun : Bool := false
  /-- Whether schema comments list indexes. -/
  showIndexes : Bool := true
  /-- Whether schema comments list foreign keys. -/
  showForeignKeys : Bool := true
  /-- Whether schema comments list check constraints. -/
  showCheckConstraints : Bool := true
  /-- Globs of the files that are not written. -/
  exclude : List String := ["vendor/**", "node_modules/**", "tmp/**"]
deriving DecidableEq, Repr

namespace Settings

/-- Reads a position: its name, alone or over nothing. -/
def position? : Value → Option Position
  | .str s => Position.ofName? s
  | .bare w => Position.ofName? w
  | .record [(k, .null)] => Position.ofName? k.text
  | _ => none

/-- The names of the settings. -/
def names : List String :=
  ["root", "model_dir", "mailer_dir", "routes_file", "routes_anchor", "schema_snapshot",
    "routes_snapshot", "mailer_snapshot", "position", "allow_outside_root", "dry_run", "show_indexes",
    "show_foreign_keys", "show_check_constraints", "exclude"]

/-- Reads settings. -/
def ofValue? (v : Value) : Option Settings := do
  let f ← v.fields? names
  let d : Settings := {}
  let text (name : String) (default : String) := f.orDefault name Value.text? default
  let texts (name : String) (default : List String) := f.orDefault name (Value.items? Value.text?) default
  let truth (name : String) (default : Bool) := f.orDefault name Value.truth? default
  some {
    root := ← text "root" d.root
    modelFolders := ← texts "model_dir" d.modelFolders
    mailerFolders := ← texts "mailer_dir" d.mailerFolders
    routesFile := ← text "routes_file" d.routesFile
    routesAnchor := ← text "routes_anchor" d.routesAnchor
    schemaSnapshot := ← text "schema_snapshot" d.schemaSnapshot
    routesSnapshot := ← text "routes_snapshot" d.routesSnapshot
    mailerSnapshot := ← text "mailer_snapshot" d.mailerSnapshot
    position := ← f.orDefault "position" position? d.position
    allowOutside := ← truth "allow_outside_root" d.allowOutside
    dryRun := ← truth "dry_run" d.dryRun
    showIndexes := ← truth "show_indexes" d.showIndexes
    showForeignKeys := ← truth "show_foreign_keys" d.showForeignKeys
    showCheckConstraints := ← truth "show_check_constraints" d.showCheckConstraints
    exclude := ← texts "exclude" d.exclude }

/-- The record by which settings are written. -/
def toValue (s : Settings) : Value :=
  .object [("root", .str s.root), ("model_dir", .strs s.modelFolders), ("mailer_dir", .strs s.mailerFolders),
    ("routes_file", .str s.routesFile), ("routes_anchor", .str s.routesAnchor),
    ("schema_snapshot", .str s.schemaSnapshot), ("routes_snapshot", .str s.routesSnapshot),
    ("mailer_snapshot", .str s.mailerSnapshot), ("position", .str s.position.name),
    ("allow_outside_root", .bool s.allowOutside), ("dry_run", .bool s.dryRun),
    ("show_indexes", .bool s.showIndexes), ("show_foreign_keys", .bool s.showForeignKeys),
    ("show_check_constraints", .bool s.showCheckConstraints), ("exclude", .strs s.exclude)]

/-! ### What the settings say -/

/-- A path taken from the root. -/
def resolve (s : Settings) (path : String) : Path := (Path.ofString s.root).join (Path.ofString path)

/-- The folders with models, taken from the root. -/
def modelPaths (s : Settings) : List Path := s.modelFolders.map s.resolve

/-- The folders with mailers, taken from the root. -/
def mailerPaths (s : Settings) : List Path := s.mailerFolders.map s.resolve

/-- The line below which the route map goes. -/
def anchor (s : Settings) : Except Fault Pattern :=
  match Pattern.ofText? s.routesAnchor.toList with
  | some p => .ok p
  | none => .error .pattern

/-- The sections that are shown. -/
def schemaOptions (s : Settings) : Schema.Options where
  indexes := s.showIndexes
  foreignKeys := s.showForeignKeys
  checkConstraints := s.showCheckConstraints

/-- How runs are made under the settings. -/
def annotator (parse : Text → Index) (s : Settings) : Except Fault Annotator :=
  match s.exclude.mapM fun g => Glob.ofText? g.toList with
  | some globs => .ok {
      root := Path.ofString s.root
      position := s.position
      dryRun := s.dryRun
      allowOutside := s.allowOutside
      exclude := globs
      parse := parse }
  | none => .error .glob

end Settings
end Marginalia
