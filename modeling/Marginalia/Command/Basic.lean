/-
# Commands

A command works on the files of a project under its settings. It ends with a
tally, its report and the files as it leaves them, or with a fault, which may
be told as what the command was about when it arose.

Key definitions: `CommandFault`, `CommandRun`, `Command.annotating`, `Command.models`, `Command.routes`,
`Command.mailers`, `Command.remove`.
-/
import Marginalia.Annotation.Production
import Marginalia.Command.Report
import Marginalia.Ruby.Reader
import Marginalia.Settings.Store

namespace Marginalia

/-- Why a command ended early. -/
structure CommandFault where
  /-- What went wrong. -/
  cause : Fault
  /-- What the command was about. -/
  occasion : Option String := none
deriving DecidableEq, Repr

/-- The wording of the fault of a command. -/
def CommandFault.message (f : CommandFault) : String := f.occasion.getD f.cause.message

/-- What a command leaves. -/
structure CommandRun where
  /-- What became of the entities. -/
  tally : Tally
  /-- What it prints. -/
  output : Output
  /-- The files as they are now. -/
  files : FileTree
deriving DecidableEq, Repr

namespace Command

/-- A step in whose faults the command is told about. -/
def about (occasion : String) (r : Except Fault α) : Except CommandFault α :=
  r.mapError fun f => { cause := f, occasion := some occasion }

/-- A step that tells its faults itself. -/
def plainly (r : Except Fault α) : Except CommandFault α := r.mapError fun f => { cause := f }

/-- Reads a snapshot. Without an ending that tells otherwise it is JSON. -/
def readSnapshot (shape? : Value → Option α) (files : FileTree) (p : Path) : Except Fault α := do
  let t ← (files.read p).mapError Fault.io
  ((Format.ofPath? p).getD .json).read shape? t

/-- What a command leaves that ends with a run. -/
def finish (action : Action) (s : Settings) (json : Bool) (r : Run) : CommandRun where
  tally := r.tally
  output := r.tally.report action s.dryRun json
  files := r.files

/-- How runs are made under the settings. -/
def annotator (s : Settings) : Except CommandFault Annotator := plainly (s.annotator Index.ofSource)

/-- Finds classes in folders. -/
def resolver (s : Settings) (folders : List Path) : Resolver := { root := Path.ofString s.root, folders := folders }

/-- Annotates what a snapshot gives under a tag. How runs are made is asked after the snapshot. -/
def annotating (files : FileTree) (s : Settings) (json : Bool) (tag : Tag)
    (productions : Except CommandFault (List Production)) : Except CommandFault CommandRun := do
  let ps ← productions
  let a ← annotator s
  return finish .annotate s json (a.annotate files tag ps)

/-- What a schema snapshot gives. -/
def modelProductions (files : FileTree) (s : Settings) (snapshot : Option Path) :
    Except CommandFault (List Production) := do
  let path := snapshot.getD (s.resolve s.schemaSnapshot)
  let snapshot ← about ("reading schema snapshot " ++ path.toString)
    (readSnapshot Schema.Snapshot.ofValue? files path)
  return snapshot.production Index.ofSource files (resolver s s.modelPaths) s.schemaOptions

/-- What a routes snapshot gives for the routes file. -/
def routesProductions (files : FileTree) (s : Settings) (snapshot file : Option Path) :
    Except CommandFault (List Production) := do
  let path := snapshot.getD (s.resolve s.routesSnapshot)
  let file := file.getD (s.resolve s.routesFile)
  let anchor ← about "invalid routes_anchor pattern" s.anchor
  let snapshot ← about ("reading routes snapshot " ++ path.toString)
    (readSnapshot Routes.Snapshot.ofValue? files path)
  return snapshot.production file anchor

/-- What a mailer snapshot gives. -/
def mailerProductions (files : FileTree) (s : Settings) (snapshot : Option Path) :
    Except CommandFault (List Production) := do
  let path := snapshot.getD (s.resolve s.mailerSnapshot)
  let snapshot ← about ("reading mailer snapshot " ++ path.toString)
    (readSnapshot Mailers.Snapshot.ofValue? files path)
  return snapshot.production Index.ofSource files (resolver s s.mailerPaths)

/-- Annotates the models of a schema snapshot. -/
def models (files : FileTree) (s : Settings) (json : Bool) (snapshot : Option Path) :
    Except CommandFault CommandRun :=
  annotating files s json .schema (modelProductions files s snapshot)

/-- Annotates the routes file by a routes snapshot. -/
def routes (files : FileTree) (s : Settings) (json : Bool) (snapshot file : Option Path) :
    Except CommandFault CommandRun :=
  annotating files s json .routes (routesProductions files s snapshot file)

/-- Annotates the mailers of a mailer snapshot. -/
def mailers (files : FileTree) (s : Settings) (json : Bool) (snapshot : Option Path) :
    Except CommandFault CommandRun :=
  annotating files s json .mailer (mailerProductions files s snapshot)

/-- The files that may hold blocks of a tag. -/
def candidates (files : FileTree) (s : Settings) : Tag → List Path
  | .schema => files.sourceFiles s.modelPaths
  | .routes => [s.resolve s.routesFile]
  | .mailer => files.sourceFiles s.mailerPaths

/-- Goes on with a removal by the blocks of a tag. -/
def removeTag (a : Annotator) (s : Settings) (r : Run) (tag : Tag) : Run :=
  let next := a.removeFrom r.files (candidates r.files s tag) tag
  { tally := r.tally ++ next.tally, files := next.files }

/-- Takes the blocks of the tags out of the files that may hold them; of all tags if none is
given. -/
def remove (files : FileTree) (s : Settings) (json : Bool) (tags : List Tag) :
    Except CommandFault CommandRun := do
  let a ← annotator s
  let run := (if tags.isEmpty then Tag.all else tags).foldl (removeTag a s) { files := files }
  return finish .clean s json run

end Command
end Marginalia
