/-
# From snapshots to targets

Every entity of a snapshot gives a target, or the fault for which it has
none. Models and mailers are annotated at their classes, in the files that a
resolver finds; the routes are annotated at a line of one file. A run over
what a snapshot gives counts the faults as failures, after all else.

Key definitions: `Subject`, `Production`, `Schema.Snapshot.production`, `Mailers.Snapshot.production`,
`Routes.Snapshot.production`, `Annotator.annotate`.
-/
import Marginalia.Annotation.Run
import Marginalia.Comment.Mailers
import Marginalia.Comment.Routes
import Marginalia.Comment.Schema
import Marginalia.Source.Resolver

namespace Marginalia

/-- What a snapshot gives for one entity. -/
abbrev Production := Except Fault Target

/-- A class with the comment it is to have. -/
structure Subject where
  /-- The name of the class. -/
  name : String
  /-- The file that is recorded for it. -/
  sourceFile : Option String
  /-- The comment, or why there is none. -/
  comment : Except Fault Text

/-- The targets of classes. A file is looked for only where there is a comment. -/
def classTargets (parse : Text → Index) (files : FileTree) (tag : Tag) :
    Resolver → List Subject → List Production
  | _, [] => []
  | r, s :: ss =>
    match s.comment with
    | .error f => .error f :: classTargets parse files tag r ss
    | .ok payload =>
      let (file, r) := r.resolve parse files s.name (s.sourceFile.map Path.ofString)
      .ok {
        identifier := s.name
        file := file
        anchor := .declaration s.name
        tag := tag
        payload := payload } :: classTargets parse files tag r ss

/-- The targets of the models in a snapshot. -/
def Schema.Snapshot.production (parse : Text → Index) (files : FileTree) (r : Resolver)
    (options : Schema.Options) (s : Schema.Snapshot) : List Production :=
  classTargets parse files .schema r (s.models.map fun m =>
    { name := m.entity.name, sourceFile := m.entity.sourceFile, comment := s.comment options m.entity })

/-- The targets of the mailers in a snapshot. -/
def Mailers.Snapshot.production (parse : Text → Index) (files : FileTree) (r : Resolver)
    (s : Mailers.Snapshot) : List Production :=
  classTargets parse files .mailer r (s.mailers.map fun m =>
    { name := m.name, sourceFile := m.sourceFile, comment := Mailers.comment m })

/-- The one target of the routes in a snapshot. -/
def Routes.Snapshot.production (file : Path) (anchor : Pattern) (s : Routes.Snapshot) :
    List Production :=
  [.ok {
    identifier := "routes"
    file := some file
    anchor := .line anchor
    tag := .routes
    payload := Routes.comment s.routes }]

namespace Annotator

/-- The failure as which a fault is counted: under its entity, or else under the tag. -/
def failureOf (tag : Tag) (f : Fault) : Failure :=
  match f.ofEntity? with
  | some (entity, reason) => ⟨entity, reason⟩
  | none => ⟨tag.name, f.message⟩

/-- Puts the annotations of all targets into their files and counts the faults as failures. -/
def annotate (a : Annotator) (files : FileTree) (tag : Tag) (ps : List Production) : Run :=
  let targets := ps.filterMap Except.toOption
  let faults := ps.filterMap fun p =>
    match p with
    | .ok _ => none
    | .error f => some f
  let r := a.applyAll files targets
  { r with tally := r.tally ++ { failed := faults.map (failureOf tag) : Tally } }

end Annotator
end Marginalia
