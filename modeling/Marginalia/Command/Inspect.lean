/-
# Inspecting a source

What a source declares, as an indented list in the order of the text or as a
JSON record.

Key definitions: `Index.toValue`, `Index.inOrder`, `Command.inspect`.
-/
import Marginalia.Command.Report
import Marginalia.Ruby.Reader
import Marginalia.Source.Resolver

namespace Marginalia

/-- The record by which a declaration is written. -/
def Declaration.toValue (d : Declaration) : Value :=
  .object [("kind", .str d.kind.keyword), ("name", .str d.name), ("namespace", .strs d.scopes),
    ("full_name", .str d.fullName), ("declared_path", .str d.writtenPath),
    ("line_number", .nat d.line), ("column", .nat d.column), ("end_line", .nat d.endLine)]

namespace Index

/-- The record by which an index is written. -/
def toValue (i : Index) : Value :=
  .object [("classes", .list (i.classes.map Declaration.toValue)),
    ("modules", .list (i.modules.map Declaration.toValue)), ("degraded", .bool i.degraded)]

/-- Classes and modules in the order of their keywords. -/
def inOrder (i : Index) : List Declaration :=
  (i.classes ++ i.modules).mergeSort fun a b =>
    a.line < b.line || (a.line == b.line && a.column ≤ b.column)

end Index

namespace Command

/-- The line of a declaration, indented by its scopes. -/
def declarationLine (d : Declaration) : Text :=
  List.replicate (2 * (d.scopes.length + 1)) ' ' ++
    (d.kind.keyword ++ " " ++ d.fullName ++ " [" ++ d.line.repr ++ "-" ++ d.endLine.repr ++ "]\n").toList

/-- What is printed of the source at a path. -/
def inspect (files : FileTree) (p : Path) (json : Bool) : Output :=
  let index := Resolver.indexOf Index.ofSource files p
  if json then { out := Json.pretty index.toValue ++ ['\n'] }
  else
    Output.line p.toString ++
      (if index.degraded then Output.line "  ⚠ Syntax errors found; results may be partial" else {}) ++
      (if index.isEmpty then Output.line "  (no declarations)"
        else { out := index.inOrder.flatMap declarationLine })

end Command
end Marginalia
