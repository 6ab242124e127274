/-
# From a name to a source file

The file that defines a class or module is the recorded one, else the file
that convention names, else the first one, in the order of paths, that
declares the name. For the last step all source files are read once; what
they declare is kept in the resolver.

Key definitions: `Resolver`, `Resolver.conventional?`, `Resolver.catalogueOf`, `Resolver.resolve`.
-/
import Marginalia.Declaration.Index
import Marginalia.FileTree.Search
import Marginalia.Source.Naming

namespace Marginalia

/-- Finds the files of classes and modules. -/
structure Resolver where
  /-- The folder from which recorded paths are taken. -/
  root : Path
  /-- The folders that are searched. -/
  folders : List Path
  /-- What the source files declare, once they were read. -/
  catalogue? : Option (List (String × Path)) := none
deriving DecidableEq, Repr

namespace Resolver

/-- The recorded file, if it is still there. -/
def recorded? (t : FileTree) (r : Resolver) (known : Option Path) : Option Path :=
  known.bind fun p =>
    let p := if p.isAbsolute then p else r.root.join p
    if t.isFile p then some p else none

/-- The path, below a searched folder, of the file that convention gives a name. -/
def conventionalPath (name : String) : Path := ⟨Naming.underscore name.toList ++ ".rb".toList⟩

/-- The first file that is where convention puts it. -/
def conventional? (t : FileTree) (r : Resolver) (name : String) : Option Path :=
  (r.folders.map fun f => f.join (conventionalPath name)).find? t.isFile

/-- What a file declares; nothing if it cannot be read. -/
def indexOf (parse : Text → Index) (t : FileTree) (p : Path) : Index :=
  match t.read p with
  | .ok text => parse text
  | .error _ => .unreadable

/-- The full names that an index holds, the classes first. -/
def declaredNames (i : Index) : List String := (i.classes ++ i.modules).map (·.fullName)

/-- The names that the source files declare, in the order of the files, each with its file. -/
def catalogueOf (parse : Text → Index) (t : FileTree) (folders : List Path) : List (String × Path) :=
  (t.sourceFiles folders).flatMap fun p => (declaredNames (indexOf parse t p)).map fun n => (n, p)

/-- The file of a name, and the resolver with what it learned. -/
def resolve (parse : Text → Index) (t : FileTree) (r : Resolver) (name : String) (known : Option Path) :
    Option Path × Resolver :=
  match recorded? t r known with
  | some p => (some p, r)
  | none =>
    match r.conventional? t name with
    | some p => (some p, r)
    | none =>
      let catalogue := match r.catalogue? with
        | some c => c
        | none => catalogueOf parse t r.folders
      (catalogue.lookup name, { r with catalogue? := some catalogue })

end Resolver
end Marginalia
