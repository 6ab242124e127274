/-
# Searching for source files

The files below a folder are found without following links; the folder itself
may be named by a link. A file is taken for a Ruby source by its name alone.

Key definitions: `Path.looksLikeRuby`, `FileTree.namesLink`, `FileTree.filesBelow`,
`FileTree.sourceFiles`.
-/
import Marginalia.FileTree.Basic

namespace Marginalia

/-- The endings of Ruby source files. -/
def rubyEndings : List String := ["rb", "rake", "ru", "gemspec"]

/-- The names of Ruby source files without an ending. -/
def rubyNames : List String := ["Gemfile", "Rakefile"]

/-- Whether the path is named like a Ruby source file. -/
def Path.looksLikeRuby (p : Path) : Bool :=
  p.extension?.any (fun e => rubyEndings.any (·.toList == e)) ||
    p.fileName?.any fun n => rubyNames.any (·.toList == n)

namespace FileTree

/-- The path of a location below the folder at `p`, by the names that lead there. -/
def descend (p : Path) (names : List Text) : Path := names.foldl (fun p n => p.join ⟨n⟩) p

/-- The path of what is listed, if it is a file below the location to which the path leads. -/
def pathBelow? (p : Path) (l : Location) : Location × Entry → Option Path
  | (m, .file _) =>
    match Text.after? l m with
    | some (n :: ns) => some (descend p (n :: ns))
    | _ => none
  | _ => none

/-- Whether a link stands at the location. -/
def isLink (t : FileTree) (l : Location) : Bool :=
  match t.item? l with
  | some (.link _) => true
  | _ => false

/-- Whether the last part of the path is the name of a link. -/
def namesLink (t : FileTree) (p : Path) : Bool :=
  match p.parts.reverse with
  | [] => false
  | name :: lead =>
    match t.walk false linkLimit (t.origin p) lead.reverse with
    | .error _ => false
    | .ok l => t.isLink (l ++ [name])

/-- The files below the folder to which the path leads, or the file that it names. A link to a folder is
followed, a link to a file is not. -/
def filesBelow (t : FileTree) (p : Path) : List Path :=
  match t.locate p with
  | .error _ => []
  | .ok l =>
    match t.item? l with
    | some (.file _) => if t.namesLink p then [] else [p]
    | some .folder => t.entries.filterMap (pathBelow? p l)
    | _ => []

/-- The Ruby source files below the folders, in the order of their paths. -/
def sourceFiles (t : FileTree) (folders : List Path) : List Path :=
  Path.sorted ((folders.flatMap t.filesBelow).filter Path.looksLikeRuby)

end FileTree
end Marginalia
