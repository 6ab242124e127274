/-
# File trees

The files that are worked on, as a value: what stands at each location, and
the folder from which relative paths are taken. A location is the list of
names from the root, without links and steps up; a path leads to a location,
or its walk fails at one of its parts.

Key definitions: `FileTree`, `FileTree.item?`, `FileTree.locate`, `FileTree.read`,
`FileTree.write`.
Key theorems: `FileTree.item?_put_self`, `FileTree.item?_put_of_ne`.
-/
import Marginalia.Fault
import Marginalia.FileTree.Path

namespace Marginalia

/-- What a file holds. -/
inductive Content where
  /-- A text. -/
  | text (t : Text)
  /-- Bytes that are no UTF-8 text. -/
  | binary (bytes : List UInt8)
deriving DecidableEq, Repr

/-- The content that bytes make up. -/
def Content.ofBytes (bytes : List UInt8) : Content :=
  match String.fromUTF8? ⟨bytes.toArray⟩ with
  | some s => text s.toList
  | none => binary bytes

/-- What stands at a location. -/
inductive Entry where
  /-- A file. -/
  | file (content : Content)
  /-- A folder. -/
  | folder
  /-- A link to what the path leads to. -/
  | link (target : Path)
deriving DecidableEq, Repr

/-- The names from the root of all files to a file or folder. -/
abbrev Location := List Text

/-- Files, folders and links at their locations. -/
structure FileTree where
  /-- What stands at the locations below the root; the first entry of a location counts. -/
  entries : List (Location × Entry) := []
  /-- The folder from which relative paths are taken. -/
  workingFolder : Location := []
deriving DecidableEq, Repr

namespace FileTree

/-- What stands at a location. The root is a folder. -/
def item? (t : FileTree) (l : Location) : Option Entry :=
  if l = [] then some .folder else (t.entries.find? (·.1 == l)).map (·.2)

/-- How many links a walk follows at most. -/
def linkLimit : Nat := 40

/-- Walks the parts of a path from a location; where a link is met, `follow` goes on from the
location at which its target starts, with the target's parts in front of what is left. At the place
that the last part names there may stand nothing, if the walk is for a `vacant` place as well. -/
def walkBy (t : FileTree) (vacant : Bool) (follow : Location → List Text → Except IoFault Location) :
    Location → List Text → Except IoFault Location
  | l, [] => .ok l
  | l, part :: parts =>
    if t.item? l ≠ some .folder then .error .notDirectory
    else if part = [] ∨ part = ['.'] then walkBy t vacant follow l parts
    else if part = ['.', '.'] then walkBy t vacant follow l.dropLast parts
    else
      match t.item? (l ++ [part]) with
      | none => if vacant ∧ parts = [] then .ok (l ++ [part]) else .error .notFound
      | some (.link target) => follow (if target.isAbsolute then [] else l) (target.parts ++ parts)
      | some _ => walkBy t vacant follow (l ++ [part]) parts

/-- Walks the parts of a path from a location, following at most `links` links. -/
def walk (t : FileTree) (vacant : Bool) : (links : Nat) → Location → List Text → Except IoFault Location
  | 0 => t.walkBy vacant fun _ _ => .error .tooManyLinks
  | links + 1 => t.walkBy vacant (t.walk vacant links)

/-- Where the walk of a path starts. -/
def origin (t : FileTree) (p : Path) : Location := if p.isAbsolute then [] else t.workingFolder

/-- The location to which a path leads. -/
def locate (t : FileTree) (p : Path) : Except IoFault Location :=
  if p.text = [] then .error .notFound else t.walk false linkLimit (t.origin p) p.parts

/-- What stands where the path leads. -/
def find? (t : FileTree) (p : Path) : Option Entry :=
  match t.locate p with
  | .ok l => t.item? l
  | .error _ => none

/-- Whether the path leads to a file. -/
def isFile (t : FileTree) (p : Path) : Bool :=
  match t.find? p with
  | some (.file _) => true
  | _ => false

/-- Whether the path leads to a folder. -/
def isFolder (t : FileTree) (p : Path) : Bool := t.find? p == some .folder

/-- The path of a location from the root. -/
def pathOf (l : Location) : Path := ⟨'/' :: ['/'].intercalate l⟩

/-- The path without links, dots and steps up, if the path leads somewhere. -/
def canonical? (t : FileTree) (p : Path) : Option Path := (t.locate p).toOption.map pathOf

/-- The text of the file to which the path leads. -/
def read (t : FileTree) (p : Path) : Except IoFault Text := do
  match t.item? (← t.locate p) with
  | some (.file (.text text)) => return text
  | some (.file (.binary _)) => throw .notText
  | some .folder => throw .isDirectory
  | some (.link _) => throw .tooManyLinks
  | none => throw .notFound

/-! ### Changes -/

/-- The entries with another one at a location, in the place of the first one there or below all. -/
def putIn (l : Location) (e : Entry) : List (Location × Entry) → List (Location × Entry)
  | [] => [(l, e)]
  | f :: fs => if f.1 = l then (l, e) :: fs else f :: putIn l e fs

/-- The tree with another entry at a location. -/
def put (t : FileTree) (l : Location) (e : Entry) : FileTree := { t with entries := putIn l e t.entries }

/-- The tree without what stands at a location. -/
def erase (t : FileTree) (l : Location) : FileTree :=
  { t with entries := t.entries.filter (·.1 != l) }

theorem find?_putIn (l m : Location) (e : Entry) : ∀ es : List (Location × Entry),
    (putIn l e es).find? (·.1 == m) = if l = m then some (l, e) else es.find? (·.1 == m)
  | [] => by
    rw [putIn, List.find?_singleton]
    simp only [beq_iff_eq, List.find?_nil]
  | f :: fs => by
    have ih := find?_putIn l m e fs
    rw [putIn]
    by_cases hm : l = m
    · subst hm
      by_cases hf : f.1 = l
      · simp [hf]
      · rw [if_neg hf, List.find?_cons_of_neg (by simpa using hf), ih]
        simp
    · rw [if_neg hm] at ih ⊢
      by_cases hf : f.1 = l
      · rw [if_pos hf, List.find?_cons_of_neg (by simpa using hm), List.find?_cons_of_neg (by simpa [hf] using hm)]
      · rw [if_neg hf, List.find?_cons, List.find?_cons, ih]

theorem item?_put_self (t : FileTree) {l : Location} (h : l ≠ []) (e : Entry) :
    (t.put l e).item? l = some e := by
  simp [item?, put, h, find?_putIn]

/-- A change at one location leaves what stands at the others. -/
theorem item?_put_of_ne (t : FileTree) {l m : Location} (h : m ≠ l) (e : Entry) :
    (t.put l e).item? m = t.item? m := by
  simp [item?, put, find?_putIn, Ne.symm h]

/-- The location at which a file is written: the one to which the path leads or, where nothing
stands yet, the place that its last name, or that of a link there, has in its folder. -/
def target (t : FileTree) (p : Path) : Except IoFault Location :=
  if p.text = [] then .error .notFound else t.walk true linkLimit (t.origin p) p.parts

/-- The tree once the text was written to the file at the path. -/
def write (t : FileTree) (p : Path) (text : Text) : Except IoFault FileTree := do
  let l ← t.target p
  match t.item? l with
  | some .folder => throw .isDirectory
  | some (.link _) => throw .tooManyLinks
  | _ => return t.put l (.file (.text text))

/-- The tree with a folder at the location and at those above it, where nothing stands yet. -/
def makeFolders (t : FileTree) (l : Location) : FileTree :=
  ((List.range l.length).map fun n => l.take (n + 1)).foldl
    (fun t l => if (t.item? l).isNone then t.put l .folder else t) t

/-- The location that a path names in a tree without links. -/
def plainLocation (t : FileTree) (p : Path) : Location :=
  p.components.foldl (fun l c =>
    match c with
    | .root => []
    | .here => l
    | .up => l.dropLast
    | .name n => l ++ [n]) (t.origin p)

/-- The tree with a file at a path, and with the folders that lead to it. -/
def store (t : FileTree) (p : Path) (c : Content) : FileTree :=
  let l := t.plainLocation p
  (t.makeFolders l.dropLast).put l (.file c)

/-- The tree without the file at a path. -/
def delete (t : FileTree) (p : Path) : Except IoFault FileTree := do
  let l ← t.locate p
  match t.item? l with
  | some .folder => throw .isDirectory
  | _ => return t.erase l

/-- The files below a location, by the names that lead to them from there. -/
def contentsBelow (t : FileTree) (l : Location) : List (Location × Content) :=
  t.entries.filterMap fun e =>
    match e.2, Text.after? l e.1 with
    | .file c, some (n :: ns) => some (n :: ns, c)
    | _, _ => none

end FileTree
end Marginalia
