/-
# Paths

A path is a text whose parts are set apart by slashes. What it says are its
components: empty parts say nothing, nor does a dot, except where the path
starts with it. Two paths are the same if their components are; the text
stays as it was written or put together.

Key definitions: `Path.components`, `Path.same`, `Path.join`, `Path.extension?`,
`Path.dropLead?`, `Path.below`.
-/
import Marginalia.Text.Basic

namespace Marginalia

/-- A path as it is written. -/
structure Path where
  /-- The written form. -/
  text : Text
deriving DecidableEq, Repr

namespace Path

/-- What a part of a path says. -/
inductive Component where
  /-- The path starts at the root of all files. -/
  | root
  /-- The path starts in the present folder, and says so. -/
  | here
  /-- The folder above. -/
  | up
  /-- A file or folder of that name. -/
  | name (n : Text)
deriving DecidableEq, Repr

/-- The path of a text. -/
def ofString (s : String) : Path := ⟨s.toList⟩

/-- The written form. -/
def toString (p : Path) : String := String.ofList p.text

/-- The parts of a text between its slashes; there is one part more than slashes. -/
def splitParts : Text → List Text
  | [] => [[]]
  | c :: cs =>
    if c = '/' then [] :: splitParts cs
    else match splitParts cs with
      | [] => [[c]]
      | p :: ps => (c :: p) :: ps

/-- The parts of the path. -/
def parts (p : Path) : List Text := splitParts p.text

/-- What a part says that is not the first. -/
def innerComponent? (part : Text) : Option Component :=
  if part = [] ∨ part = ['.'] then none
  else if part = ['.', '.'] then some .up
  else some (.name part)

/-- Each part of the path with what it says, if it says something. -/
def pieces (p : Path) : List (Text × Option Component) :=
  match p.parts with
  | [] => []
  | first :: rest =>
    let lead : Option Component :=
      if first = [] then (if rest = [] then none else some .root)
      else if first = ['.'] then some .here
      else innerComponent? first
    (first, lead) :: rest.map fun part => (part, innerComponent? part)

/-- What the path says. -/
def components (p : Path) : List Component := p.pieces.filterMap (·.2)

/-- Whether two paths say the same. -/
def same (p q : Path) : Bool := p.components == q.components

/-- Whether the path starts at the root of all files. -/
def isAbsolute (p : Path) : Bool := p.text.head? == some '/'

/-- A path taken from a folder. An absolute path stays what it is. -/
def join (folder p : Path) : Path :=
  if p.isAbsolute then p
  else if folder.text = [] ∨ folder.text.getLast? = some '/' then ⟨folder.text ++ p.text⟩
  else ⟨folder.text ++ '/' :: p.text⟩

/-- The name of the file or folder to which the path leads, if it ends with a name. -/
def fileName? (p : Path) : Option Text :=
  match p.components.getLast? with
  | some (.name n) => some n
  | _ => none

/-- The ending of a file name: what follows its last dot, which must not be its first character. -/
def extension? (p : Path) : Option Text :=
  match p.fileName? with
  | none => none
  | some n =>
    let ending := Text.takeEndWhile (· != '.') n
    if ending.length + 1 < n.length then some ending else none

/-! ### Leading components -/

/-- Whether the path says at its start all that `lead` says. -/
def startsWith (p lead : Path) : Bool := lead.components.isPrefixOf p.components

/-- The pieces that are left once `n` components were taken away. -/
def dropComponents : Nat → List (Text × Option Component) → List (Text × Option Component)
  | 0, ps => ps
  | _, [] => []
  | n + 1, (_, some _) :: ps => dropComponents n ps
  | n + 1, (_, none) :: ps => dropComponents (n + 1) ps

/-- The path without the lead, if it starts with it: the remaining text from its first component
to its last one. -/
def dropLead? (lead p : Path) : Option Path :=
  if !p.startsWith lead then none
  else
    let rest := dropComponents lead.components.length p.pieces
    let saysNothing (x : Text × Option Component) : Bool := x.2.isNone
    let rest := if lead.components.isEmpty then rest else rest.dropWhile saysNothing
    some ⟨['/'].intercalate ((Text.dropEndWhile saysNothing rest).map (·.1))⟩

/-! ### Order -/

/-- The rank of a component among the components that can stand at its place, and its name. -/
def Component.key : Component → List Nat
  | root => [0]
  | here => [1]
  | up => [2]
  | name n => 3 :: n.map Char.toNat

/-- By what paths are ordered: component by component. -/
def key (p : Path) : List (List Nat) := p.components.map Component.key

/-- Whether a path comes before another one in order, or says the same. -/
def below (p q : Path) : Bool :=
  let before (m n : List Nat) : Bool := m.lex n Nat.blt
  !q.key.lex p.key before

/-- The paths in order. Of neighbours that say the same the first is kept. -/
def sorted (ps : List Path) : List Path := go (ps.mergeSort below)
where
  /-- Drops each path that says the same as the one before it. -/
  go : List Path → List Path
    | [] => []
    | p :: ps =>
      match go ps with
      | [] => [p]
      | q :: qs => if p.same q then p :: qs else p :: q :: qs

end Path
end Marginalia
