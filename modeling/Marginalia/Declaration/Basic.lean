/-
# Declarations

A declaration is a class or module with the names around it and the lines it
spans. It is known by three names: the last part of what is written
(`name`), that name below its namespace (`fullName`), and the written path
below its namespace (`qualifiedPath`).

Key definitions: `Declaration`, `Declaration.spanning`, `Declaration.fullName`,
`Declaration.qualifiedPath`.
-/

namespace Marginalia

/-- The mark between the parts of a path of names. -/
def scopeMark : String := "::"

/-- Names joined by `::`. -/
def joinScopes (names : List String) : String := String.intercalate scopeMark names

/-- Whether a name has more than one part, that is, holds a `::`. -/
def isQualified (name : String) : Bool := go name.toList
where
  /-- Looks for two colons in a row. -/
  go : List Char → Bool
    | ':' :: ':' :: _ => true
    | _ :: cs => go cs
    | [] => false

/-- What a declaration declares. -/
inductive Declaration.Kind where
  /-- A class. -/
  | klass
  /-- A module. -/
  | module
deriving DecidableEq, Repr

/-- The keyword of the kind. -/
def Declaration.Kind.keyword : Declaration.Kind → String
  | .klass => "class"
  | .module => "module"

/-- A class or module with its place in the source. -/
structure Declaration where
  /-- Class or module. -/
  kind : Declaration.Kind
  /-- The last part of the declared name. -/
  name : String
  /-- The names of the enclosing declarations, outermost first. -/
  scopes : List String
  /-- The name as written, without white space and leading `::`. -/
  writtenPath : String
  /-- The line of the keyword, counted from one. -/
  line : Nat
  /-- The byte column of the keyword, counted from zero. -/
  column : Nat
  /-- The line on which the declaration ends. -/
  endLine : Nat
  /-- A declaration does not end above its keyword. -/
  line_le_endLine : line ≤ endLine := by omega
deriving DecidableEq, Repr

namespace Declaration

/-- A declaration from its keyword's line to `last`, or to the keyword's line if that is lower. -/
def spanning (kind : Kind) (name : String) (scopes : List String) (writtenPath : String)
    (line column last : Nat) : Declaration where
  kind := kind
  name := name
  scopes := scopes
  writtenPath := writtenPath
  line := line
  column := column
  endLine := max last line

/-- The names of the enclosing declarations and the last part of the own name. -/
def fullName (d : Declaration) : String := joinScopes (d.scopes ++ [d.name])

/-- The names of the enclosing declarations and the own name as written. -/
def qualifiedPath (d : Declaration) : String := joinScopes (d.scopes ++ [d.writtenPath])

/-- The names of the enclosing declarations. -/
def namespacePath (d : Declaration) : String := joinScopes d.scopes

/-- Whether no declaration encloses this one. -/
def isTopLevel (d : Declaration) : Bool := d.scopes.isEmpty

end Declaration
end Marginalia
