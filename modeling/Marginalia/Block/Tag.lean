/-
# Block tags

A tag names the kind of annotation a block holds. Blocks of different tags
live side by side in one file, told apart by their marker lines.

Key definitions: `Tag`, `Tag.beginMarker`, `Tag.endMarker`, `Tag.ofName?`.
-/
import Marginalia.Text.Basic

namespace Marginalia

/-- The kind of annotation that a block holds. -/
inductive Tag where
  /-- The table behind a model. -/
  | schema
  /-- The route map of an application. -/
  | routes
  /-- The actions of a mailer. -/
  | mailer
deriving DecidableEq, Repr

namespace Tag

/-- The tags in the order in which blocks of one file are handled. -/
def all : List Tag := [schema, routes, mailer]

/-- The tag's name in markers and answers. -/
def name : Tag → String
  | schema => "schema"
  | routes => "routes"
  | mailer => "mailer"

/-- The comment sign in front of every line of a block. -/
def commentSign : Char := '#'

/-- The line that opens a block of the tag. -/
def beginMarker (tag : Tag) : Text :=
  commentSign :: " --- BEGIN annotate:".toList ++ tag.name.toList ++ " ---".toList

/-- The line that closes a block of the tag. -/
def endMarker (tag : Tag) : Text :=
  commentSign :: " --- END annotate:".toList ++ tag.name.toList ++ " ---".toList

theorem beginMarker_ne_nil (tag : Tag) : tag.beginMarker ≠ [] := by
  simp [beginMarker]

/-- The tag of a given name, in any case; two of them may be named for what they annotate. -/
def ofName? (s : String) : Option Tag :=
  match String.ofList (s.toList.map Char.toLower) with
  | "schema" => some schema
  | "models" => some schema
  | "routes" => some routes
  | "mailer" => some mailer
  | "mailers" => some mailer
  | _ => none

end Tag
end Marginalia
