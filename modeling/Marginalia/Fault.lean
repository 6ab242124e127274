/-
# Faults

What can go wrong where an operation needs something from outside: a file,
a data document, a pattern, a record of an entity. A fault is its cause; its
wording is `Fault.message`.

Key definitions: `IoFault`, `Fault`, `Fault.message`.
-/

namespace Marginalia

/-- Why a file could not be read or written. -/
inductive IoFault where
  /-- There is nothing at the path. -/
  | notFound
  /-- The path goes through something that is no directory. -/
  | notDirectory
  /-- There is a directory at the path. -/
  | isDirectory
  /-- The links at the path lead to one another. -/
  | tooManyLinks
  /-- The content is no UTF-8 text. -/
  | notText
deriving DecidableEq, Repr

/-- The wording of an input-output fault, with the system's number for it. -/
def IoFault.message : IoFault → String
  | notFound => "No such file or directory (os error 2)"
  | notDirectory => "Not a directory (os error 20)"
  | isDirectory => "Is a directory (os error 21)"
  | tooManyLinks => "Too many levels of symbolic links (os error 40)"
  | notText => "stream did not contain valid UTF-8"

/-- The reason for which an operation failed. -/
inductive Fault where
  /-- A file could not be read or written. -/
  | io (cause : IoFault)
  /-- A JSON document is malformed or has another shape than expected. -/
  | json
  /-- A YAML document is malformed or has another shape than expected. -/
  | yaml
  /-- A regular expression is malformed. -/
  | pattern
  /-- A glob is malformed. -/
  | glob
  /-- Settings are in a file of unknown format. -/
  | settingsFormat (extension : Option String)
  /-- A snapshot records that data of an entity could not be had. -/
  | unavailable (entity what cause : String)
  /-- A snapshot has no record of an entity. -/
  | unrecorded (entity : String)
  /-- A name is no tag's name. -/
  | unknownTag (name : String)
deriving DecidableEq, Repr

namespace Fault

/-- The entity that a fault is about, and what is wrong with it. -/
def ofEntity? : Fault → Option (String × String)
  | unavailable entity what cause => some (entity, what ++ " unavailable: " ++ cause)
  | unrecorded entity => some (entity, "not present in schema snapshot")
  | _ => none

/-- The wording of a fault. The readers of data and patterns add details of their own after
the colon, which are no part of the wording here. -/
def message : Fault → String
  | io cause => "I/O error: " ++ cause.message
  | json => "JSON error:"
  | yaml => "YAML error:"
  | pattern => "invalid pattern:"
  | glob => "invalid glob:"
  | settingsFormat extension => "unsupported config format: " ++ extension.getD "<none>"
  | unavailable entity what cause => entity ++ ": " ++ what ++ " unavailable: " ++ cause
  | unrecorded entity => entity ++ ": not present in schema snapshot"
  | unknownTag name => "Unknown marker tag: " ++ name

end Fault
end Marginalia
