/-
# Declaration indexes

An index lists the classes and modules of one source in document order and
answers which of them a name stands for: first the one whose full name it is,
then, for a name of one part, the first with that last part.

Key definitions: `Index`, `Index.findClass?`, `Index.findModule?`, `Index.resolve?`.
-/
import Marginalia.Declaration.Basic

namespace Marginalia

/-- The classes and modules of a source. -/
structure Index where
  /-- The classes in document order. -/
  classes : List Declaration := []
  /-- The modules in document order. -/
  modules : List Declaration := []
  /-- Whether the source has faults, so that declarations may be absent. -/
  degraded : Bool := false
deriving DecidableEq, Repr

namespace Index

/-- The index of a source that cannot be read. -/
def unreadable : Index where
  degraded := true

/-- Whether nothing is declared. -/
def isEmpty (i : Index) : Bool := i.classes.isEmpty && i.modules.isEmpty

/-- The declaration that a name stands for among `ds`. -/
def find? (ds : List Declaration) (query : String) : Option Declaration :=
  match ds.find? fun d => d.fullName == query with
  | some d => some d
  | none => if isQualified query then none else ds.find? fun d => d.name == query

/-- The class that a name stands for. -/
def findClass? (i : Index) (query : String) : Option Declaration := find? i.classes query

/-- The module that a name stands for. -/
def findModule? (i : Index) (query : String) : Option Declaration := find? i.modules query

/-- The class at which an annotation for `query` is placed. A name of one part is the last part
of a class's name; a longer one is a full name or else a written path below its namespace. -/
def resolve? (i : Index) (query : String) : Option Declaration :=
  if isQualified query then
    match i.findClass? query with
    | some d => some d
    | none => i.classes.find? fun d => d.qualifiedPath == query
  else i.classes.find? fun d => d.name == query

theorem resolve?_of_isQualified {query : String} (h : isQualified query) (i : Index) :
    i.resolve? query = (i.classes.find? fun d => d.fullName == query).or
      (i.classes.find? fun d => d.qualifiedPath == query) := by
  rw [resolve?, if_pos h, findClass?, find?, if_pos h]
  cases i.classes.find? fun d => d.fullName == query <;> rfl

theorem resolve?_of_not_isQualified {query : String} (h : ¬ isQualified query) (i : Index) :
    i.resolve? query = i.classes.find? fun d => d.name == query := if_neg h

end Index
end Marginalia
