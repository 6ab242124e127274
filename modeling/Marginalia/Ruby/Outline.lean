/-
# Outlines of Ruby sources

An outline is the nesting tree of a source: its bracketed stretches, and
among them the class and module definitions, each with the name it declares
if it has a usable one. `Outline.declarations` walks the tree and gives every
named definition the names of the definitions around it.

Key definitions: `Outline`, `Outline.declarations`, `Outline.index`.
-/
import Marginalia.Declaration.Index

namespace Marginalia

/-- A place in a source. -/
structure Place where
  /-- The line, counted from one. -/
  line : Nat
  /-- The byte column, counted from zero. -/
  column : Nat
deriving DecidableEq, Repr

namespace Place

/-- A place stands before another on the same line, or on a line above. -/
def before (a b : Place) : Prop := a.line < b.line ∨ a.line = b.line ∧ a.column < b.column

instance (a b : Place) : Decidable (a.before b) :=
  inferInstanceAs (Decidable (a.line < b.line ∨ a.line = b.line ∧ a.column < b.column))

end Place

/-- The name that a definition declares. -/
structure DeclaredName where
  /-- The last part of the name. -/
  last : String
  /-- The name as written, without white space and leading `::`. -/
  written : String
deriving DecidableEq, Repr

/-- The nesting tree of a source. -/
inductive Outline where
  /-- A bracketed stretch that declares nothing by itself. -/
  | group (start stop : Place) (parts : List Outline)
  /-- A class or module definition, from its keyword to just past its closing `end`. -/
  | definition (kind : Declaration.Kind) (name : Option DeclaredName) (start stop : Place)
    (parts : List Outline)
deriving Repr

namespace Outline

mutual

/-- The named definitions of an outline in document order, below the names `scopes`. -/
def declarationsIn (scopes : List String) : Outline → List Declaration
  | group _ _ parts => declarationsOf scopes parts
  | definition _ none _ _ parts => declarationsOf scopes parts
  | definition kind (some name) start stop parts =>
    Declaration.spanning kind name.last scopes name.written start.line start.column stop.line ::
      declarationsOf (scopes ++ [name.last]) parts

/-- The named definitions of outlines that stand side by side. -/
def declarationsOf (scopes : List String) : List Outline → List Declaration
  | [] => []
  | o :: os => declarationsIn scopes o ++ declarationsOf scopes os

end

/-- The named definitions of a source in document order. -/
def declarations (o : Outline) : List Declaration := declarationsIn [] o

/-- The index of a source with the given outline. -/
def index (o : Outline) (degraded : Bool) : Index where
  classes := o.declarations.filter (·.kind == .klass)
  modules := o.declarations.filter (·.kind == .module)
  degraded := degraded

end Outline
end Marginalia
