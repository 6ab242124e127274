/-
# Placing many blocks

Several blocks go into one text by one index of it. They are placed from the
bottom up, so that no block moves a line at which a later one is placed.

Key definitions: `Placement.Request`, `Placement.insert?`, `Placement.insertAll`.
-/
import Marginalia.Declaration.Index
import Marginalia.Placement.Basic

namespace Marginalia
namespace Placement

/-- A block to be placed at the class that a name stands for. -/
structure Request where
  /-- The name of the class. -/
  name : String
  /-- The block; an empty one is placed by doing nothing. -/
  block : Text
deriving DecidableEq, Repr

/-- What came of placing several blocks. -/
structure Outcome where
  /-- The text with the blocks. -/
  text : Text
  /-- The names whose class was found, from the top of the text down. -/
  inserted : List String := []
  /-- The names that stand for no class, as requested. -/
  missing : List String := []
deriving DecidableEq, Repr

/-- The text with one block placed, or `none` if the name stands for no class. -/
def insert? (pos : Position) (index : Index) (t : Text) (r : Request) : Option Text :=
  (index.resolve? r.name).map fun d => if r.block = [] then t else place pos t d r.block

/-- The requests whose name stands for a class, each with that class. -/
def resolved (index : Index) (rs : List Request) : List (Declaration × Request) :=
  rs.filterMap fun r => (index.resolve? r.name).map fun d => (d, r)

/-- The requests from the bottom up; those of one line keep their order. -/
def bottomUp (pos : Position) (rs : List (Declaration × Request)) : List (Declaration × Request) :=
  rs.mergeSort fun a b => anchorLine pos b.1 ≤ anchorLine pos a.1

/-- Places the blocks one after the other. -/
def placeAll (pos : Position) (t : Text) (rs : List (Declaration × Request)) : Text :=
  rs.foldl (fun t r => if r.2.block = [] then t else place pos t r.1 r.2.block) t

/-- The text with all blocks placed whose name stands for a class. -/
def insertAll (pos : Position) (index : Index) (t : Text) (rs : List Request) : Outcome :=
  let order := bottomUp pos (resolved index rs)
  { text := placeAll pos t order
    inserted := (order.map (·.2.name)).reverse
    missing := (rs.filter fun r => (index.resolve? r.name).isNone).map (·.name) }

end Placement
end Marginalia
