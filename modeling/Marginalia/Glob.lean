/-
# Globs

A glob describes whole paths: `?` is one character and `*` any number of
them, separators included; `**` as a whole component is any number of
components; brackets hold a set of characters or, after `!`, those outside
it. Letter case counts.

Key definitions: `Glob`, `Glob.ofText?`, `Glob.accepts`.
-/
import Marginalia.Text.Basic

namespace Marginalia

/-- A part of a glob. -/
inductive Glob.Part where
  /-- The character itself. -/
  | literal (c : Char)
  /-- One character. -/
  | anyOne
  /-- Any number of characters. -/
  | anyMany
  /-- Nothing, everything, or a text that ends with a separator. -/
  | anyDepth
  /-- One character of the ranges. -/
  | among (ranges : List (Char × Char))
  /-- One character outside the ranges. -/
  | outside (ranges : List (Char × Char))
deriving DecidableEq, Repr

/-- A glob as the list of its parts. -/
abbrev Glob := List Glob.Part

namespace Glob

/-- What separates the components of a path. -/
def separator : Char := '/'

/-! ### Reading -/

/-- The ranges of a set: two characters around a hyphen, or single characters. -/
def ranges : Text → List (Char × Char)
  | a :: '-' :: b :: r => (a, b) :: ranges r
  | a :: r => (a, a) :: ranges r
  | [] => []

/-- A set, after its opening bracket, and the rest. A closing bracket that stands first belongs to
the set. -/
def set? (t : Text) : Option (Part × Text) :=
  let (negated, t) := match t with
    | '!' :: r => (true, r)
    | _ => (false, t)
  match t with
  | [] => none
  | first :: r =>
    let inner := r.takeWhile (· != ']')
    match r.drop inner.length with
    | _ :: rest =>
      let rs := ranges (first :: inner)
      some (if negated then .outside rs else .among rs, rest)
    | [] => none

/-- Reads the parts; `before` is the character before the text. Each step takes at least one
character. -/
def read? : Nat → (before : Option Char) → Text → Option Glob
  | _, _, [] => some []
  | 0, _, _ => none
  | fuel + 1, before, c :: r =>
    match c with
    | '?' => (read? fuel (some c) r).map (.anyOne :: ·)
    | '[' =>
      match set? r with
      | some (p, rest) => (read? fuel (some ']') rest).map (p :: ·)
      | none => none
    | '*' =>
      match r with
      | '*' :: rest =>
        if before.any (· != separator) then none
        else
          match rest with
          | [] => some [.anyDepth]
          | d :: rest =>
            if d = separator then (read? fuel (some d) rest).map (.anyDepth :: ·) else none
      | _ => (read? fuel (some c) r).map (.anyMany :: ·)
    | _ => (read? fuel (some c) r).map (.literal c :: ·)

/-- Reads a glob. Two stars that are no component of their own, three stars and a set without an
end are refused. -/
def ofText? (t : Text) : Option Glob := read? t.length none t

/-! ### Matching -/

/-- Whether the character is in one of the ranges. -/
def isAmong (rs : List (Char × Char)) (c : Char) : Bool := rs.any fun r => r.1 ≤ c && c ≤ r.2

/-- The ends of a text: itself without nothing, without its first character, and so on. -/
def tails : Text → List Text
  | [] => [[]]
  | c :: cs => (c :: cs) :: tails cs

/-- What follows each separator of a text. -/
def afterSeparators : Text → List Text
  | [] => []
  | c :: cs => if c = separator then cs :: afterSeparators cs else afterSeparators cs

/-- Whether the one character passes. -/
def Part.acceptsChar : Part → Char → Bool
  | literal l, c => l == c
  | anyOne, _ => true
  | among rs, c => isAmong rs c
  | outside rs, c => !isAmong rs c
  | anyMany, _ => false
  | anyDepth, _ => false

/-- What can be left of a text once the part was matched. -/
def Part.rests : Part → Text → List Text
  | anyMany, t => tails t
  | anyDepth, t => t :: afterSeparators t ++ [[]]
  | p, c :: cs => if p.acceptsChar c then [cs] else []
  | _, [] => []

/-- Whether the glob describes the whole text. The texts left after each part are kept once. -/
def accepts (g : Glob) (t : Text) : Bool :=
  (g.foldl (fun ts p => (ts.flatMap p.rests).eraseDupsBy fun a b => a.length == b.length) [t]).any
    (·.isEmpty)

end Glob
end Marginalia
