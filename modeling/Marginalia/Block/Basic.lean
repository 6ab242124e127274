/-
# Annotation blocks

A block is a run of comment lines between a begin and an end marker line of
one tag. `Block.render` writes it, `Excerpt.find?` finds it again in the text
of a file.

Key definitions: `Block`, `Block.ofText`, `Block.render`, `Excerpt`, `Excerpt.find?`.
Key theorems: `Excerpt.whole_find?`, `Excerpt.text_ne_nil`.
-/
import Marginalia.Block.Tag
import Marginalia.Text.Blank

namespace Marginalia

/-- A generated annotation: a tag and the payload lines, without comment signs. -/
structure Block where
  /-- The kind of annotation. -/
  tag : Tag
  /-- The payload, one entry a line. -/
  lines : List Text
deriving DecidableEq, Repr

namespace Block

/-- The block with the lines of `t` as its payload; a blank text has none. -/
def ofText (tag : Tag) (t : Text) : Block where
  tag := tag
  lines := if t.all Text.isBlank then [] else Text.lines (Text.dropEndNewlines t)

/-- A payload line as a comment. -/
def commentLine (l : Text) : Text :=
  if l = [] then [Tag.commentSign] else Tag.commentSign :: ' ' :: l

/-- The comment lines between their markers, without a final newline; a block
without payload is the empty text. -/
def render (b : Block) : Text :=
  if b.lines = [] then []
  else Text.joinLines (b.tag.beginMarker :: b.lines.map commentLine ++ [b.tag.endMarker])

end Block

/-- A stretch of a text, with what stands before and after it. -/
structure Excerpt where
  /-- What stands before the stretch. -/
  before : Text
  /-- The stretch itself. -/
  text : Text
  /-- What stands after the stretch. -/
  after : Text
deriving DecidableEq, Repr

namespace Excerpt

/-- The byte offset of the stretch. -/
def start (e : Excerpt) : Nat := Text.byteLength e.before

/-- The byte offset just past the stretch. -/
def stop (e : Excerpt) : Nat := e.start + Text.byteLength e.text

/-- The text that the excerpt is taken from. -/
def whole (e : Excerpt) : Text := e.before ++ e.text ++ e.after

/-- The first block of the tag: from the first begin marker to the first end
marker after it. Indentation in front of the begin marker belongs to the
block when nothing else precedes the marker on its line. A begin marker that
no end marker follows is no block. -/
def find? (tag : Tag) (t : Text) : Option Excerpt :=
  match Text.splitFirst? tag.beginMarker t with
  | none => none
  | some (lead, rest) =>
    match Text.splitFirst? tag.endMarker rest with
    | none => none
    | some (inner, after) =>
      some {
        before := (Text.splitIndent lead).1
        text := (Text.splitIndent lead).2 ++ tag.beginMarker ++ inner ++ tag.endMarker
        after := after }

/-- The three parts of a found block make up the text again. -/
theorem whole_find? {tag : Tag} {t : Text} {e : Excerpt} (h : find? tag t = some e) :
    e.whole = t := by
  unfold find? at h
  split at h
  · cases h
  · next lead rest h₁ =>
    split at h
    · cases h
    · next inner after h₂ =>
      cases h
      have e₁ := Text.splitFirst?_eq _ h₁
      have e₂ := Text.splitFirst?_eq _ h₂
      have e₃ := Text.splitIndent_append lead
      simp only [whole]
      rw [← e₁, ← e₂]
      conv => rhs; rw [← e₃]
      simp only [List.append_assoc]

/-- A found block has at least its begin marker. -/
theorem text_ne_nil {tag : Tag} {t : Text} {e : Excerpt} (h : find? tag t = some e) :
    e.text ≠ [] := by
  unfold find? at h
  split at h
  · cases h
  · split at h
    · cases h
    · cases h; simp [Tag.beginMarker]

end Excerpt

namespace Block

/-- Whether the text holds a block of the tag. -/
def isIn (tag : Tag) (t : Text) : Bool := (Excerpt.find? tag t).isSome

/-- The number of begin markers of the tag, closed or not. -/
def count (tag : Tag) (t : Text) : Nat := Text.occurrences tag.beginMarker t

end Block
end Marginalia
