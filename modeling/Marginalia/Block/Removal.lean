/-
# Removing blocks

`Block.removeAll` takes out every block of a tag. Each block takes its own
line end along and, where it stood at the top or between blank lines, one
separator; the two sides are then joined so that no more than two newlines
meet (`joinSeam`). Once a block was taken out, every run of blank lines of
the text is cut to one.

Key definitions: `Block.joinSeam`, `Block.excise`, `Block.removeAll`.
Key theorems: `Block.length_excise_lt`, `Block.removeAll_of_not_isIn`.
-/
import Marginalia.Block.Basic

namespace Marginalia
namespace Block

/-- Two texts put together with at most two newlines where they meet. -/
def joinSeam (before after : Text) : Text :=
  if Text.trailingNewlines before + Text.leadingNewlines after ≤ 2 then before ++ after
  else
    Text.dropEndNewlines before ++ List.replicate 2 '\n' ++ Text.dropNewlines after

/-- What follows a block, without the block's line end and, if `before` is empty or
ends with a blank line, without the separator below the block. -/
def dropSeparator (before after : Text) : Text :=
  match after with
  | '\n' :: rest =>
    if before = [] ∨ (Text.after? ['\n', '\n'] before.reverse).isSome then
      match rest with
      | '\n' :: rest' => rest'
      | _ => rest
    else rest
  | _ => after

/-- The text around an excerpt once the excerpt is taken out. -/
def excise (e : Excerpt) : Text := joinSeam e.before (dropSeparator e.before e.after)

theorem length_dropEndWhile_add (p : α → Bool) (l : List α) :
    (Text.dropEndWhile p l).length + (Text.takeEndWhile p l).length = l.length := by
  rw [← List.length_append, Text.dropEndWhile_append_takeEndWhile]

theorem length_joinSeam_le (before after : Text) :
    (joinSeam before after).length ≤ before.length + after.length := by
  unfold joinSeam
  split
  · simp
  · next h =>
    have h₁ := length_dropEndWhile_add Text.isNewline before
    have h₂ : (Text.dropNewlines after).length + Text.leadingNewlines after = after.length := by
      have := congrArg List.length (List.takeWhile_append_dropWhile (p := Text.isNewline) (l := after))
      simp only [List.length_append] at this
      simp only [Text.dropNewlines, Text.leadingNewlines]
      omega
    simp only [Text.trailingNewlines] at h
    simp only [List.length_append, List.length_replicate, Text.dropEndNewlines]
    omega

theorem length_dropSeparator_le (before after : Text) :
    (dropSeparator before after).length ≤ after.length := by
  unfold dropSeparator
  split
  · split
    · split
      · simp only [List.length_cons]; omega
      · simp
    · simp
  · simp

/-- Taking a block out makes the text shorter. -/
theorem length_excise_lt {tag : Tag} {t : Text} {e : Excerpt} (h : Excerpt.find? tag t = some e) :
    (excise e).length < t.length := by
  have h₁ := length_joinSeam_le e.before (dropSeparator e.before e.after)
  have h₂ := length_dropSeparator_le e.before e.after
  have h₃ : 0 < e.text.length := List.length_pos_iff.2 (Excerpt.text_ne_nil h)
  have h₄ := congrArg List.length (Excerpt.whole_find? h)
  simp only [Excerpt.whole, List.length_append] at h₄
  unfold excise
  omega

/-- Takes out one block of the tag after the other. -/
def exciseAll (tag : Tag) (t : Text) : Text :=
  match _h : Excerpt.find? tag t with
  | none => t
  | some e => exciseAll tag (excise e)
termination_by t.length
decreasing_by exact length_excise_lt _h

/-- The text without the blocks of the tag, its runs of blank lines cut to one. A text
without such a block is left as it is. -/
def removeAll (tag : Tag) (t : Text) : Text :=
  if isIn tag t then Text.foldBlankRuns (exciseAll tag t) else t

theorem removeAll_of_not_isIn {tag : Tag} {t : Text} (h : isIn tag t = false) :
    removeAll tag t = t := by
  simp [removeAll, h]

end Block
end Marginalia
