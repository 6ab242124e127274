/-
# Seams by offsets

The seam of two texts can be made by offsets alone: the newlines that meet there are
counted as differences of byte lengths, up to two of them are kept from the first text,
the rest of the two are written anew, and the newlines of the second text are cut off
(`Block.joinSeamAt?`). No difference falls below zero and every cut is possible, so that
this always gives the seam; it takes newlines only from where the texts meet, leaves two
of them there at most, and does not show once the blank runs of the whole are folded
(`Block.joinSeam_folds_in_place`).

Key definition: `Block.joinSeamAt?`.
Key theorems: `Block.joinSeamAt?_eq_some`, `Block.joinSeam_folds_in_place`.
-/
import Marginalia.Proofs.Text.Folding
import Marginalia.Proofs.Text.Offset

namespace Marginalia
namespace Block

open Text

/-- Two texts put together by offsets, with at most two newlines where they meet. There is no result
if a difference falls below zero or a cut is not possible. -/
def joinSeamAt? (before after : Text) : Option Text := do
  let trailing ← minus? (byteLength before) (byteLength (dropEndNewlines before))
  let leading ← minus? (byteLength after) (byteLength (dropNewlines after))
  if trailing + leading ≤ 2 then
    return before ++ after
  let keptBefore := min trailing 2
  let keptAfter ← minus? 2 keptBefore
  let solid ← minus? (byteLength before) trailing
  let (head, _) ← cutAt? (solid + keptBefore) before
  let (_, tail) ← cutAt? leading after
  return head ++ List.replicate keptAfter '\n' ++ tail

variable (before after : Text)

/-- Where newlines are cut, two are left. -/
theorem joinSeam_eq_of_lt (h : 2 < trailingNewlines before + leadingNewlines after) :
    joinSeam before after = dropEndNewlines before ++ List.replicate 2 '\n' ++ dropNewlines after :=
  if_neg (Nat.not_le.2 h)

theorem joinSeam_eq_of_le (h : trailingNewlines before + leadingNewlines after ≤ 2) :
    joinSeam before after = before ++ after :=
  if_pos h

/-- Every difference and every cut is possible, and the seam comes of it. -/
theorem joinSeamAt?_eq_some : joinSeamAt? before after = some (joinSeam before after) := by
  have hbefore := dropEndNewlines_append_newlines before
  have hafter := newlines_append_dropNewlines after
  -- The texts and their newlines are named, so that the lengths can be counted.
  generalize hhead : dropEndNewlines before = head at hbefore
  generalize htail : dropNewlines after = tail at hafter
  generalize htrailing : trailingNewlines before = trailing at hbefore
  generalize hleading : leadingNewlines after = leading at hafter
  have hlength : byteLength before = byteLength head + trailing := by
    rw [← hbefore, byteLength_append, byteLength_newlines]
  have htrail : minus? (byteLength before) (byteLength head) = some trailing := by
    rw [hlength, Nat.add_comm, minus?_add_left]
  have hlead : minus? (byteLength after) (byteLength tail) = some leading := by
    rw [← hafter, byteLength_append, byteLength_newlines, minus?_add_left]
  have hsolid : minus? (byteLength before) trailing = some (byteLength head) := by
    rw [hlength, minus?_add_left]
  simp only [joinSeamAt?, hhead, htail, htrail, hlead, Option.bind_eq_bind, Option.bind_some]
  by_cases h : trailing + leading ≤ 2
  · rw [if_pos h, joinSeam_eq_of_le before after (by omega)]
    rfl
  · have hkept : minus? 2 (min trailing 2) = some (2 - min trailing 2) := if_pos (Nat.min_le_right _ _)
    have hcut : cutAt? (byteLength head + min trailing 2) before =
        some (head ++ List.replicate (min trailing 2) '\n', List.replicate (trailing - min trailing 2) '\n') := by
      rw [cutAt?_eq_some_iff, byteLength_append, byteLength_newlines, List.append_assoc,
        List.replicate_append_replicate, Nat.add_sub_cancel' (Nat.min_le_left _ _)]
      exact ⟨hbefore, rfl⟩
    have hcut' : cutAt? leading after = some (List.replicate leading '\n', tail) := by
      rw [cutAt?_eq_some_iff, byteLength_newlines]
      exact ⟨hafter, rfl⟩
    have htwo : List.replicate 2 '\n' =
        List.replicate (min trailing 2) '\n' ++ List.replicate (2 - min trailing 2) '\n' := by
      rw [List.replicate_append_replicate, Nat.add_sub_cancel' (Nat.min_le_right _ _)]
    rw [if_neg h, hkept, hsolid, joinSeam_eq_of_lt before after (by omega), hhead, htail, htwo]
    simp only [Option.bind_some, hcut, hcut', List.append_assoc]
    rfl

/-- **A seam is folded in place.** Putting two texts together by offsets never fails and gives their seam.
The seam keeps both texts up to the newlines where they meet, of which it leaves two if there are more, and is
what the texts are one after the other exactly if there are no more. Folding the blank runs of the seam and of
the two texts one after the other gives the same. -/
theorem joinSeam_folds_in_place :
    joinSeamAt? before after = some (joinSeam before after) ∧
    (∃ head tail : Text,
      before = head ++ List.replicate (trailingNewlines before) '\n' ∧ head.getLast? ≠ some '\n' ∧
      after = List.replicate (leadingNewlines after) '\n' ++ tail ∧ tail.head? ≠ some '\n' ∧
      joinSeam before after =
        head ++ List.replicate (min (trailingNewlines before + leadingNewlines after) 2) '\n' ++ tail) ∧
    (joinSeam before after = before ++ after ↔ trailingNewlines before + leadingNewlines after ≤ 2) ∧
    foldBlankRuns (joinSeam before after) = foldBlankRuns (before ++ after) := by
  have hbefore := dropEndNewlines_append_newlines before
  have hafter := newlines_append_dropNewlines after
  have hwhole := append_eq_dropNewlines before after
  have hseam : joinSeam before after = dropEndNewlines before ++
      List.replicate (min (trailingNewlines before + leadingNewlines after) 2) '\n' ++ dropNewlines after := by
    by_cases h : trailingNewlines before + leadingNewlines after ≤ 2
    · rw [joinSeam_eq_of_le before after h, hwhole, Nat.min_eq_left h]
    · rw [joinSeam_eq_of_lt before after (by omega), Nat.min_eq_right (by omega)]
  refine ⟨joinSeamAt?_eq_some before after, ⟨dropEndNewlines before, dropNewlines after, hbefore.symm,
    getLast?_dropEndNewlines before, hafter.symm, head?_dropNewlines after, hseam⟩, ⟨fun h => ?_, ?_⟩,
    alike_joinSeam before after⟩
  · have hlength := congrArg List.length (hseam.symm.trans (h.trans hwhole))
    simp only [List.length_append, List.length_replicate] at hlength
    omega
  · exact joinSeam_eq_of_le before after

/-- Newlines alone on both sides. -/
example : joinSeamAt? ['\n'] ['\n', '\n', '\n'] = some ['\n', '\n'] := by decide

end Block
end Marginalia
