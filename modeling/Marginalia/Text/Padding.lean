/-
# Padding

A text is filled up with spaces to a width, counted in characters. The width
of a column of texts is the greatest of their lengths in bytes, so that no
text of the column is wider.

Key definitions: `Text.padEnd`, `Text.padStart`, `Text.columnWidth`.
Key theorems: `Text.length_le_byteLength`, `Text.length_padEnd`, `Text.length_le_columnWidth`.
-/
import Marginalia.Text.Basic

namespace Marginalia
namespace Text

/-- The text with spaces after it up to the width. -/
def padEnd (width : Nat) (t : Text) : Text := t ++ List.replicate (width - t.length) ' '

/-- The text with spaces before it up to the width. -/
def padStart (width : Nat) (t : Text) : Text := List.replicate (width - t.length) ' ' ++ t

/-- The width of a column that holds the texts. -/
def columnWidth (ts : List Text) : Nat := (ts.map byteLength).foldl max 0

theorem length_padEnd (width : Nat) (t : Text) : (padEnd width t).length = max width t.length := by
  simp only [padEnd, List.length_append, List.length_replicate]
  omega

theorem length_padStart (width : Nat) (t : Text) :
    (padStart width t).length = max width t.length := by
  simp only [padStart, List.length_append, List.length_replicate]
  omega

/-- A text has at most as many characters as bytes. -/
theorem length_le_byteLength : ∀ t : Text, t.length ≤ byteLength t
  | [] => Nat.le_refl 0
  | c :: cs => by
    have h := length_le_byteLength cs
    have := Char.utf8Size_pos c
    simp only [byteLength, List.foldr_cons, List.length_cons] at h ⊢
    omega

theorem le_foldl_max : ∀ (l : List Nat) (m : Nat), m ≤ l.foldl max m ∧ ∀ n ∈ l, n ≤ l.foldl max m
  | [], m => by simp
  | a :: l, m => by
    obtain ⟨h₁, h₂⟩ := le_foldl_max l (max m a)
    simp only [List.foldl_cons, List.mem_cons, forall_eq_or_imp]
    exact ⟨by omega, by omega, h₂⟩

/-- No text of a column is longer than the column is wide. -/
theorem length_le_columnWidth {ts : List Text} {t : Text} (h : t ∈ ts) :
    t.length ≤ columnWidth ts :=
  Nat.le_trans (length_le_byteLength t)
    ((le_foldl_max _ 0).2 _ (List.mem_map.2 ⟨t, h, rfl⟩))

end Text
end Marginalia
