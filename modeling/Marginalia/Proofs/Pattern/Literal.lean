/-
# Literal patterns

A literal pattern asks for one word. Its marks are followed character by
character: from a marked place it leads to the place behind the word if the
word starts there (`Pattern.after_literal`), so it matches exactly the texts in
which the word stands (`Pattern.isIn_literal_iff`).

Key definition: `Pattern.literal`.
Key theorems: `Pattern.after_literal`, `Pattern.isIn_literal_iff`.
-/
import Mathlib.Data.List.Infix
import Marginalia.Pattern.Basic

namespace Marginalia

theorem Spot.length_all (t : Text) : (Spot.all t).length = t.length + 1 := by simp [Spot.all]

/-- What stands after a place of the text. -/
theorem Spot.exists_getElem?_all {t : Text} {i : Nat} (h : i ≤ t.length) :
    ∃ s, (Spot.all t)[i]? = some s ∧ s.after = t[i]? := by
  have hl : i < (none :: t.map some).length := by
    rw [List.length_cons, List.length_map]
    omega
  obtain ⟨b, hb, he⟩ : ∃ b, (t.map some ++ [none])[i]? = some b ∧ b = t[i]? := by
    rcases Nat.lt_or_eq_of_le h with hi | rfl
    · exact ⟨some t[i], by simp [List.getElem?_append_left, hi], by simp [hi]⟩
    · exact ⟨none, by simp, by simp⟩
  exact ⟨⟨_, b⟩, by rw [Spot.all, List.getElem?_zipWith, List.getElem?_eq_getElem hl, hb], he⟩

namespace Pattern

/-- The pattern that matches one word. -/
def literal : Text → Pattern
  | [] => empty
  | c :: w => cat (char (.single c)) (literal w)

theorem contains_single_iff {c d : Char} : (CharSet.single c).contains d ↔ d = c := by
  simp only [CharSet.single, CharSet.contains, Bool.and_eq_true, decide_eq_true_eq]
  exact ⟨fun h => Char.le_antisymm h.2 h.1, fun h => h ▸ ⟨Char.le_refl d, Char.le_refl d⟩⟩

/-- One character leads from a marked place in front of it to the place behind it. -/
theorem after_single {t : Text} {m : Marks} (hm : m.length = t.length + 1) (c : Char) (j : Nat) :
    (after (Spot.all t) (char (.single c)) m)[j]? = some true ↔
      ∃ i, j = i + 1 ∧ m[i]? = some true ∧ t[i]? = some c := by
  rw [after, List.getElem?_dropLast]
  cases j with
  | zero => simp
  | succ i =>
    simp only [List.length_cons, List.length_zipWith, hm, Spot.length_all, Nat.min_self,
      Nat.add_one_sub_one, Nat.add_lt_add_iff_right, List.getElem?_cons_succ]
    by_cases hi : i < t.length
    · obtain ⟨s, hs, ha⟩ := Spot.exists_getElem?_all (Nat.le_of_lt hi)
      have hmi : i < m.length := by omega
      rw [if_pos hi, List.getElem?_zipWith, hs, List.getElem?_eq_getElem hmi]
      simp only [Option.some.injEq, Bool.and_eq_true, ha, List.getElem?_eq_getElem hi, Option.any_some,
        contains_single_iff, Nat.add_right_cancel_iff]
      constructor
      · rintro ⟨h₁, h₂⟩
        exact ⟨i, rfl, by rw [List.getElem?_eq_getElem hmi, h₁], by rw [List.getElem?_eq_getElem hi, h₂]⟩
      · rintro ⟨_, rfl, h₁, h₂⟩
        rw [List.getElem?_eq_getElem hmi] at h₁
        rw [List.getElem?_eq_getElem hi] at h₂
        exact ⟨Option.some.inj h₁, Option.some.inj h₂⟩
    · rw [if_neg hi]
      simp only [reduceCtorEq, false_iff, not_exists, not_and, Nat.add_right_cancel_iff]
      rintro _ rfl - h
      exact hi (List.getElem?_eq_some_iff.1 h).1

/-- A literal leads from a marked place to the one behind its word, where that stands. -/
theorem after_literal {t : Text} : ∀ {w : Text} {m : Marks}, m.length = t.length + 1 → ∀ j : Nat,
    (after (Spot.all t) (literal w) m)[j]? = some true ↔
      ∃ i, j = i + w.length ∧ m[i]? = some true ∧ w <+: t.drop i
  | [], _, _, j => by simp [literal, after]
  | c :: w, m, hm, j => by
    have hl : (after (Spot.all t) (char (.single c)) m).length = t.length + 1 := by
      rw [length_after _ _ _ (by rw [hm, Spot.length_all]), Spot.length_all]
    rw [literal, after, after_literal hl]
    simp only [after_single hm]
    constructor
    · rintro ⟨_, rfl, ⟨i, rfl, h₁, h₂⟩, h⟩
      refine ⟨i, by rw [List.length_cons]; omega, h₁, ?_⟩
      obtain ⟨hi, rfl⟩ := List.getElem?_eq_some_iff.1 h₂
      rw [List.drop_eq_getElem_cons hi, List.cons_prefix_cons]
      exact ⟨rfl, h⟩
    · rintro ⟨i, rfl, h₁, h⟩
      have hi : i < t.length := by
        have := h.length_le
        rw [List.length_cons, List.length_drop] at this
        omega
      rw [List.drop_eq_getElem_cons hi, List.cons_prefix_cons] at h
      exact ⟨i + 1, by rw [List.length_cons]; omega, ⟨i, rfl, h₁, by
        rw [List.getElem?_eq_getElem hi, h.1]⟩, h.2⟩

/-- A literal pattern matches the texts in which its word stands. -/
theorem isIn_literal_iff {w t : Text} : (literal w).isIn t ↔ w <:+: t := by
  have hm : ((Spot.all t).map fun _ => true).length = t.length + 1 := by
    rw [List.length_map, Spot.length_all]
  have ha := fun j => after_literal (w := w) hm j
  simp only [isIn, List.any_eq_true, id_eq, exists_eq_right, List.mem_iff_getElem?, ha]
  constructor
  · rintro ⟨_, i, -, -, h⟩
    exact h.isInfix.trans (List.drop_suffix i t).isInfix
  · rintro ⟨a, b, rfl⟩
    refine ⟨_, a.length, rfl, ?_, ?_⟩
    · rw [List.getElem?_map, List.getElem?_eq_getElem (by simp only [Spot.length_all, List.length_append]; omega)]
      rfl
    · rw [List.append_assoc, List.drop_left]
      exact List.prefix_append w b

end Pattern
end Marginalia
