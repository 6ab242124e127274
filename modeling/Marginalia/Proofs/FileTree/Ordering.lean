/-
# The order of paths

Paths are ordered by their keys, component by component. Two paths say the same
exactly if they have one key (`Path.same_iff`), so of two paths that do not say the
same one comes before the other. Sorting keeps one of the paths that say the
same, and each path that is kept comes before the next (`Path.pairwise_sorted`,
`Path.mem_of_mem_sorted`, `Path.exists_mem_sorted`).

Key definitions: `Path.before`.
Key theorems: `Path.same_iff`, `Path.before_iff`, `Path.pairwise_sorted`.
-/
import Mathlib.Data.List.Lex
import Marginalia.FileTree.Path

namespace Marginalia
namespace Path

variable {p q : Path} {ps : List Path}

/-- Whether a path comes before another one in order. -/
def before (p q : Path) : Bool := p.below q && !p.same q

/-! ### Paths by their keys -/

theorem below_iff : p.below q ↔ p.key ≤ q.key := by
  have hnat : Nat.blt = fun m n => decide (m < n) := by
    funext m n
    rw [Bool.eq_iff_iff, Nat.blt_eq, decide_eq_true_eq]
  have hname (m n : List Nat) : m.lex n Nat.blt = decide (m < n) := by
    rw [hnat, Bool.eq_iff_iff, List.lex_eq_true_iff_lt, decide_eq_true_eq]
  have hkey : (q.key.lex p.key fun m n => m.lex n Nat.blt) = decide (q.key < p.key) := by
    simp only [hname]
    rw [Bool.eq_iff_iff, List.lex_eq_true_iff_lt, decide_eq_true_eq]
  rw [below, hkey, Bool.not_eq_true', decide_eq_false_iff_not, not_lt]

theorem Component.key_inj : ∀ {c d : Component}, c.key = d.key → c = d
  | .root, .root, _ => rfl
  | .here, .here, _ => rfl
  | .up, .up, _ => rfl
  | .name m, .name n, h => by
    rw [key, key, List.cons.injEq, List.map_inj_right fun _ _ => Char.toNat_inj.1] at h
    rw [h.2]

/-- Paths say the same if they have one place in order. -/
theorem same_iff : p.same q ↔ p.key = q.key := by
  rw [same, beq_iff_eq, key, key, List.map_inj_right fun _ _ => Component.key_inj]

theorem before_iff : p.before q ↔ p.key < q.key := by
  rw [before, Bool.and_eq_true, Bool.not_eq_true', ← Bool.not_eq_true, below_iff, same_iff]
  constructor
  · rintro ⟨hle, hne⟩
    exact lt_of_le_of_ne hle hne
  · intro h
    refine ⟨le_of_lt h, fun he => ?_⟩
    rw [he] at h
    exact lt_irrefl _ h

theorem not_before_self : ¬ p.before p := by
  rw [before_iff]
  exact lt_irrefl _

theorem before_trans {r : Path} (hpq : p.before q) (hqr : q.before r) : p.before r := by
  rw [before_iff] at hpq hqr ⊢
  exact lt_trans hpq hqr

/-! ### Sorting -/

theorem pairwise_mergeSort (ps : List Path) : (ps.mergeSort below).Pairwise fun p q => p.key ≤ q.key := by
  have hsorted : (ps.mergeSort below).Pairwise fun p q => p.below q := by
    apply List.pairwise_mergeSort
    · intro p q r hpq hqr
      rw [below_iff] at hpq hqr ⊢
      exact le_trans hpq hqr
    · intro p q
      rw [Bool.or_eq_true, below_iff, below_iff]
      exact le_total _ _
  exact hsorted.imp below_iff.1

/-- Of paths that say the same, which are neighbours in a sorted list, the first is kept. -/
theorem mem_of_mem_go : ∀ {ps : List Path}, p ∈ sorted.go ps → p ∈ ps
  | [], h => by cases h
  | q :: qs, h => by
    rw [sorted.go] at h
    split at h
    · exact List.mem_cons.2 (.inl (List.mem_singleton.1 h))
    · next r rs hr =>
      have hrest : p ∈ r :: rs → p ∈ qs := fun hp => mem_of_mem_go (hr ▸ hp)
      have hp : p = q ∨ p ∈ r :: rs := by
        split at h
        · exact (List.mem_cons.1 h).imp_right (List.mem_cons_of_mem _)
        · exact List.mem_cons.1 h
      exact List.mem_cons.2 (hp.imp_right hrest)

theorem exists_mem_go : ∀ {ps : List Path}, p ∈ ps → ∃ q ∈ sorted.go ps, p.same q
  | q :: qs, h => by
    have hrefl (p : Path) : p.same p := beq_self_eq_true _
    rw [sorted.go]
    rcases List.mem_cons.1 h with rfl | h
    · split
      · exact ⟨p, List.mem_singleton_self p, hrefl p⟩
      · split
        · exact ⟨p, List.mem_cons_self, hrefl p⟩
        · exact ⟨p, List.mem_cons_self, hrefl p⟩
    · obtain ⟨x, hx, hsame⟩ := exists_mem_go h
      split
      · next hnil => rw [hnil] at hx; cases hx
      · next r rs hr =>
        rw [hr] at hx
        split
        · next hqr =>
          rcases List.mem_cons.1 hx with rfl | hx
          · refine ⟨q, List.mem_cons_self, ?_⟩
            rw [same_iff] at hsame hqr ⊢
            exact hsame.trans hqr.symm
          · exact ⟨x, List.mem_cons_of_mem _ hx, hsame⟩
        · exact ⟨x, List.mem_cons_of_mem _ hx, hsame⟩

theorem pairwise_go : ∀ {ps : List Path}, (ps.Pairwise fun p q => p.key ≤ q.key) →
    (sorted.go ps).Pairwise fun p q => p.key < q.key
  | [], _ => .nil
  | p :: ps, h => by
    obtain ⟨hp, hps⟩ := List.pairwise_cons.1 h
    have ih := pairwise_go hps
    have hle : ∀ x ∈ sorted.go ps, p.key ≤ x.key := fun x hx => hp x (mem_of_mem_go hx)
    rw [sorted.go]
    split
    · exact List.pairwise_singleton _ _
    · next q qs hq =>
      rw [hq, List.pairwise_cons] at ih
      rw [hq, List.forall_mem_cons] at hle
      split
      · next hsame =>
        rw [same_iff] at hsame
        exact List.pairwise_cons.2 ⟨fun x hx => hsame ▸ ih.1 x hx, ih.2⟩
      · next hdiffer =>
        have hlt : p.key < q.key := lt_of_le_of_ne hle.1 fun he => hdiffer (same_iff.2 he)
        refine List.pairwise_cons.2 ⟨?_, List.pairwise_cons.2 ih⟩
        intro x hx
        rcases List.mem_cons.1 hx with rfl | hx
        · exact hlt
        · exact lt_trans hlt (ih.1 x hx)

/-- **Sorted paths.** Each path comes before the next. -/
theorem pairwise_sorted (ps : List Path) : (sorted ps).Pairwise fun p q => p.before q :=
  (pairwise_go (pairwise_mergeSort ps)).imp before_iff.2

/-- No path is made up. -/
theorem mem_of_mem_sorted (h : p ∈ sorted ps) : p ∈ ps := List.mem_mergeSort.1 (mem_of_mem_go h)

/-- None is lost, except that one of those that say the same stands for all. -/
theorem exists_mem_sorted (h : p ∈ ps) : ∃ q ∈ sorted ps, p.same q := exists_mem_go (List.mem_mergeSort.2 h)

end Path
end Marginalia
