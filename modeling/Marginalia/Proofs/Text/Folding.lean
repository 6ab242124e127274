/-
# Folding blank runs

Two texts are alike if they differ by folded blank runs alone. Folding reads a
text from left to right and needs to know no more of what was before than the
number of newlines kept last, `endRun`; so it may be done in parts, in any
order and more than once (`foldBlankRuns_append`, `Alike.append`). It keeps the
solid lines.

Key definitions: `Text.endRun`, `Text.Alike`.
Key theorems: `Text.go_go`, `Text.Alike.append`, `Text.alike_joinSeam`,
`Text.solidLines_foldBlankRuns`.
-/
import Marginalia.Block.Removal
import Marginalia.Proofs.Text.Lines

namespace Marginalia
namespace Text

open foldBlankRuns (go)

/-- The number of newlines kept last, two at most, once a text was folded before which `run` were
kept. -/
def endRun (run : Nat) : Text → Nat
  | [] => run
  | c :: cs => if c = '\n' then (if 2 ≤ run then endRun run cs else endRun (run + 1) cs) else endRun 0 cs

theorem go_append : ∀ (run : Nat) (a b : Text), go run (a ++ b) = go run a ++ go (endRun run a) b
  | _, [], _ => rfl
  | run, c :: a, b => by
    simp only [List.cons_append, go, endRun]
    split
    · split
      · exact go_append run a b
      · rw [go_append (run + 1) a b, List.cons_append]
    · rw [go_append 0 a b, List.cons_append]

theorem go_sublist : ∀ (run : Nat) (t : Text), (go run t).Sublist t
  | _, [] => .slnil
  | run, c :: t => by
    rw [go]
    split
    · split
      · exact .cons c (go_sublist run t)
      · exact .cons_cons c (go_sublist (run + 1) t)
    · exact .cons_cons c (go_sublist 0 t)

/-- Folding drops characters and adds none. -/
theorem foldBlankRuns_sublist (t : Text) : (foldBlankRuns t).Sublist t := go_sublist 0 t

/-- Folding with more newlines before, after folding with less, is folding once. -/
theorem go_go : ∀ (t : Text) {j k : Nat}, j ≤ k → go k (go j t) = go k t
  | [], _, _, _ => rfl
  | c :: t, j, k, h => by
    by_cases hc : c = '\n'
    · simp only [go, hc, if_true]
      by_cases hj : 2 ≤ j
      · rw [if_pos hj, if_pos (by omega : 2 ≤ k), go_go t h]
      · rw [if_neg hj]
        by_cases hk : 2 ≤ k
        · simp only [go, if_true, if_pos hk, go_go t (by omega : j + 1 ≤ k)]
        · simp only [go, if_true, if_neg hk, go_go t (by omega : j + 1 ≤ k + 1)]
    · simp only [go, if_neg hc, go_go t (Nat.le_refl 0)]

theorem endRun_go : ∀ (t : Text) {j k : Nat}, j ≤ k → endRun k (go j t) = endRun k t
  | [], _, _, _ => rfl
  | c :: t, j, k, h => by
    by_cases hc : c = '\n'
    · simp only [go, endRun, hc, if_true]
      by_cases hj : 2 ≤ j
      · rw [if_pos hj, if_pos (by omega : 2 ≤ k), endRun_go t h]
      · rw [if_neg hj]
        by_cases hk : 2 ≤ k
        · simp only [endRun, if_true, if_pos hk, endRun_go t (by omega : j + 1 ≤ k)]
        · simp only [endRun, if_true, if_neg hk, endRun_go t (by omega : j + 1 ≤ k + 1)]
    · simp only [go, endRun, if_neg hc, endRun_go t (Nat.le_refl 0)]

theorem foldBlankRuns_foldBlankRuns (t : Text) : foldBlankRuns (foldBlankRuns t) = foldBlankRuns t :=
  go_go t (Nat.le_refl 0)

theorem foldBlankRuns_append (a b : Text) : foldBlankRuns (a ++ b) = foldBlankRuns a ++ go (endRun 0 a) b :=
  go_append 0 a b

/-! ### Texts that differ by folded blank runs -/

/-- The two texts are the same once their blank runs are folded. -/
def Alike (a b : Text) : Prop := foldBlankRuns a = foldBlankRuns b

theorem Alike.refl (a : Text) : Alike a a := rfl

theorem Alike.symm {a b : Text} (h : Alike a b) : Alike b a := Eq.symm h

theorem Alike.trans {a b c : Text} (h : Alike a b) (h' : Alike b c) : Alike a c := Eq.trans h h'

theorem alike_foldBlankRuns (a : Text) : Alike (foldBlankRuns a) a := foldBlankRuns_foldBlankRuns a

theorem Alike.endRun_eq {a b : Text} (h : Alike a b) : endRun 0 a = endRun 0 b := by
  rw [← endRun_go a (Nat.le_refl 0), ← endRun_go b (Nat.le_refl 0)]
  exact congrArg (endRun 0) h

theorem Alike.go_eq {a b : Text} (h : Alike a b) (run : Nat) : go run a = go run b := by
  rw [← go_go a (Nat.zero_le run), ← go_go b (Nat.zero_le run)]
  exact congrArg (go run) h

/-- What is put together from like texts is alike. -/
theorem Alike.append {a a' b b' : Text} (ha : Alike a a') (hb : Alike b b') :
    Alike (a ++ b) (a' ++ b') := by
  unfold Alike
  rw [foldBlankRuns_append, foldBlankRuns_append, ha.endRun_eq, hb.go_eq]
  exact congrArg (· ++ _) ha

theorem alike_newlines : ∀ n : Nat, 2 ≤ n → Alike (List.replicate n '\n') ['\n', '\n']
  | 2, _ => rfl
  | n + 3, _ => by
    have ih := alike_newlines (n + 2) (by omega)
    exact ((Alike.refl ['\n']).append ih).trans rfl

theorem eq_replicate_of_newlines {t : Text} (h : ∀ c ∈ t, c = '\n') : t = List.replicate t.length '\n' :=
  List.eq_replicate_iff.2 ⟨rfl, h⟩

theorem terminated_of_newlines {t : Text} (h : ∀ c ∈ t, c = '\n') : Terminated t := by
  rw [eq_replicate_of_newlines h]
  cases t.length with
  | zero => exact terminated_nil
  | succ n =>
    rw [List.replicate_succ']
    exact terminated_append_newline _

theorem newlines_takeWhile (t : Text) : ∀ c ∈ t.takeWhile isNewline, c = '\n' := by
  intro c hc
  simpa [isNewline] using List.mem_takeWhile_imp hc

theorem dropEndNewlines_append_newlines (t : Text) :
    dropEndNewlines t ++ List.replicate (trailingNewlines t) '\n' = t := by
  rw [dropEndNewlines, trailingNewlines, ← eq_replicate_of_newlines (newlines_takeEndWhile t),
    dropEndWhile_append_takeEndWhile]

theorem newlines_append_dropNewlines (t : Text) :
    List.replicate (leadingNewlines t) '\n' ++ dropNewlines t = t := by
  rw [dropNewlines, leadingNewlines, ← eq_replicate_of_newlines (newlines_takeWhile t),
    List.takeWhile_append_dropWhile]

theorem getLast?_dropEndNewlines (t : Text) : (dropEndNewlines t).getLast? ≠ some '\n' := by
  rw [dropEndNewlines, dropEndWhile, List.getLast?_reverse]
  exact head?_dropNewlines t.reverse

/-- Two texts one after the other, by what they are without the newlines where they meet. -/
theorem append_eq_dropNewlines (a b : Text) :
    a ++ b = dropEndNewlines a ++ List.replicate (trailingNewlines a + leadingNewlines b) '\n' ++ dropNewlines b := by
  conv_lhs => rw [← dropEndNewlines_append_newlines a, ← newlines_append_dropNewlines b]
  rw [← List.replicate_append_replicate]
  simp only [List.append_assoc]

/-- A seam is a place where a blank run may have been folded. -/
theorem alike_joinSeam (a b : Text) : Alike (Block.joinSeam a b) (a ++ b) := by
  unfold Block.joinSeam
  split
  · exact Alike.refl _
  · next h =>
    rw [append_eq_dropNewlines a b]
    exact ((Alike.refl _).append (alike_newlines _ (by omega)).symm).append (.refl _)

/-! ### Lines of folded texts -/

/-- Below two newlines a third one goes. -/
theorem go_newline_of_le {run : Nat} (h : 2 ≤ run) (t : Text) : go run ('\n' :: t) = go run t := by
  rw [go, if_pos rfl, if_pos h]

theorem go_of_not_mem {r : Text} (h : '\n' ∉ r) (run : Nat) : go run r = r := by
  induction r generalizing run with
  | nil => rfl
  | cons c r ih =>
    simp only [List.mem_cons, not_or] at h
    rw [go, if_neg (Ne.symm h.1), ih h.2]

theorem go_zero_line {r : Text} (h : '\n' ∉ r) (t : Text) : go 0 (r ++ '\n' :: t) = r ++ '\n' :: go 1 t := by
  induction r with
  | nil => rfl
  | cons c r ih =>
    simp only [List.mem_cons, not_or] at h
    rw [List.cons_append, go, if_neg (Ne.symm h.1), ih h.2, List.cons_append]

/-- A line that is not empty is kept, with its newline. -/
theorem go_line {r : Text} (h : '\n' ∉ r) (hr : r ≠ []) (run : Nat) (t : Text) :
    go run (r ++ '\n' :: t) = r ++ '\n' :: go 1 t := by
  obtain ⟨c, r, rfl⟩ := List.exists_cons_of_ne_nil hr
  simp only [List.mem_cons, not_or] at h
  rw [List.cons_append, go, if_neg (Ne.symm h.1), go_zero_line h.2, List.cons_append]

/-- What was kept before a text does not matter if the text does not start with a newline. -/
theorem go_of_head? {t : Text} (h : t.head? ≠ some '\n') (run : Nat) : go run t = go 0 t := by
  cases t with
  | nil => rfl
  | cons c t =>
    have hc : c ≠ '\n' := by simpa using h
    rw [go, go, if_neg hc, if_neg hc]

theorem head?_foldBlankRuns : ∀ t : Text, (foldBlankRuns t).head? = t.head?
  | [] => rfl
  | c :: t => by
    rw [foldBlankRuns, go]
    split
    · next hc => rw [if_neg (by omega), hc, List.head?_cons, List.head?_cons]
    · rw [List.head?_cons, List.head?_cons]

theorem head?_go {t : Text} (h : t.head? ≠ some '\n') (run : Nat) : (go run t).head? = t.head? := by
  cases t with
  | nil => rfl
  | cons c t =>
    have hc : c ≠ '\n' := by simpa using h
    rw [go, if_neg hc, List.head?_cons, List.head?_cons]

/-- To drop the newlines at the top of a folded text is to fold as below two newlines. -/
theorem dropNewlines_go : ∀ (t : Text) {run : Nat}, run ≤ 2 → dropNewlines (go run t) = go 2 t
  | [], _, _ => rfl
  | c :: t, run, h => by
    by_cases hc : c = '\n'
    · subst hc
      rw [go, if_pos rfl, go, if_pos rfl, if_pos (Nat.le_refl 2)]
      split
      · exact dropNewlines_go t h
      · exact dropNewlines_go t (by omega : run + 1 ≤ 2)
    · rw [go, if_neg hc, go, if_neg hc]
      exact dropNewlines_of_head? (by simpa using hc)

/-- What has no newline is kept, and what is below it is folded anew. -/
theorem go_append_of_not_mem {r : Text} (h : '\n' ∉ r) (hr : r ≠ []) (run : Nat) (t : Text) :
    go run (r ++ t) = r ++ go 0 t := by
  induction r generalizing run with
  | nil => exact absurd rfl hr
  | cons c r ih =>
    simp only [List.mem_cons, not_or] at h
    rw [List.cons_append, go, if_neg (Ne.symm h.1)]
    cases r with
    | nil => rfl
    | cons d r => rw [ih h.2 (List.cons_ne_nil d r), ← List.cons_append]

/-- Folding leaves whole lines. -/
theorem Terminated.go {t : Text} (h : Terminated t) (run : Nat) : Terminated (foldBlankRuns.go run t) := by
  induction t using lineRec generalizing run with
  | nil => exact terminated_nil
  | last r hr h0 => exact absurd h (not_terminated hr h0)
  | line r t hr ih =>
    rw [terminated_line_iff] at h
    by_cases h0 : r = []
    · subst h0
      rw [List.nil_append, foldBlankRuns.go, if_pos rfl]
      split
      · exact ih h run
      · exact (terminated_append_newline []).append (ih h (run + 1))
    · rw [go_line hr h0, terminated_line_iff]
      exact ih h 1

theorem endRun_append : ∀ (run : Nat) (a b : Text), endRun run (a ++ b) = endRun (endRun run a) b
  | _, [], _ => rfl
  | run, c :: a, b => by
    simp only [List.cons_append, endRun]
    split
    · split
      · exact endRun_append run a b
      · exact endRun_append (run + 1) a b
    · exact endRun_append 0 a b

/-- Below a line a newline was kept. -/
theorem one_le_endRun {a : Text} {run : Nat} (h : Terminated a) (h0 : a ≠ [] ∨ 1 ≤ run) : 1 ≤ endRun run a := by
  by_cases ha : a = []
  · rw [ha]
    exact h0.resolve_left (not_not_intro ha)
  · obtain ⟨r, rfl⟩ := h.exists_eq ha
    rw [endRun_append]
    simp only [endRun, if_true]
    split <;> omega

/-- Below an empty line two newlines were kept. -/
theorem two_le_endRun (r : Text) (run : Nat) : 2 ≤ endRun run (r ++ ['\n', '\n']) := by
  rw [endRun_append]
  simp only [endRun, if_true]
  split
  · omega
  · split <;> omega

/-- A text that has no empty line once it is folded is folded. -/
theorem go_eq_self {t : Text} {run : Nat} (hr : run ≤ 1) (h : [] ∉ rows (go run t)) : go run t = t := by
  induction t using lineRec generalizing run with
  | nil => rfl
  | last r hn _ => exact go_of_not_mem hn run
  | line r t hn ih =>
    by_cases h0 : r = []
    · subst h0
      rw [List.nil_append, go, if_pos rfl, if_neg (by omega), ← List.nil_append ('\n' :: _), rows_line hn] at h
      exact absurd List.mem_cons_self h
    · rw [go_line hn h0, rows_line hn, List.mem_cons, not_or] at h
      rw [go_line hn h0, ih (Nat.le_refl 1) h.2]

theorem solidLines_go (run : Nat) (t : Text) : solidLines (go run t) = solidLines t := by
  induction t using lineRec generalizing run with
  | nil => rfl
  | last r hr h0 => rw [go_of_not_mem hr]
  | line r t hr ih =>
    by_cases h0 : r = []
    · subst h0
      simp only [List.nil_append, go, if_true]
      split
      · rw [ih, solidLines_newline_cons]
      · rw [solidLines_newline_cons, ih, solidLines_newline_cons]
    · rw [go_line hr h0, solidLines_line hr, ih, ← solidLines_line hr]

theorem solidLines_foldBlankRuns (t : Text) : solidLines (foldBlankRuns t) = solidLines t :=
  solidLines_go 0 t

/-- Like texts have the same solid lines. -/
theorem Alike.solidLines_eq {a b : Text} (h : Alike a b) : solidLines a = solidLines b := by
  rw [← solidLines_foldBlankRuns a, ← solidLines_foldBlankRuns b, h]

end Text
end Marginalia
