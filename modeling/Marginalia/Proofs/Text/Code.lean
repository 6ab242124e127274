/-
# Code lines

A line is a note if it is blank or a comment; the other lines of a text are its
code lines. Notes may come and go without what the code says being touched, so
a place in a text is told by the number of a code line: it is the line
`lineOf t i`, however many notes stand above it.

Key definitions: `Text.isNote`, `Text.codeLines`, `Text.codeIndex`, `Text.lineOf`.
Key theorems: `Text.codeLines_eq_filter`, `Text.codeIndex_lt`, `Text.lineOf_lt_iff`.
-/
import Marginalia.Proofs.Text.Lines

namespace Marginalia
namespace Text

/-- Whether a line, with or without its newline, is blank or a comment. -/
def isNote (l : Text) : Bool := (l.dropWhile isIndent).head?.all fun c => c == '\n' || c == '#'

/-- The lines of a text that are no notes. -/
def codeLines (t : Text) : List Text := (rows t).filter (!isNote ·)

/-- The number of lines above the `i`-th line that is no note. -/
def codeIndex : List Text → Nat → Nat
  | [], _ => 0
  | l :: ls, i =>
    if isNote l then codeIndex ls i + 1
    else match i with
      | 0 => 0
      | i + 1 => codeIndex ls i + 1

/-- The number, counted from one, of the `i`-th code line, counted from zero. -/
def lineOf (t : Text) (i : Nat) : Nat := codeIndex (rawLines t) i + 1

theorem isNote_nil : isNote [] = true := rfl

theorem isNote_append_newline (r : Text) : isNote (r ++ ['\n']) = isNote r := by
  unfold isNote
  rw [List.dropWhile_append]
  cases r.dropWhile isIndent <;> rfl

theorem ne_nil_of_not_isNote {r : Text} (h : isNote r = false) : r ≠ [] := by
  rintro rfl
  cases h

/-- A comment line is a note however it is indented. -/
theorem isNote_comment {indent : Text} (hi : ∀ c ∈ indent, isIndent c) (u : Text) :
    isNote (indent ++ '#' :: u) = true := by
  have h : (indent ++ '#' :: u).dropWhile isIndent = '#' :: u := by
    rw [List.dropWhile_append_of_pos hi]
    rfl
  unfold isNote
  rw [h]
  rfl

/-! ### Which lines are code lines -/

section

variable {t : Text}

/-- Code lines are among the lines that are not empty. -/
theorem codeLines_eq_filter (t : Text) : codeLines t = (solidLines t).filter (!isNote ·) := by
  rw [codeLines, solidLines, List.filter_filter]
  refine List.filter_congr fun l _ => ?_
  cases h : isNote l with
  | true => rfl
  | false => simp [ne_nil_of_not_isNote h]

theorem codeLines_eq_of_solidLines {a b : Text} (h : solidLines a = solidLines b) :
    codeLines a = codeLines b := by
  rw [codeLines_eq_filter, codeLines_eq_filter, h]

theorem codeLines_note {r : Text} (h : '\n' ∉ r) (hn : isNote r = true) (t : Text) :
    codeLines (r ++ '\n' :: t) = codeLines t := by
  rw [codeLines, rows_line h, List.filter_cons_of_neg (by simp [hn]), codeLines]

theorem codeLines_code {r : Text} (h : '\n' ∉ r) (hn : isNote r = false) (t : Text) :
    codeLines (r ++ '\n' :: t) = r :: codeLines t := by
  rw [codeLines, rows_line h, List.filter_cons_of_pos (by simp [hn]), codeLines]

theorem codeLines_last {r : Text} (h : '\n' ∉ r) (h0 : r ≠ []) :
    codeLines r = if isNote r then [] else [r] := by
  rw [codeLines, rows_of_not_mem h h0, List.filter_singleton]
  cases isNote r <;> rfl

/-! ### Where the code lines stand -/

theorem codeIndex_cons_note {l : Text} (hn : isNote l = true) (ls : List Text) (i : Nat) :
    codeIndex (l :: ls) i = codeIndex ls i + 1 := by
  cases i <;> simp only [codeIndex, hn, if_true]

theorem codeIndex_cons_zero {l : Text} (hn : isNote l = false) (ls : List Text) : codeIndex (l :: ls) 0 = 0 := by
  simp only [codeIndex, hn, Bool.false_eq_true, if_false]

theorem codeIndex_cons_succ {l : Text} (hn : isNote l = false) (ls : List Text) (i : Nat) :
    codeIndex (l :: ls) (i + 1) = codeIndex ls i + 1 := by
  simp only [codeIndex, hn, Bool.false_eq_true, if_false]

theorem codeIndex_note {r : Text} (h : '\n' ∉ r) (hn : isNote r = true) (t : Text) (i : Nat) :
    codeIndex (rawLines (r ++ '\n' :: t)) i = codeIndex (rawLines t) i + 1 := by
  rw [rawLines_line h, codeIndex_cons_note ((isNote_append_newline r).trans hn)]

theorem codeIndex_code_zero {r : Text} (h : '\n' ∉ r) (hn : isNote r = false) (t : Text) :
    codeIndex (rawLines (r ++ '\n' :: t)) 0 = 0 := by
  rw [rawLines_line h, codeIndex_cons_zero ((isNote_append_newline r).trans hn)]

theorem codeIndex_code_succ {r : Text} (h : '\n' ∉ r) (hn : isNote r = false) (t : Text) (i : Nat) :
    codeIndex (rawLines (r ++ '\n' :: t)) (i + 1) = codeIndex (rawLines t) i + 1 := by
  rw [rawLines_line h, codeIndex_cons_succ ((isNote_append_newline r).trans hn)]

theorem codeIndex_last_zero {r : Text} (h : '\n' ∉ r) (hn : isNote r = false) :
    codeIndex (rawLines r) 0 = 0 := by
  rw [rawLines_of_not_mem h (ne_nil_of_not_isNote hn), codeIndex_cons_zero hn]

/-- Code lines stand in the order of their numbers. -/
theorem codeIndex_lt {i j : Nat} (hij : i < j) (hj : j < (codeLines t).length) :
    codeIndex (rawLines t) i < codeIndex (rawLines t) j := by
  induction t using lineRec generalizing i j with
  | nil => exact absurd hj (Nat.not_lt_zero j)
  | last r hr h0 =>
    rw [codeLines_last hr h0] at hj
    split at hj
    · exact absurd hj (Nat.not_lt_zero j)
    · rw [List.length_singleton] at hj
      omega
  | line r t hr ih =>
    cases hn : isNote r with
    | true =>
      rw [codeLines_note hr hn] at hj
      rw [codeIndex_note hr hn, codeIndex_note hr hn]
      exact Nat.succ_lt_succ (ih hij hj)
    | false =>
      rw [codeLines_code hr hn, List.length_cons] at hj
      obtain ⟨j, rfl⟩ : ∃ m, j = m + 1 := ⟨j - 1, by omega⟩
      rw [codeIndex_code_succ hr hn]
      cases i with
      | zero =>
        rw [codeIndex_code_zero hr hn]
        omega
      | succ i =>
        rw [codeIndex_code_succ hr hn]
        exact Nat.succ_lt_succ (ih (by omega) (by omega))

/-- A code line is there. -/
theorem codeIndex_lt_length {i : Nat} (hi : i < (codeLines t).length) :
    codeIndex (rawLines t) i < (rawLines t).length := by
  induction t using lineRec generalizing i with
  | nil => exact absurd hi (Nat.not_lt_zero i)
  | last r hr h0 =>
    rw [codeLines_last hr h0] at hi
    split at hi
    · exact absurd hi (Nat.not_lt_zero i)
    · next hn =>
      obtain rfl : i = 0 := by simpa using hi
      rw [codeIndex_last_zero hr (by simpa using hn), rawLines_of_not_mem hr h0]
      exact Nat.one_pos
  | line r t hr ih =>
    rw [rawLines_line hr, List.length_cons, ← rawLines_line hr]
    cases hn : isNote r with
    | true =>
      rw [codeLines_note hr hn] at hi
      rw [codeIndex_note hr hn]
      exact Nat.succ_lt_succ (ih hi)
    | false =>
      cases i with
      | zero =>
        rw [codeIndex_code_zero hr hn]
        exact Nat.succ_pos _
      | succ i =>
        rw [codeLines_code hr hn, List.length_cons] at hi
        rw [codeIndex_code_succ hr hn]
        exact Nat.succ_lt_succ (ih (by omega))

/-- The `i`-th code line stands at its number. -/
theorem getElem?_codeIndex {i : Nat} (hi : i < (codeLines t).length) :
    (rows t)[codeIndex (rawLines t) i]? = (codeLines t)[i]? := by
  induction t using lineRec generalizing i with
  | nil => exact absurd hi (Nat.not_lt_zero i)
  | last r hr h0 =>
    cases hn : isNote r with
    | true => simp [codeLines_last hr h0, hn] at hi
    | false =>
      obtain rfl : i = 0 := by simpa [codeLines_last hr h0, hn] using hi
      rw [codeIndex_last_zero hr hn, rows_of_not_mem hr h0, codeLines_last hr h0, hn]
      rfl
  | line r t hr ih =>
    cases hn : isNote r with
    | true =>
      rw [codeLines_note hr hn] at hi ⊢
      rw [codeIndex_note hr hn, rows_line hr, List.getElem?_cons_succ, ih hi]
    | false =>
      rw [codeLines_code hr hn] at hi ⊢
      cases i with
      | zero => rw [codeIndex_code_zero hr hn, rows_line hr, List.getElem?_cons_zero, List.getElem?_cons_zero]
      | succ i =>
        rw [codeIndex_code_succ hr hn, rows_line hr, List.getElem?_cons_succ, List.getElem?_cons_succ,
          ih (Nat.lt_of_succ_lt_succ hi)]

theorem lineOf_lt_iff {i j : Nat} (hi : i < (codeLines t).length) (hj : j < (codeLines t).length) :
    lineOf t i < lineOf t j ↔ i < j := by
  have hlt {i j : Nat} (h : i < j) (hj : j < (codeLines t).length) : lineOf t i < lineOf t j :=
    Nat.succ_lt_succ (codeIndex_lt h hj)
  constructor
  · intro h
    by_contra hn
    rcases Nat.lt_or_eq_of_le (Nat.le_of_not_lt hn) with hji | rfl
    · have := hlt hji hi
      omega
    · omega
  · exact fun h => hlt h hj

theorem lineOf_le_iff {i j : Nat} (hi : i < (codeLines t).length) (hj : j < (codeLines t).length) :
    lineOf t i ≤ lineOf t j ↔ i ≤ j := by
  have h := lineOf_lt_iff hj hi
  omega

end

end Text
end Marginalia
