/-
# Lines beside lines

Blocks stand right above or right below lines of a text: `interleave pos g t`
is the text `t` with the lines `g i` beside its `i`-th line. One more block goes
in front of those that are at its line already, as long as nothing was put in
further up (`insertLine_interleave`); up to there the lines are found at the
numbers that they had (`indentOf_interleave`).

Key definitions: `Placement.interleave`, `Placement.add`.
Key theorems: `Placement.insertLine_interleave`, `Placement.indentOf_interleave`.
-/
import Marginalia.Placement.Basic
import Marginalia.Proofs.Block.Framing

namespace Marginalia
namespace Placement

open Text

/-- A line with lines right above or right below it. -/
def beside (pos : Position) (ls : List Text) (l : Text) : Text :=
  match pos with
  | .top | .before => paragraph ls ++ l
  | .after => if ls = [] then l else l ++ (if l.getLast? = some '\n' then [] else ['\n']) ++ paragraph ls

/-- Raw lines with the lines `g i` beside the `i`-th of them. -/
def interleaveLines (pos : Position) : (Nat → List Text) → List Text → Text
  | _, [] => []
  | g, l :: ls => beside pos (g 0) l ++ interleaveLines pos (fun i => g (i + 1)) ls

/-- The text with the lines `g i` beside its `i`-th line. -/
def interleave (pos : Position) (g : Nat → List Text) (t : Text) : Text := interleaveLines pos g (rawLines t)

/-- The lines to be put in with some more in front of those at one line. -/
def add (i : Nat) (ls : List Text) (g : Nat → List Text) (j : Nat) : List Text :=
  if j = i then ls ++ g j else g j

theorem add_zero (ls : List Text) (g : Nat → List Text) : add 0 ls g 0 = ls ++ g 0 := if_pos rfl

theorem add_zero_succ (ls : List Text) (g : Nat → List Text) :
    (fun i => add 0 ls g (i + 1)) = fun i => g (i + 1) :=
  funext fun i => if_neg (Nat.succ_ne_zero i)

theorem add_succ_zero (n : Nat) (ls : List Text) (g : Nat → List Text) : add (n + 1) ls g 0 = g 0 :=
  if_neg (Nat.succ_ne_zero n).symm

theorem add_succ (n : Nat) (ls : List Text) (g : Nat → List Text) :
    (fun i => add (n + 1) ls g (i + 1)) = add n ls fun i => g (i + 1) := by
  funext i
  simp only [add, Nat.add_right_cancel_iff]

/-! ### Line by line -/

section

variable {pos : Position} {g : Nat → List Text} {r t : Text}

theorem interleave_above (hp : pos ≠ .after) (h : '\n' ∉ r) :
    interleave pos g (r ++ '\n' :: t) =
      paragraph (g 0) ++ (r ++ '\n' :: interleave pos (fun i => g (i + 1)) t) := by
  rw [interleave, rawLines_line h, interleaveLines]
  cases pos with
  | after => exact absurd rfl hp
  | top | before => simp only [beside, List.append_assoc, List.cons_append, List.nil_append, interleave]

theorem interleave_below (h : '\n' ∉ r) :
    interleave .after g (r ++ '\n' :: t) =
      r ++ '\n' :: (paragraph (g 0) ++ interleave .after (fun i => g (i + 1)) t) := by
  rw [interleave, rawLines_line h, interleaveLines, beside]
  split
  · next h0 => simp [h0, interleave]
  · simp [interleave]

theorem interleave_above_last (hp : pos ≠ .after) (h : '\n' ∉ r) (h0 : r ≠ []) :
    interleave pos g r = paragraph (g 0) ++ r := by
  rw [interleave, rawLines_of_not_mem h h0, interleaveLines, interleaveLines, List.append_nil]
  cases pos with
  | after => exact absurd rfl hp
  | top | before => rfl

theorem interleave_below_last (h : '\n' ∉ r) (h0 : r ≠ []) :
    interleave .after g r = if g 0 = [] then r else r ++ '\n' :: paragraph (g 0) := by
  have hl : r.getLast? ≠ some '\n' := fun hl => h (List.mem_of_getLast? hl)
  rw [interleave, rawLines_of_not_mem h h0, interleaveLines, interleaveLines, List.append_nil, beside, if_neg hl,
    List.append_assoc]
  rfl

theorem beside_nil (l : Text) : beside pos [] l = l := by cases pos <;> rfl

/-- Nothing is put in: the text stays as it is. -/
theorem interleave_of_eq_nil (h : ∀ i, g i = []) (t : Text) : interleave pos g t = t := by
  have hlines : ∀ (ls : List Text) (g : Nat → List Text), (∀ i, g i = []) → interleaveLines pos g ls = ls.flatten := by
    intro ls
    induction ls with
    | nil => exact fun _ _ => rfl
    | cons l ls ih =>
      intro g h
      rw [interleaveLines, h 0, beside_nil, ih _ fun i => h (i + 1), List.flatten_cons]
  rw [interleave, hlines _ _ h, rawLines_flatten]

/-! ### One block more -/

theorem insertLine_zero (ls : List Text) (block : Text) : insertLine ls 0 block = block ++ '\n' :: ls.flatten := by
  simp [insertLine]

theorem insertLine_line (h : '\n' ∉ r) (t : Text) (n : Nat) (block : Text) :
    insertLine (rawLines (r ++ '\n' :: t)) (n + 1) block = r ++ '\n' :: insertLine (rawLines t) n block := by
  simp only [insertLine, rawLines_line h, List.take_succ_cons, List.drop_succ_cons, List.flatten_cons]
  cases ((rawLines t).take n).flatten with
  | nil => simp
  | cons c cs =>
    have hl : (r ++ ['\n'] ++ c :: cs).getLast? = (c :: cs).getLast? :=
      List.getLast?_append_of_ne_nil _ (List.cons_ne_nil c cs)
    have hne : r ++ '\n' :: c :: cs ≠ [] := by simp
    rw [hl]
    simp only [hne, List.cons_ne_nil, false_or, List.append_assoc, List.cons_append, List.nil_append]

theorem insertLine_last (h : '\n' ∉ r) (h0 : r ≠ []) (block : Text) :
    insertLine (rawLines r) 1 block = r ++ '\n' :: (block ++ ['\n']) := by
  have hl : r.getLast? ≠ some '\n' := fun hl => h (List.mem_of_getLast? hl)
  simp [insertLine, rawLines_of_not_mem h h0, h0, hl]

theorem joinLines_append {new : List Text} (h0 : new ≠ []) (t : Text) :
    joinLines new ++ '\n' :: t = paragraph new ++ t := by
  rw [← joinLines_append_newline h0, List.append_assoc]
  rfl

/-- A block that is put beside a line, above which nothing has been put in, goes in front of the lines that
are there. -/
theorem insertLine_interleave {new : List Text} (h0 : new ≠ []) {i : Nat} (hi : i < (rawLines t).length)
    (hg : ∀ j < i, g j = []) :
    insertLine (rawLines (interleave pos g t)) (i + if pos = .after then 1 else 0) (joinLines new) =
      interleave pos (add i new g) t := by
  induction t using lineRec generalizing g i with
  | nil => exact absurd hi (Nat.not_lt_zero i)
  | last r hr hr0 =>
    obtain rfl : i = 0 := by simpa [rawLines_of_not_mem hr hr0] using hi
    rw [Nat.zero_add]
    by_cases hp : pos = .after
    · subst hp
      rw [if_pos rfl, interleave_below_last hr hr0, interleave_below_last hr hr0, add_zero,
        if_neg (by simp [h0] : new ++ g 0 ≠ []), paragraph_append]
      by_cases hg0 : g 0 = []
      · rw [if_pos hg0, insertLine_last hr hr0, hg0, joinLines_append_newline h0, paragraph_nil, List.append_nil]
      · rw [if_neg hg0, insertLine_line hr, insertLine_zero, rawLines_flatten, joinLines_append h0]
    · rw [if_neg hp, interleave_above_last hp hr hr0, interleave_above_last hp hr hr0, add_zero, insertLine_zero,
        rawLines_flatten, joinLines_append h0, paragraph_append, List.append_assoc]
  | line r t hr ih =>
    rw [rawLines_line hr, List.length_cons] at hi
    cases i with
    | zero =>
      rw [Nat.zero_add]
      by_cases hp : pos = .after
      · subst hp
        rw [if_pos rfl, interleave_below hr, interleave_below hr, insertLine_line hr, insertLine_zero,
          rawLines_flatten, joinLines_append h0, add_zero, add_zero_succ, paragraph_append, List.append_assoc]
      · rw [if_neg hp, interleave_above hp hr, interleave_above hp hr, insertLine_zero, rawLines_flatten,
          joinLines_append h0, add_zero, add_zero_succ, paragraph_append, List.append_assoc]
    | succ i =>
      have ht := ih (g := fun i => g (i + 1)) (by omega : i < (rawLines t).length)
        fun j hj => hg (j + 1) (Nat.succ_lt_succ hj)
      have hz : g 0 = [] := hg 0 (Nat.succ_pos i)
      rw [Nat.add_right_comm]
      by_cases hp : pos = .after
      · subst hp
        rw [interleave_below hr, interleave_below hr, add_succ_zero, add_succ, hz, paragraph_nil,
          List.nil_append, List.nil_append, insertLine_line hr, ht]
      · rw [interleave_above hp hr, interleave_above hp hr, add_succ_zero, add_succ, hz, paragraph_nil,
          List.nil_append, List.nil_append, insertLine_line hr, ht]

/-! ### Indentation -/

theorem indentOf_append_newline (r : Text) : indentOf (r ++ ['\n']) = indentOf r := by
  unfold indentOf
  rw [List.takeWhile_append]
  split
  · next h =>
    have hd := congrArg List.length (List.takeWhile_append_dropWhile (p := isIndent) (l := r))
    rw [List.length_append, h] at hd
    rw [show (['\n'].takeWhile isIndent) = [] from rfl, List.append_nil]
    exact (List.takeWhile_prefix isIndent).eq_of_length h |>.symm
  · rfl

theorem indentOf_line (h : '\n' ∉ r) (t : Text) : indentOf ((rawLines (r ++ '\n' :: t)).getD 0 []) = indentOf r := by
  rw [rawLines_line h, List.getD_cons_zero, indentOf_append_newline]

/-- Lines with the indentation of the line below them may be put in above it. -/
theorem indentOf_paragraph_append {ls : List Text} {indent : Text}
    (ht : indentOf ((rawLines t).getD 0 []) = indent) (hl : ∀ l ∈ ls.head?, '\n' ∉ l ∧ indentOf l = indent) :
    indentOf ((rawLines (paragraph ls ++ t)).getD 0 []) = indent := by
  cases ls with
  | nil => exact ht
  | cons l ls =>
    obtain ⟨hn, hi⟩ := hl l rfl
    rw [paragraph_cons, List.append_assoc, List.cons_append, indentOf_line hn, hi]

/-- Down to the first line beside which something was put in, the indentation of a line is found at its
number. -/
theorem indentOf_interleave {i k : Nat} (hk : k ≤ i) (hi : i < (rawLines t).length) (hg : ∀ j < i, g j = [])
    (hl : pos ≠ .after → ∀ l ∈ (g i).head?, '\n' ∉ l ∧ indentOf l = indentOf ((rawLines t).getD i [])) :
    indentOf ((rawLines (interleave pos g t)).getD k []) = indentOf ((rawLines t).getD k []) := by
  induction t using lineRec generalizing g i k with
  | nil => exact absurd hi (Nat.not_lt_zero i)
  | last r hr hr0 =>
    obtain rfl : i = 0 := by simpa [rawLines_of_not_mem hr hr0] using hi
    obtain rfl : k = 0 := Nat.le_zero.1 hk
    have h0 : indentOf ((rawLines r).getD 0 []) = indentOf r := by
      rw [rawLines_of_not_mem hr hr0, List.getD_cons_zero]
    rw [h0] at hl ⊢
    by_cases hp : pos = .after
    · subst hp
      rw [interleave_below_last hr hr0]
      split
      · exact h0
      · exact indentOf_line hr _
    · rw [interleave_above_last hp hr hr0]
      exact indentOf_paragraph_append h0 (hl hp)
  | line r t hr ih =>
    rw [rawLines_line hr, List.length_cons] at hi
    cases k with
    | zero =>
      rw [indentOf_line hr]
      by_cases hp : pos = .after
      · subst hp
        rw [interleave_below hr]
        exact indentOf_line hr _
      · rw [interleave_above hp hr]
        refine indentOf_paragraph_append (indentOf_line hr _) fun l hm => ?_
        cases i with
        | zero =>
          have := hl hp l hm
          rwa [indentOf_line hr] at this
        | succ i =>
          rw [hg 0 (Nat.succ_pos i)] at hm
          cases hm
    | succ k =>
      obtain ⟨i, rfl⟩ : ∃ j, i = j + 1 := Nat.exists_eq_succ_of_ne_zero (by omega)
      have hz : g 0 = [] := hg 0 (Nat.succ_pos i)
      rw [rawLines_line hr, List.getD_cons_succ] at hl
      have ht := ih (g := fun i => g (i + 1)) (Nat.le_of_succ_le_succ hk) (by omega : i < (rawLines t).length)
        (fun j hj => hg (j + 1) (Nat.succ_lt_succ hj)) hl
      have hw : interleave pos g (r ++ '\n' :: t) = r ++ '\n' :: interleave pos (fun i => g (i + 1)) t := by
        by_cases hp : pos = .after
        · subst hp
          rw [interleave_below hr, hz]
          rfl
        · rw [interleave_above hp hr, hz]
          rfl
      rw [hw, rawLines_line hr, rawLines_line hr, List.getD_cons_succ, List.getD_cons_succ]
      exact ht

end

end Placement
end Marginalia
