/-
# Lines woven into a text

All blocks of a batch that stand beside classes are told by the numbers of the
code lines beside which they stand: `weave pos g t` is the text `t` with the
lines `g i` right above or right below its `i`-th code line, that is with the
lines `spread g (rawLines t) k` beside its `k`-th line (`weave_eq_interleave`).
Weaving goes line by line, so it commutes with the folding of blank runs
(`foldBlankRuns_weave`) and what is woven in with two threads is woven in with
one (`weave_weave`); and putting a block beside a code line adds its lines to
what is woven in there (`insertLine_weave`).

Key definitions: `Placement.weave`, `Placement.spread`.
Key theorems: `Placement.weave_eq_interleave`, `Placement.foldBlankRuns_weave`,
`Placement.insertLine_weave`, `Placement.weave_weave`.
-/
import Marginalia.Proofs.Placement.Beside
import Marginalia.Proofs.Text.Code
import Marginalia.Proofs.Text.Folding

namespace Marginalia
namespace Placement

open Text

/-- Raw lines with the lines `g i` beside the `i`-th code line. -/
def weaveLines (pos : Position) : (Nat → List Text) → List Text → Text
  | _, [] => []
  | g, l :: ls =>
    if isNote l then l ++ weaveLines pos g ls
    else beside pos (g 0) l ++ weaveLines pos (fun i => g (i + 1)) ls

/-- The text with the lines `g i` beside its `i`-th code line. -/
def weave (pos : Position) (g : Nat → List Text) (t : Text) : Text := weaveLines pos g (rawLines t)

/-- What is woven in beside raw lines, told by the numbers of all of them. -/
def spread : (Nat → List Text) → List Text → Nat → List Text
  | _, [], _ => []
  | g, l :: _, 0 => if isNote l then [] else g 0
  | g, l :: ls, k + 1 => spread (if isNote l then g else fun i => g (i + 1)) ls k

/-- What stands beside a code line once lines were woven in and then some more: the later ones are
next to it. -/
def join (pos : Position) (ls ms : List Text) : List Text :=
  match pos with
  | .top | .before => ls ++ ms
  | .after => ms ++ ls

/-- Lines with the lines `g i` beside the `i`-th of them that is no note. -/
def weaveRows (pos : Position) : (Nat → List Text) → List Text → List Text
  | _, [] => []
  | g, l :: ls =>
    if isNote l then l :: weaveRows pos g ls
    else join pos (g 0) [l] ++ weaveRows pos (fun i => g (i + 1)) ls

/-- Each of the lines to be woven in is a line that is not empty. -/
def Whole (g : Nat → List Text) : Prop := ∀ i, ∀ l ∈ g i, '\n' ∉ l ∧ l ≠ []

theorem Whole.tail {g : Nat → List Text} (h : Whole g) : Whole fun i => g (i + 1) := fun i => h (i + 1)

theorem join_above {pos : Position} (hp : pos ≠ .after) (ls ms : List Text) : join pos ls ms = ls ++ ms := by
  cases pos with
  | after => exact absurd rfl hp
  | top | before => rfl

theorem join_after (ls ms : List Text) : join .after ls ms = ms ++ ls := rfl

/-! ### Code lines among all lines -/

section

variable {pos : Position} {g : Nat → List Text} {l r t : Text} {ls : List Text} {i : Nat}

theorem spread_note (g : Nat → List Text) (ls : List Text) (hn : isNote l = true) :
    spread g (l :: ls) 0 = [] ∧ (fun k => spread g (l :: ls) (k + 1)) = spread g ls := by
  simp only [spread, hn, if_true, and_self]

theorem spread_code (g : Nat → List Text) (ls : List Text) (hn : isNote l = false) :
    spread g (l :: ls) 0 = g 0 ∧ (fun k => spread g (l :: ls) (k + 1)) = spread (fun i => g (i + 1)) ls := by
  simp only [spread, hn, Bool.false_eq_true, if_false, and_self]

theorem spread_induction {p : List Text → Prop} (h0 : p []) (h : ∀ i, p (g i)) (k : Nat) : p (spread g ls k) := by
  induction ls generalizing g k with
  | nil => exact h0
  | cons l ls ih =>
    cases hn : isNote l with
    | true =>
      obtain ⟨hz, hs⟩ := spread_note g ls hn
      cases k with
      | zero => exact hz ▸ h0
      | succ k => exact congrFun hs k ▸ ih h k
    | false =>
      obtain ⟨hz, hs⟩ := spread_code g ls hn
      cases k with
      | zero => exact hz ▸ h 0
      | succ k => exact congrFun hs k ▸ ih (fun i => h (i + 1)) k

/-- A text is woven by putting in lines beside all its lines. -/
theorem weave_eq_interleave (g : Nat → List Text) (t : Text) :
    weave pos g t = interleave pos (spread g (rawLines t)) t := by
  have hlines (ls : List Text) : weaveLines pos g ls = interleaveLines pos (spread g ls) ls := by
    induction ls generalizing g with
    | nil => rfl
    | cons l ls ih =>
      rw [weaveLines, interleaveLines]
      cases hn : isNote l with
      | true => rw [if_pos rfl, (spread_note _ _ hn).1, (spread_note _ _ hn).2, beside_nil, ih]
      | false => rw [if_neg Bool.false_ne_true, (spread_code _ _ hn).1, (spread_code _ _ hn).2, ih]
  exact hlines (rawLines t)

/-- Above a code line nothing is put in if nothing is woven in beside the code lines above it. -/
theorem spread_eq_nil (hg : ∀ j < i, g j = []) : ∀ k < codeIndex ls i, spread g ls k = [] := by
  induction ls generalizing g i with
  | nil => exact fun _ _ => rfl
  | cons l ls ih =>
    intro k hk
    cases hn : isNote l with
    | true =>
      rw [codeIndex_cons_note hn] at hk
      cases k with
      | zero => exact (spread_note _ _ hn).1
      | succ k => exact (congrFun (spread_note _ _ hn).2 k).trans (ih hg k (Nat.lt_of_succ_lt_succ hk))
    | false =>
      cases i with
      | zero => exact absurd (codeIndex_cons_zero hn ls ▸ hk) (Nat.not_lt_zero k)
      | succ i =>
        rw [codeIndex_cons_succ hn] at hk
        cases k with
        | zero => exact (spread_code _ _ hn).1.trans (hg 0 (Nat.succ_pos i))
        | succ k =>
          exact (congrFun (spread_code _ _ hn).2 k).trans
            (ih (fun j hj => hg (j + 1) (Nat.succ_lt_succ hj)) k (Nat.lt_of_succ_lt_succ hk))

theorem spread_codeIndex (g : Nat → List Text) (hi : codeIndex ls i < ls.length) :
    spread g ls (codeIndex ls i) = g i := by
  induction ls generalizing g i with
  | nil => exact absurd hi (Nat.not_lt_zero _)
  | cons l ls ih =>
    cases hn : isNote l with
    | true =>
      rw [codeIndex_cons_note hn] at hi ⊢
      exact (congrFun (spread_note _ _ hn).2 _).trans (ih g (Nat.lt_of_succ_lt_succ hi))
    | false =>
      cases i with
      | zero =>
        rw [codeIndex_cons_zero hn]
        exact (spread_code _ _ hn).1
      | succ i =>
        rw [codeIndex_cons_succ hn] at hi ⊢
        exact (congrFun (spread_code _ _ hn).2 _).trans (ih _ (Nat.lt_of_succ_lt_succ hi))

/-- One more block beside a code line is one beside a line. -/
theorem spread_add {new : List Text} (hi : codeIndex ls i < ls.length) :
    spread (add i new g) ls = add (codeIndex ls i) new (spread g ls) := by
  induction ls generalizing g i with
  | nil => exact absurd hi (Nat.not_lt_zero _)
  | cons l ls ih =>
    have hcases {f h : Nat → List Text} (h0 : f 0 = h 0) (hs : (fun k => f (k + 1)) = fun k => h (k + 1)) : f = h :=
      funext fun k => by
        cases k with
        | zero => exact h0
        | succ k => exact congrFun hs k
    cases hn : isNote l with
    | true =>
      rw [codeIndex_cons_note hn] at hi ⊢
      refine hcases ?_ ?_
      · rw [add_succ_zero, (spread_note _ _ hn).1, (spread_note _ _ hn).1]
      · rw [add_succ, (spread_note _ _ hn).2, (spread_note _ _ hn).2, ih (Nat.lt_of_succ_lt_succ hi)]
    | false =>
      cases i with
      | zero =>
        rw [codeIndex_cons_zero hn]
        refine hcases ?_ ?_
        · rw [add_zero, (spread_code _ _ hn).1, (spread_code _ _ hn).1, add_zero]
        · rw [add_zero_succ, (spread_code _ _ hn).2, (spread_code _ _ hn).2, add_zero_succ]
      | succ i =>
        rw [codeIndex_cons_succ hn] at hi ⊢
        refine hcases ?_ ?_
        · rw [add_succ_zero, (spread_code _ _ hn).1, (spread_code _ _ hn).1, add_succ_zero]
        · rw [add_succ, (spread_code _ _ hn).2, (spread_code _ _ hn).2, add_succ, ih (Nat.lt_of_succ_lt_succ hi)]

/-! ### Line by line -/

theorem weave_nil : weave pos g [] = [] := rfl

theorem weave_note (h : '\n' ∉ r) (hn : isNote r = true) :
    weave pos g (r ++ '\n' :: t) = r ++ '\n' :: weave pos g t := by
  rw [weave, rawLines_line h, weaveLines, isNote_append_newline, if_pos hn, List.append_assoc]
  rfl

theorem weave_note_last (h : '\n' ∉ r) (h0 : r ≠ []) (hn : isNote r = true) : weave pos g r = r := by
  rw [weave, rawLines_of_not_mem h h0, weaveLines, if_pos hn, weaveLines, List.append_nil]

theorem weave_above (hp : pos ≠ .after) (h : '\n' ∉ r) (hn : isNote r = false) :
    weave pos g (r ++ '\n' :: t) =
      paragraph (g 0) ++ (r ++ '\n' :: weave pos (fun i => g (i + 1)) t) := by
  obtain ⟨hz, hs⟩ := spread_code g (rawLines t) ((isNote_append_newline r).trans hn)
  rw [weave_eq_interleave, interleave_above hp h, rawLines_line h, hz, hs, weave_eq_interleave]

theorem weave_below (h : '\n' ∉ r) (hn : isNote r = false) :
    weave .after g (r ++ '\n' :: t) =
      r ++ '\n' :: (paragraph (g 0) ++ weave .after (fun i => g (i + 1)) t) := by
  obtain ⟨hz, hs⟩ := spread_code g (rawLines t) ((isNote_append_newline r).trans hn)
  rw [weave_eq_interleave, interleave_below h, rawLines_line h, hz, hs, weave_eq_interleave]

theorem weave_above_last (hp : pos ≠ .after) (h : '\n' ∉ r) (hn : isNote r = false) :
    weave pos g r = paragraph (g 0) ++ r := by
  have h0 := ne_nil_of_not_isNote hn
  rw [weave_eq_interleave, interleave_above_last hp h h0, rawLines_of_not_mem h h0, (spread_code _ _ hn).1]

theorem weave_below_last (h : '\n' ∉ r) (hn : isNote r = false) :
    weave .after g r = if g 0 = [] then r else r ++ '\n' :: paragraph (g 0) := by
  have h0 := ne_nil_of_not_isNote hn
  rw [weave_eq_interleave, interleave_below_last h h0, rawLines_of_not_mem h h0, (spread_code _ _ hn).1]

/-- A text into which nothing is woven. -/
theorem weave_of_eq_nil (h : ∀ i, g i = []) (t : Text) : weave pos g t = t := by
  rw [weave_eq_interleave, interleave_of_eq_nil (spread_induction (p := (· = [])) rfl h)]

/-- The lines of a woven text are woven. -/
theorem solidLines_weave (hg : Whole g) (t : Text) : solidLines (weave pos g t) = weaveRows pos g (solidLines t) := by
  have hpar {ls : List Text} (h : ∀ l ∈ ls, '\n' ∉ l ∧ l ≠ []) (t : Text) :
      solidLines (paragraph ls ++ t) = ls ++ solidLines t := by
    rw [solidLines_append (terminated_paragraph _),
      solidLines_paragraph_of_ne_nil (fun l hl => (h l hl).1) fun l hl => (h l hl).2]
  induction t using lineRec generalizing g with
  | nil => rfl
  | last r hr h0 =>
    rw [solidLines_of_not_mem hr h0, weaveRows]
    cases hn : isNote r with
    | true =>
      rw [weave_note_last hr h0 hn, solidLines_of_not_mem hr h0]
      rfl
    | false =>
      rw [if_neg Bool.false_ne_true, weaveRows, List.append_nil]
      by_cases hp : pos = .after
      · subst hp
        rw [weave_below_last hr hn, join_after]
        split
        · next h => rw [solidLines_of_not_mem hr h0, h, List.append_nil]
        · have hline := hpar (hg 0) []
          rw [List.append_nil, solidLines_nil, List.append_nil] at hline
          rw [solidLines_append_newline, solidLines_of_not_mem hr h0, hline]
      · rw [weave_above_last hp hr hn, join_above hp, hpar (hg 0), solidLines_of_not_mem hr h0]
  | line r t hr ih =>
    rw [solidLines_append_newline]
    cases hn : isNote r with
    | true =>
      rw [weave_note hr hn, solidLines_append_newline, ih hg]
      by_cases h0 : r = []
      · rw [h0, solidLines_nil, List.nil_append, List.nil_append]
      · rw [solidLines_of_not_mem hr h0, List.singleton_append, List.singleton_append, weaveRows, if_pos hn]
    | false =>
      have h0 := ne_nil_of_not_isNote hn
      rw [solidLines_of_not_mem hr h0, List.singleton_append, weaveRows, hn, if_neg Bool.false_ne_true, ← ih hg.tail]
      by_cases hp : pos = .after
      · subst hp
        rw [weave_below hr hn, solidLines_append_newline, hpar (hg 0), solidLines_of_not_mem hr h0, join_after,
          List.append_assoc]
      · rw [weave_above hp hr hn, hpar (hg 0), solidLines_append_newline, solidLines_of_not_mem hr h0, join_above hp,
          List.append_assoc]

/-- Where something is woven in beside a line, the line is not empty. -/
theorem row_ne_nil_of_spread {k : Nat} (h : spread g (rawLines t) k ≠ []) : (rows t).getD k [] ≠ [] := by
  induction t using lineRec generalizing g k with
  | nil => exact absurd rfl h
  | last r hr h0 =>
    rw [rawLines_of_not_mem hr h0] at h
    rw [rows_of_not_mem hr h0]
    cases k with
    | zero => exact h0
    | succ k => exact absurd rfl h
  | line r t hr ih =>
    rw [rawLines_line hr] at h
    rw [rows_line hr]
    cases hn : isNote r with
    | true =>
      have hs := spread_note g (rawLines t) ((isNote_append_newline r).trans hn)
      cases k with
      | zero => exact absurd hs.1 h
      | succ k => exact ih fun h0 => h ((congrFun hs.2 k).trans h0)
    | false =>
      have hs := spread_code g (rawLines t) ((isNote_append_newline r).trans hn)
      cases k with
      | zero => exact ne_nil_of_not_isNote hn
      | succ k => exact ih fun h0 => h ((congrFun hs.2 k).trans h0)

/-! ### Folding -/

open foldBlankRuns (go)

theorem go_paragraph_append {ls : List Text} (h : ∀ l ∈ ls, '\n' ∉ l ∧ l ≠ []) (t : Text) :
    ∀ run : Nat, go run (paragraph ls ++ t) = paragraph ls ++ go (if ls = [] then run else 1) t := by
  induction ls with
  | nil => exact fun run => rfl
  | cons l ls ih =>
    intro run
    rw [List.forall_mem_cons] at h
    rw [paragraph_cons, List.append_assoc, List.cons_append, go_line h.1.1 h.1.2, ih h.2,
      if_neg (List.cons_ne_nil l ls), ite_self, List.append_assoc, List.cons_append]

theorem go_weave (hg : Whole g) (run : Nat) (t : Text) : go run (weave pos g t) = weave pos g (go run t) := by
  induction t using lineRec generalizing g run with
  | nil => rfl
  | last r hr h0 =>
    rw [go_of_not_mem hr]
    cases hn : isNote r with
    | true => rw [weave_note_last hr h0 hn, go_of_not_mem hr]
    | false =>
      by_cases hp : pos = .after
      · subst hp
        rw [weave_below_last hr hn]
        split
        · exact go_of_not_mem hr run
        · have := go_paragraph_append (hg 0) [] 1
          rw [List.append_nil, ite_self, go, List.append_nil] at this
          rw [go_line hr h0, this]
      · rw [weave_above_last hp hr hn, go_paragraph_append (hg 0), go_of_not_mem hr]
  | line r t hr ih =>
    by_cases h0 : r = []
    · subst h0
      simp only [List.nil_append]
      have hw (t : Text) : weave pos g ('\n' :: t) = '\n' :: weave pos g t := weave_note (by simp) isNote_nil
      rw [hw, go, if_pos rfl, go, if_pos rfl]
      by_cases hrun : 2 ≤ run
      · rw [if_pos hrun, if_pos hrun, ih hg]
      · rw [if_neg hrun, if_neg hrun, hw, ih hg]
    · rw [go_line hr h0]
      cases hn : isNote r with
      | true => rw [weave_note hr hn, weave_note hr hn, go_line hr h0, ih hg]
      | false =>
        by_cases hp : pos = .after
        · subst hp
          rw [weave_below hr hn, weave_below hr hn, go_line hr h0, go_paragraph_append (hg 0), ite_self,
            ih hg.tail]
        · rw [weave_above hp hr hn, weave_above hp hr hn, go_paragraph_append (hg 0), go_line hr h0, ih hg.tail]

/-- It does not matter whether blank runs are folded before or after lines are woven in. -/
theorem foldBlankRuns_weave (hg : Whole g) (t : Text) :
    foldBlankRuns (weave pos g t) = weave pos g (foldBlankRuns t) := go_weave hg 0 t

/-! ### One block more -/

/-- The number of lines above a block beside the `i`-th code line. -/
def seat (pos : Position) (t : Text) (i : Nat) : Nat :=
  codeIndex (rawLines t) i + if pos = .after then 1 else 0

/-- A block that is put beside a code line, where nothing is woven in above it, is woven in. -/
theorem insertLine_weave {new : List Text} (h0 : new ≠ []) (hi : i < (codeLines t).length)
    (hg : ∀ j < i, g j = []) :
    insertLine (rawLines (weave pos g t)) (seat pos t i) (joinLines new) = weave pos (add i new g) t := by
  have hk := codeIndex_lt_length hi
  rw [weave_eq_interleave, seat, insertLine_interleave h0 hk (spread_eq_nil hg), weave_eq_interleave, spread_add hk]

/-- The `i`-th code line is found at its number. -/
theorem indentOf_codeIndex (hi : i < (codeLines t).length) :
    indentOf ((rawLines t).getD (codeIndex (rawLines t) i) []) = indentOf ((codeLines t).getD i []) := by
  induction t using lineRec generalizing i with
  | nil => exact absurd hi (Nat.not_lt_zero i)
  | last r hr hr0 =>
    cases hn : isNote r with
    | true => simp [codeLines_last hr hr0, hn] at hi
    | false =>
      obtain rfl : i = 0 := by simpa [codeLines_last hr hr0, hn] using hi
      rw [codeIndex_last_zero hr hn, rawLines_of_not_mem hr hr0, codeLines_last hr hr0, hn]
      rfl
  | line r t hr ih =>
    cases hn : isNote r with
    | true =>
      rw [codeLines_note hr hn] at hi ⊢
      rw [codeIndex_note hr hn, rawLines_line hr, List.getD_cons_succ, ih hi]
    | false =>
      rw [codeLines_code hr hn] at hi ⊢
      cases i with
      | zero => rw [codeIndex_code_zero hr hn, indentOf_line hr, List.getD_cons_zero]
      | succ i =>
        rw [codeIndex_code_succ hr hn, rawLines_line hr, List.getD_cons_succ, List.getD_cons_succ,
          ih (Nat.lt_of_succ_lt_succ hi)]

/-- Where nothing is woven in above a code line but lines that are indented as it is, its indentation
is found at its number. -/
theorem indentAt_weave (hi : i < (codeLines t).length) (hg : ∀ j < i, g j = [])
    (hl : pos ≠ .after → ∀ l ∈ (g i).head?, '\n' ∉ l ∧ indentOf l = indentOf ((codeLines t).getD i [])) :
    indentAt (rawLines (weave pos g t)) (lineOf t i) = indentOf ((codeLines t).getD i []) := by
  have hk := codeIndex_lt_length hi
  rw [← indentOf_codeIndex hi, ← spread_codeIndex g hk] at hl
  rw [indentAt, lineOf, Nat.add_sub_cancel, weave_eq_interleave,
    indentOf_interleave (Nat.le_refl _) hk (spread_eq_nil hg) hl, indentOf_codeIndex hi]

/-! ### Two threads -/

theorem weave_paragraph_append {ls : List Text} (h : ∀ l ∈ ls, '\n' ∉ l) (hn : ∀ l ∈ ls, isNote l = true)
    (t : Text) : weave pos g (paragraph ls ++ t) = paragraph ls ++ weave pos g t := by
  induction ls with
  | nil => rfl
  | cons l ls ih =>
    rw [List.forall_mem_cons] at h hn
    rw [paragraph_cons, List.append_assoc, List.cons_append, weave_note h.1 hn.1, ih h.2 hn.2,
      List.append_assoc, List.cons_append]

/-- What is woven into a text one after the other can be woven in at once. -/
theorem weave_weave {f : Nat → List Text} (hf : Whole f) (hn : ∀ i, ∀ l ∈ f i, isNote l = true) (t : Text) :
    weave pos g (weave pos f t) = weave pos (fun i => join pos (f i) (g i)) t := by
  induction t using lineRec generalizing f g with
  | nil => rfl
  | last r hr h0 =>
    cases hc : isNote r with
    | true => rw [weave_note_last hr h0 hc, weave_note_last hr h0 hc, weave_note_last hr h0 hc]
    | false =>
      have hline (g : Nat → List Text) (t : Text) :
          weave pos g (paragraph (f 0) ++ t) = paragraph (f 0) ++ weave pos g t :=
        weave_paragraph_append (fun l hl => (hf 0 l hl).1) (hn 0) t
      by_cases hp : pos = .after
      · subst hp
        rw [weave_below_last hr hc, weave_below_last hr hc]
        by_cases hf0 : f 0 = []
        · simp only [hf0, if_true, weave_below_last hr hc, join_after, List.append_nil]
        · have := hline (fun i => g (i + 1)) []
          rw [List.append_nil, weave_nil, List.append_nil] at this
          have hne : join .after (f 0) (g 0) ≠ [] := by simp [join_after, hf0]
          rw [if_neg hf0, weave_below hr hc, this, if_neg hne, join_after, paragraph_append]
      · rw [weave_above_last hp hr hc, weave_above_last hp hr hc, hline, weave_above_last hp hr hc,
          join_above hp, paragraph_append, List.append_assoc]
  | line r t hr ih =>
    cases hc : isNote r with
    | true => rw [weave_note hr hc, weave_note hr hc, weave_note hr hc, ih hf hn]
    | false =>
      have hline (g : Nat → List Text) (t : Text) :
          weave pos g (paragraph (f 0) ++ t) = paragraph (f 0) ++ weave pos g t :=
        weave_paragraph_append (fun l hl => (hf 0 l hl).1) (hn 0) t
      have ht := ih (g := fun i => g (i + 1)) hf.tail fun i => hn (i + 1)
      by_cases hp : pos = .after
      · subst hp
        rw [weave_below hr hc, weave_below hr hc, weave_below hr hc, hline, ht]
        rw [join_after, paragraph_append, List.append_assoc]
      · rw [weave_above hp hr hc, weave_above hp hr hc, hline, weave_above hp hr hc, ht, join_above hp,
          paragraph_append, List.append_assoc]

end

end Placement
end Marginalia
