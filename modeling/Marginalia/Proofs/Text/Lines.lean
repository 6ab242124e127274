/-
# The lines of a text

`rows` are the lines of a text without the newlines that end them, and
`solidLines` those of them that are not empty. Both are additive over texts
that meet at the end of a line: the first is `Terminated`, so that the second
starts on a line of its own, or the second is `Detached`, so that it first ends
the line of the first. A word without newlines stands in a text exactly if it
stands in one of its solid lines (`infix_iff_solidLines`).

Key definitions: `Text.Terminated`, `Text.Detached`, `Text.rows`, `Text.solidLines`.
Key theorems: `Text.lineRec`, `Text.rawLines_append`, `Text.solidLines_append_newline`,
`Text.infix_iff_solidLines`, `Text.infix_iff_rawLines`, `Text.exists_of_solidLines_eq`.
-/
import Mathlib.Data.List.TakeWhile
import Marginalia.Proofs.Text.Search

namespace Marginalia
namespace Text

/-- The text ends where a line may start. -/
def Terminated (t : Text) : Prop := t = [] ∨ t.getLast? = some '\n'

/-- The text starts where a line may end. -/
def Detached (t : Text) : Prop := t = [] ∨ t.head? = some '\n'

instance (t : Text) : Decidable (Terminated t) := inferInstanceAs (Decidable (_ ∨ _))

instance (t : Text) : Decidable (Detached t) := inferInstanceAs (Decidable (_ ∨ _))

/-- The lines of a text without the newlines that end them. -/
def rows (t : Text) : List Text := (rawLines t).map (List.takeWhile (!isNewline ·))

/-- The lines of a text that are not empty. -/
def solidLines (t : Text) : List Text := (rows t).filter (· ≠ [])

/-- A text is empty, a line without a newline, or a line with its newline and a text below it. -/
@[elab_as_elim]
theorem lineRec {motive : Text → Prop} (nil : motive [])
    (last : ∀ r : Text, '\n' ∉ r → r ≠ [] → motive r)
    (line : ∀ r t : Text, '\n' ∉ r → motive t → motive (r ++ '\n' :: t)) (t : Text) : motive t := by
  induction h : t.length using Nat.strongRecOn generalizing t with
  | ind n ih =>
    have hr : '\n' ∉ t.takeWhile (!isNewline ·) := fun hm => by
      have := List.mem_takeWhile_imp hm
      simp [isNewline] at this
    have ht := List.takeWhile_append_dropWhile (p := (!isNewline ·)) (l := t)
    rw [← ht]
    cases hd : t.dropWhile (!isNewline ·) with
    | nil =>
      by_cases h0 : t.takeWhile (!isNewline ·) = []
      · rw [h0]; exact nil
      · rw [List.append_nil]; exact last _ hr h0
    | cons c cs =>
      have hc : c = '\n' := by
        have := List.head?_dropWhile_not (!isNewline ·) t
        rw [hd] at this
        simpa [isNewline] using this
      subst hc
      refine line _ _ hr (ih cs.length ?_ cs rfl)
      have := congrArg List.length ht
      simp only [hd, List.length_append, List.length_cons] at this
      omega

/-! ### Texts made of whole lines -/

theorem terminated_nil : Terminated [] := .inl rfl

theorem terminated_append_newline (a : Text) : Terminated (a ++ ['\n']) := .inr (by simp)

theorem Terminated.append {a b : Text} (ha : Terminated a) (hb : Terminated b) : Terminated (a ++ b) := by
  rcases hb with rfl | hb
  · rwa [List.append_nil]
  · exact .inr (by simp [List.getLast?_append, hb])

/-- A text that is not empty ends as it does with something in front. -/
theorem terminated_append_iff {a b : Text} (hb : b ≠ []) : Terminated (a ++ b) ↔ Terminated b := by
  simp only [Terminated, List.append_eq_nil_iff, hb, and_false, false_or, List.getLast?_append]
  cases h : b.getLast? with
  | none => exact absurd (List.getLast?_eq_none_iff.1 h) hb
  | some c => simp

theorem terminated_line_iff {r t : Text} : Terminated (r ++ '\n' :: t) ↔ Terminated t := by
  rw [terminated_append_iff (by simp)]
  cases t with
  | nil => simp [Terminated]
  | cons c t => exact terminated_append_iff (a := ['\n']) (by simp)

theorem not_terminated {r : Text} (h : '\n' ∉ r) (hr : r ≠ []) : ¬ Terminated r := by
  rintro (h' | h')
  · exact hr h'
  · exact h (List.mem_of_getLast? h')

/-- A text made of whole lines ends with a newline unless it is empty. -/
theorem Terminated.exists_eq {t : Text} (h : Terminated t) (ht : t ≠ []) : ∃ r, t = r ++ ['\n'] := by
  rcases h with h | h
  · exact absurd h ht
  · exact ⟨t.dropLast, (List.dropLast_append_getLast? _ h).symm⟩

theorem detached_nil : Detached [] := .inl rfl

theorem detached_newline_cons (t : Text) : Detached ('\n' :: t) := .inr rfl

theorem Detached.exists_eq {t : Text} (h : Detached t) (ht : t ≠ []) : ∃ r, t = '\n' :: r := by
  rcases h with h | h
  · exact absurd h ht
  · exact List.head?_eq_some_iff.1 h

/-! ### Raw lines -/

theorem rawLines_line {r : Text} (h : '\n' ∉ r) (t : Text) :
    rawLines (r ++ '\n' :: t) = (r ++ ['\n']) :: rawLines t := by
  induction r with
  | nil => simp [rawLines]
  | cons c r ih =>
    simp only [List.mem_cons, not_or] at h
    simp [rawLines, Ne.symm h.1, ih h.2]

theorem rawLines_of_not_mem {r : Text} (h : '\n' ∉ r) (hr : r ≠ []) : rawLines r = [r] := by
  induction r with
  | nil => exact absurd rfl hr
  | cons c r ih =>
    simp only [List.mem_cons, not_or] at h
    cases r with
    | nil => simp [rawLines, Ne.symm h.1]
    | cons d r => rw [rawLines, if_neg (Ne.symm h.1), ih h.2 (by simp)]

/-- The raw lines of two texts, the first made of whole lines. -/
theorem rawLines_append {a : Text} (ha : Terminated a) (b : Text) :
    rawLines (a ++ b) = rawLines a ++ rawLines b := by
  induction a using lineRec with
  | nil => rfl
  | last r hr h0 => exact absurd ha (not_terminated hr h0)
  | line r t hr ih =>
    rw [List.append_assoc, List.cons_append, rawLines_line hr, rawLines_line hr,
      ih (terminated_line_iff.1 ha), List.cons_append]

theorem rawLines_eq_nil_iff {t : Text} : rawLines t = [] ↔ t = [] := by
  refine ⟨fun h => ?_, fun h => h ▸ rfl⟩
  rw [← rawLines_flatten t, h, List.flatten_nil]

/-- A raw line is a line without newlines with its newline, or the last line of the text. -/
theorem mem_rawLines {t l : Text} (h : l ∈ rawLines t) :
    ∃ r : Text, '\n' ∉ r ∧ (l = r ++ ['\n'] ∨ l = r ∧ r ≠ []) := by
  induction t using lineRec with
  | nil => cases h
  | last r hr h0 =>
    rw [rawLines_of_not_mem hr h0, List.mem_singleton] at h
    exact ⟨r, hr, .inr ⟨h, h0⟩⟩
  | line r t hr ih =>
    rw [rawLines_line hr, List.mem_cons] at h
    rcases h with h | h
    · exact ⟨r, hr, .inl h⟩
    · exact ih h

/-- All raw lines but the last end with a newline. -/
theorem rawLines_take_drop (t : Text) (n : Nat) :
    rawLines ((rawLines t).take n).flatten = (rawLines t).take n ∧
      rawLines ((rawLines t).drop n).flatten = (rawLines t).drop n := by
  induction t using lineRec generalizing n with
  | nil => simp [rawLines]
  | last r hr h0 =>
    rw [rawLines_of_not_mem hr h0]
    cases n with
    | zero => simp [rawLines, rawLines_of_not_mem hr h0]
    | succ n => simp [rawLines, rawLines_of_not_mem hr h0]
  | line r t hr ih =>
    rw [rawLines_line hr]
    cases n with
    | zero => simp [rawLines, rawLines_line hr, rawLines_flatten]
    | succ n =>
      simp only [List.take_succ_cons, List.flatten_cons, List.drop_succ_cons, List.append_assoc,
        List.singleton_append, rawLines_line hr, (ih n).1, (ih n).2, and_self]

/-- The raw lines above a raw line are whole. -/
theorem terminated_take (t : Text) {n : Nat} (h : n < (rawLines t).length) :
    Terminated ((rawLines t).take n).flatten := by
  induction t using lineRec generalizing n with
  | nil => simp [rawLines] at h
  | last r hr h0 =>
    rw [rawLines_of_not_mem hr h0] at h ⊢
    simp only [List.length_singleton, Nat.lt_one_iff] at h
    subst h
    exact terminated_nil
  | line r t hr ih =>
    rw [rawLines_line hr] at h ⊢
    cases n with
    | zero => exact terminated_nil
    | succ n =>
      simp only [List.take_succ_cons, List.flatten_cons, List.append_assoc, List.singleton_append]
      exact terminated_line_iff.2 (ih (by simpa using h))

/-! ### Rows -/

theorem takeWhile_of_not_mem {r : Text} (h : '\n' ∉ r) (t : Text) :
    (r ++ '\n' :: t).takeWhile (!isNewline ·) = r := by
  induction r with
  | nil => simp [isNewline]
  | cons c r ih =>
    simp only [List.mem_cons, not_or] at h
    simp [isNewline, Ne.symm h.1] at ih ⊢
    exact ih h.2

theorem takeWhile_eq_self {r : Text} (h : '\n' ∉ r) : r.takeWhile (!isNewline ·) = r := by
  rw [List.takeWhile_eq_self_iff]
  intro c hc
  simp only [isNewline, Bool.not_eq_true', beq_eq_false_iff_ne]
  exact fun e => h (e ▸ hc)

theorem rows_line {r : Text} (h : '\n' ∉ r) (t : Text) : rows (r ++ '\n' :: t) = r :: rows t := by
  simp only [rows, rawLines_line h, List.map_cons, takeWhile_of_not_mem h]

theorem rows_of_not_mem {r : Text} (h : '\n' ∉ r) (hr : r ≠ []) : rows r = [r] := by
  simp only [rows, rawLines_of_not_mem h hr, List.map_cons, List.map_nil, takeWhile_eq_self h]

theorem rows_append {a : Text} (ha : Terminated a) (b : Text) : rows (a ++ b) = rows a ++ rows b := by
  simp only [rows, rawLines_append ha, List.map_append]

theorem length_rows (t : Text) : (rows t).length = (rawLines t).length := by simp [rows]

theorem rows_take (t : Text) (n : Nat) : rows ((rawLines t).take n).flatten = (rows t).take n := by
  rw [rows, (rawLines_take_drop t n).1, List.map_take, rows]

theorem rows_drop (t : Text) (n : Nat) : rows ((rawLines t).drop n).flatten = (rows t).drop n := by
  rw [rows, (rawLines_take_drop t n).2, List.map_drop, rows]

/-- A newline at the end of a text that ends in a line without one brings no further row. -/
theorem rows_append_newline {t : Text} (h : ¬ Terminated t) : rows (t ++ ['\n']) = rows t := by
  induction t using lineRec with
  | nil => exact absurd terminated_nil h
  | last r hr h0 => rw [rows_line hr, rows_of_not_mem hr h0]; rfl
  | line r t hr ih =>
    rw [terminated_line_iff] at h
    rw [List.append_assoc, List.cons_append, rows_line hr, ih h, rows_line hr]

theorem not_mem_of_mem_rows {t l : Text} (h : l ∈ rows t) : '\n' ∉ l := by
  obtain ⟨r, -, rfl⟩ := List.mem_map.1 h
  intro hm
  have := List.mem_takeWhile_imp hm
  simp [isNewline] at this

/-! ### Solid lines -/

@[simp] theorem solidLines_nil : solidLines [] = [] := rfl

theorem solidLines_line {r : Text} (h : '\n' ∉ r) (t : Text) :
    solidLines (r ++ '\n' :: t) = (if r = [] then [] else [r]) ++ solidLines t := by
  simp only [solidLines, rows_line h, List.filter_cons]
  by_cases hr : r = [] <;> simp [hr]

theorem solidLines_of_not_mem {r : Text} (h : '\n' ∉ r) (hr : r ≠ []) : solidLines r = [r] := by
  simp [solidLines, rows_of_not_mem h hr, hr]

theorem solidLines_append {a : Text} (ha : Terminated a) (b : Text) :
    solidLines (a ++ b) = solidLines a ++ solidLines b := by
  simp only [solidLines, rows_append ha, List.filter_append]

@[simp] theorem solidLines_newline_cons (t : Text) : solidLines ('\n' :: t) = solidLines t := by
  simpa using solidLines_line (r := []) (by simp) t

/-- Two texts with a newline between them have the solid lines of both. -/
theorem solidLines_append_newline (a b : Text) :
    solidLines (a ++ '\n' :: b) = solidLines a ++ solidLines b := by
  induction a using lineRec with
  | nil => simp
  | last r hr h0 => rw [solidLines_line hr, solidLines_of_not_mem hr h0, if_neg h0]
  | line r t hr ih =>
    rw [List.append_assoc, List.cons_append, solidLines_line hr, ih, solidLines_line hr,
      List.append_assoc]

theorem solidLines_append_detached {b : Text} (hb : Detached b) (a : Text) :
    solidLines (a ++ b) = solidLines a ++ solidLines b := by
  by_cases h : b = []
  · simp [h]
  · obtain ⟨r, rfl⟩ := hb.exists_eq h
    rw [solidLines_append_newline, solidLines_newline_cons]

theorem solidLines_of_newlines {t : Text} (h : ∀ c ∈ t, c = '\n') : solidLines t = [] := by
  induction t with
  | nil => rfl
  | cons c t ih =>
    obtain ⟨rfl, h'⟩ := List.forall_mem_cons.1 h
    rw [solidLines_newline_cons, ih h']

theorem solidLines_append_newlines (a : Text) {t : Text} (h : ∀ c ∈ t, c = '\n') :
    solidLines (a ++ t) = solidLines a := by
  cases t with
  | nil => rw [List.append_nil]
  | cons c t =>
    obtain ⟨rfl, h'⟩ := List.forall_mem_cons.1 h
    rw [solidLines_append_newline, solidLines_of_newlines h', List.append_nil]

theorem solidLines_dropNewlines (t : Text) : solidLines (dropNewlines t) = solidLines t := by
  induction t with
  | nil => rfl
  | cons c t ih =>
    by_cases h : c = '\n'
    · subst h
      simpa [dropNewlines, isNewline] using ih
    · simp [dropNewlines, isNewline, h]

theorem dropNewlines_of_head? {t : Text} (h : t.head? ≠ some '\n') : dropNewlines t = t := by
  cases t with
  | nil => rfl
  | cons c t =>
    have hc : c ≠ '\n' := by simpa using h
    simp [dropNewlines, isNewline, hc]

theorem head?_dropNewlines (t : Text) : (dropNewlines t).head? ≠ some '\n' := by
  intro h
  have hn := List.head?_dropWhile_not isNewline t
  rw [dropNewlines] at h
  rw [h] at hn
  cases hn

/-- What is cut off at the end of a list stands below a member that stays. -/
theorem dropEndWhile_append {p : α → Bool} {a b : List α} (hb : ∀ c ∈ b, p c)
    (ha : ∀ c, a.getLast? = some c → ¬ p c) :
    dropEndWhile p (a ++ b) = a ∧ takeEndWhile p (a ++ b) = b := by
  have hb' : ∀ c ∈ b.reverse, p c := fun c hc => hb c (List.mem_reverse.1 hc)
  have h : a.reverse.dropWhile p = a.reverse ∧ a.reverse.takeWhile p = [] := by
    cases hr : a.reverse with
    | nil => simp
    | cons c cs =>
      have hc := ha c (by rw [← List.head?_reverse, hr, List.head?_cons])
      simp [hc]
  simp only [dropEndWhile, takeEndWhile, List.reverse_append, List.dropWhile_append_of_pos hb',
    List.takeWhile_append_of_pos hb', h, List.reverse_reverse, List.append_nil, and_self]

theorem newlines_takeEndWhile (t : Text) : ∀ c ∈ takeEndWhile isNewline t, c = '\n' := by
  intro c hc
  have := List.mem_takeWhile_imp (List.mem_reverse.1 hc)
  simpa [isNewline] using this

theorem solidLines_dropEndNewlines (t : Text) : solidLines (dropEndNewlines t) = solidLines t := by
  have h := dropEndWhile_append_takeEndWhile isNewline t
  rw [← solidLines_append_newlines _ (newlines_takeEndWhile t), dropEndNewlines, h]

theorem mem_solidLines {t l : Text} (h : l ∈ solidLines t) : '\n' ∉ l ∧ l ≠ [] := by
  obtain ⟨h, h0⟩ := List.mem_filter.1 h
  exact ⟨not_mem_of_mem_rows h, by simpa using h0⟩

theorem solidLines_take_append_drop (t : Text) (n : Nat) :
    solidLines ((rawLines t).take n).flatten ++ solidLines ((rawLines t).drop n).flatten = solidLines t := by
  rw [solidLines, solidLines, rows_take, rows_drop, ← List.filter_append, List.take_append_drop, solidLines]

/-- A solid line stands in its text between what is above and what is below it. -/
theorem exists_of_solidLines_eq {t l : Text} {ls ms : List Text} (h : solidLines t = ls ++ l :: ms) :
    ∃ a b, t = a ++ (l ++ b) ∧ Terminated a ∧ Detached b ∧ solidLines a = ls ∧ solidLines b = ms := by
  induction t using lineRec generalizing ls with
  | nil => simp at h
  | last r hr h0 =>
    rw [solidLines_of_not_mem hr h0] at h
    obtain ⟨rfl, h⟩ | ⟨_, _, h⟩ := List.cons_eq_append_iff.1 h
    · cases h
      exact ⟨[], [], by simp, terminated_nil, detached_nil, rfl, rfl⟩
    · simp at h
  | line r t hr ih =>
    rw [solidLines_line hr] at h
    by_cases h0 : r = []
    · subst h0
      obtain ⟨a, b, rfl, ha, hb, hs, hs'⟩ := ih (by simpa using h)
      exact ⟨'\n' :: a, b, rfl, terminated_line_iff (r := []).2 ha, hb, by simpa using hs, hs'⟩
    · rw [if_neg h0, List.singleton_append] at h
      obtain ⟨rfl, h⟩ | ⟨ls, rfl, h⟩ := List.cons_eq_append_iff.1 h
      · cases h
        exact ⟨[], '\n' :: t, rfl, terminated_nil, detached_newline_cons t, rfl, by simp⟩
      · obtain ⟨a, b, rfl, ha, hb, hs, hs'⟩ := ih (List.cons.inj h).2
        refine ⟨r ++ '\n' :: a, b, by simp, terminated_line_iff.2 ha, hb, ?_, hs'⟩
        rw [solidLines_line hr, if_neg h0, hs, List.singleton_append]

/-! ### Words in lines -/

theorem infix_append_newline {word : Text} (hw : '\n' ∉ word) {a b : Text} :
    word <:+: a ++ '\n' :: b ↔ word <:+: a ∨ word <:+: b := by
  constructor
  · rintro ⟨s, e, h⟩
    rcases List.append_eq_append_iff.1 h with ⟨m, rfl, -⟩ | ⟨m, h₁, h₂⟩
    · exact .inl ⟨s, m, rfl⟩
    · rcases List.append_eq_append_iff.1 h₁ with ⟨k, rfl, h₃⟩ | ⟨k, rfl, rfl⟩
      · cases m with
        | nil => exact .inl ⟨s, [], by simp [h₃]⟩
        | cons c m =>
          simp only [List.cons_append, List.cons.injEq] at h₂
          exact absurd (h₃ ▸ List.mem_append_right k (h₂.1 ▸ List.mem_cons_self)) hw
      · cases k with
        | nil =>
          cases word with
          | nil => exact .inl List.nil_infix
          | cons c word =>
            simp only [List.nil_append, List.cons_append, List.cons.injEq] at h₂
            exact absurd (h₂.1 ▸ List.mem_cons_self) hw
        | cons c k =>
          simp only [List.cons_append, List.cons.injEq] at h₂
          exact .inr ⟨k, e, by simp [h₂.2]⟩
  · rintro (h | h)
    · exact h.trans (List.prefix_append a _).isInfix
    · exact h.trans ⟨a ++ ['\n'], [], by simp⟩

/-- A word without newlines stands in a text if it stands in one of its lines. -/
theorem infix_iff_solidLines {word : Text} (hw : '\n' ∉ word) (h0 : word ≠ []) {t : Text} :
    word <:+: t ↔ ∃ l ∈ solidLines t, word <:+: l := by
  induction t using lineRec with
  | nil => simp [h0]
  | last r hr hr0 => simp [solidLines_of_not_mem hr hr0]
  | line r t hr ih =>
    rw [infix_append_newline hw, ih, solidLines_line hr]
    by_cases hr0 : r = [] <;> simp [hr0, h0]

/-- The same for raw lines. -/
theorem infix_iff_rawLines {word : Text} (hw : '\n' ∉ word) (h0 : word ≠ []) {t : Text} :
    word <:+: t ↔ ∃ l ∈ rawLines t, word <:+: l := by
  induction t using lineRec with
  | nil => simp [rawLines, h0]
  | last r hr hr0 => simp [rawLines_of_not_mem hr hr0]
  | line r t hr ih =>
    rw [infix_append_newline hw, ih, rawLines_line hr, List.exists_mem_cons_iff]
    have := infix_append_newline hw (a := r) (b := [])
    rw [this, List.infix_nil, or_iff_left h0]

/-- A word stands in texts that meet at the end of a line if it stands in one of them. -/
theorem infix_append_of_terminated {word : Text} (hw : '\n' ∉ word) {a b : Text} (ha : Terminated a)
    (h : word <:+: a ++ b) : word <:+: a ∨ word <:+: b := by
  by_cases h0 : a = []
  · subst h0
    exact .inr h
  · obtain ⟨r, rfl⟩ := ha.exists_eq h0
    rw [List.append_assoc, List.singleton_append, infix_append_newline hw] at h
    exact h.imp_left fun h => h.trans (List.prefix_append r _).isInfix

end Text
end Marginalia
