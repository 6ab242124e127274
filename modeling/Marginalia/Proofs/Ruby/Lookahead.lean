/-
# How far the reader looks ahead

But for block comments and faulty names, the reader looks at no more than the
line at hand. So texts that begin with the same line look the same to it
(`Ruby.SameLine`): they hold the same names, operators, and announcements of
quoted stretches. Whether a newline ends the line or the text does hardly makes
a difference (`Ruby.ahead`). The end of a block comment is looked for line by
line.

Key definitions: `Ruby.ahead`, `Ruby.lineLength`, `Ruby.SameLine`, `Ruby.SameCut`.
Key theorems: `Ruby.SameLine.head_cases`, `Ruby.SameLine.nameAt_eq`, `Ruby.SameLine.sameCut_percentQuote?`,
`Ruby.SameLine.sameCut_heredoc?`, `Ruby.Reader.afterBlockComment?_append`.
-/
import Mathlib.Data.List.Find
import Marginalia.Proofs.Ruby.Progress
import Marginalia.Proofs.Text.Lines

namespace Marginalia

namespace Text

theorem Terminated.of_cons {c : Char} {x : Text} (h : Terminated (c :: x)) : Terminated x := by
  cases x with
  | nil => exact terminated_nil
  | cons d x => exact (terminated_append_iff (a := [c]) (List.cons_ne_nil d x)).1 h

theorem Terminated.eq_cons {c : Char} {x : Text} (h : Terminated (c :: x)) (hc : c ≠ '\n') : ∃ d y, x = d :: y := by
  cases x with
  | nil => simp [Terminated, hc] at h
  | cons d y => exact ⟨d, y, rfl⟩

theorem Terminated.dropWhile_append {x : Text} (h : Terminated x) (hx : x ≠ []) (t : Text) :
    (x ++ t).dropWhile (· != '\n') = x.dropWhile (· != '\n') ++ t ∧ Terminated (x.dropWhile (· != '\n')) ∧
      x.dropWhile (· != '\n') ≠ [] := by
  induction x with
  | nil => exact absurd rfl hx
  | cons c x ih =>
    by_cases hc : c = '\n'
    · simpa [hc] using h
    · obtain ⟨d, y, rfl⟩ := h.eq_cons hc
      simpa [hc] using ih h.of_cons (List.cons_ne_nil d y)

/-- In whole lines, a mark without a newline is found above what follows them. -/
theorem Terminated.after?_append {x m : Text} (hx : Terminated x) (hm : '\n' ∉ m) (t : Text) (hne : x ≠ []) :
    after? m (x ++ t) = (after? m x).map (· ++ t) ∧ ∀ u ∈ after? m x, Terminated u ∧ u ≠ [] := by
  induction m generalizing x with
  | nil =>
    have hnil (t : Text) : after? [] t = some t := by cases t <;> rfl
    simp [hnil, hx, hne]
  | cons d m ih =>
    rw [List.mem_cons, not_or] at hm
    cases x with
    | nil => exact absurd rfl hne
    | cons c x =>
      simp only [List.cons_append, after?]
      split
      · next he =>
        subst he
        obtain ⟨e, y, rfl⟩ := hx.eq_cons (Ne.symm hm.1)
        exact ih hx.of_cons hm.2 (List.cons_ne_nil e y)
      · simp

end Text

namespace Ruby

/-- The number of characters before the first newline. -/
def lineLength (t : Text) : Nat := (t.takeWhile (· != '\n')).length

/-- The character at hand; the end of the text counts as the end of a line. -/
def ahead (t : Text) : Char := t.head?.getD '\n'

/-- The texts are equal up to the end of their first line, or they are equal. -/
inductive SameLine : Text → Text → Prop
  /-- A text and itself. -/
  | same (t : Text) : SameLine t t
  /-- A line that the end of the first text ends. -/
  | ending (t : Text) : SameLine [] ('\n' :: t)
  /-- What stands on other lines does not matter. -/
  | newline (t t' : Text) : SameLine ('\n' :: t) ('\n' :: t')
  /-- The same character in front. -/
  | cons {t t' : Text} (c : Char) (h : SameLine t t') : SameLine (c :: t) (c :: t')

@[simp] theorem ahead_nil : ahead [] = '\n' := rfl

@[simp] theorem ahead_cons (c : Char) (t : Text) : ahead (c :: t) = c := rfl

theorem eq_cons_of_ahead {c : Char} {t : Text} (h : ahead t = c) (hc : c ≠ '\n') : t = c :: t.tail := by
  cases t with
  | nil => exact absurd h.symm hc
  | cons d t => rw [← h]; rfl

/-- A mark at hand is the character at hand, unless it is a newline. -/
theorem head?_eq_some_iff {c : Char} (hc : c ≠ '\n') (t : Text) : t.head? = some c ↔ ahead t = c := by
  cases t with
  | nil => simp [Ne.symm hc]
  | cons d t => simp

theorem any_head? {p : Char → Bool} (hp : p '\n' = false) (t : Text) : t.head?.any p = p (ahead t) := by
  cases t with
  | nil => exact hp.symm
  | cons c t => rfl

theorem lineLength_cons {c : Char} (hc : c ≠ '\n') (t : Text) : lineLength (c :: t) = lineLength t + 1 := by
  simp [lineLength, hc]

theorem lineLength_le (t : Text) : lineLength t ≤ t.length := (List.takeWhile_prefix _).length_le

/-- What is taken of a line is no longer than the line. -/
theorem length_takeWhile_le_lineLength {p : Char → Bool} (hp : p '\n' = false) :
    ∀ t : Text, (t.takeWhile p).length ≤ lineLength t
  | [] => Nat.le_refl _
  | c :: t => by
    by_cases hc : p c
    · have hne : c ≠ '\n' := fun he => by rw [he, hp] at hc; cases hc
      rw [List.takeWhile_cons_of_pos hc, lineLength_cons hne]
      exact Nat.succ_le_succ (length_takeWhile_le_lineLength hp t)
    · rw [List.takeWhile_cons_of_neg hc]
      exact Nat.zero_le _

theorem lineLength_drop {n : Nat} {t : Text} (h : n ≤ lineLength t) : lineLength (t.drop n) = lineLength t - n := by
  induction n generalizing t with
  | zero => rfl
  | succ n ih =>
    cases t with
    | nil => simp [lineLength]
    | cons c t =>
      by_cases hc : c = '\n'
      · simp [lineLength, hc] at h
      · rw [lineLength_cons hc] at h ⊢
        rw [List.drop_succ_cons, ih (by omega)]
        omega

theorem nameMark_cons (c : Char) (t : Text) : nameMark (c :: t) =
    if c = '?' ∨ c = '!' then
      if ahead t = '=' ∧ ['=', '~', '>'].contains (ahead t.tail) = false then [] else [c]
    else [] := by
  simp only [nameMark]
  by_cases hm : c = '?' ∨ c = '!'
  · rw [if_pos hm, if_pos hm]
    split
    · rfl
    · rfl
    · rfl
    · next rest h₁ h₂ h₃ => cases rest <;> simp_all
    · next h => cases t <;> simp_all
  · rw [if_neg hm, if_neg hm]

namespace SameLine

variable {t t' : Text} {n : Nat} {p : Char → Bool}

/-- Texts begin with the same line if a text that ends with a newline stands in front of both. -/
theorem of_append {x : Text} (h : x.getLast? = some '\n') (t t' : Text) : SameLine (x ++ t) (x ++ t') := by
  induction x with
  | nil => cases h
  | cons c x ih =>
    cases x with
    | nil =>
      obtain rfl : c = '\n' := by simpa using h
      exact .newline t t'
    | cons d x => exact .cons c (ih (by simpa using h))

/-- A text and what goes on below it begin with the same line. -/
theorem append_newline (x u : Text) : SameLine x (x ++ '\n' :: u) := by
  induction x with
  | nil => exact .ending u
  | cons c x ih => exact .cons c ih

/-- The texts are at the end of a line, or begin with the same character of the same line. -/
theorem head_cases (h : SameLine t t') :
    ((t = [] ∨ ∃ u, t = '\n' :: u) ∧ (t' = [] ∨ ∃ u', t' = '\n' :: u')) ∨
      ∃ c u u', c ≠ '\n' ∧ t = c :: u ∧ t' = c :: u' ∧ SameLine u u' := by
  cases h with
  | same t =>
    cases t with
    | nil => exact .inl ⟨.inl rfl, .inl rfl⟩
    | cons c u =>
      by_cases hc : c = '\n'
      · subst hc
        exact .inl ⟨.inr ⟨u, rfl⟩, .inr ⟨u, rfl⟩⟩
      · exact .inr ⟨c, u, u, hc, rfl, rfl, .same u⟩
  | ending u => exact .inl ⟨.inl rfl, .inr ⟨u, rfl⟩⟩
  | newline u u' => exact .inl ⟨.inr ⟨u, rfl⟩, .inr ⟨u', rfl⟩⟩
  | @cons u u' c h =>
    by_cases hc : c = '\n'
    · subst hc
      exact .inl ⟨.inr ⟨u, rfl⟩, .inr ⟨u', rfl⟩⟩
    · exact .inr ⟨c, u, u', hc, rfl, rfl, h⟩

theorem eq_newline_cons {u : Text} (h : SameLine ('\n' :: u) t') : ∃ u', t' = '\n' :: u' := by
  cases h with
  | same | newline => exact ⟨_, rfl⟩
  | cons _ _ => exact ⟨_, rfl⟩

theorem ne_nil (h : SameLine t t') (ht : t ≠ []) : t' ≠ [] := by
  cases h with
  | same => exact ht
  | ending => exact absurd rfl ht
  | newline | cons => exact List.cons_ne_nil _ _

/-- A line that goes on in the next one does so in both texts. -/
theorem continues (h : SameLine t t') (ht : t.head? = some '\n' ∨ t.take 2 = ['\x0d', '\n']) :
    t'.head? = some '\n' ∨ t'.take 2 = ['\x0d', '\n'] := by
  rcases ht with ht | ht
  · obtain ⟨u, rfl⟩ := List.head?_eq_some_iff.1 ht
    obtain ⟨u', rfl⟩ := h.eq_newline_cons
    exact .inl rfl
  · obtain ⟨u, rfl⟩ : ∃ u, t = '\x0d' :: '\n' :: u := ⟨t.drop 2, by
      conv => lhs; rw [← List.take_append_drop 2 t, ht]
      rfl⟩
    rcases h.head_cases with ⟨h₁ | ⟨v, h₁⟩, -⟩ | ⟨c, v, v', -, h₁, rfl, hv⟩
    · cases h₁
    · cases h₁
    · cases h₁
      obtain ⟨u', rfl⟩ := hv.eq_newline_cons
      exact .inr rfl

theorem takeWhile_eq (h : SameLine t t') (hp : p '\n' = false) : t'.takeWhile p = t.takeWhile p := by
  induction h with
  | same t => rfl
  | ending t => rw [List.takeWhile_cons_of_neg (by simp [hp]), List.takeWhile_nil]
  | newline t t' => rw [List.takeWhile_cons_of_neg (by simp [hp]), List.takeWhile_cons_of_neg (by simp [hp])]
  | cons c _ ih => rw [List.takeWhile_cons, List.takeWhile_cons, ih]

theorem lineLength_eq (h : SameLine t t') : lineLength t' = lineLength t := by
  rw [lineLength, lineLength, h.takeWhile_eq rfl]

theorem drop (h : SameLine t t') (hn : n ≤ lineLength t) : SameLine (t.drop n) (t'.drop n) := by
  induction n generalizing t t' with
  | zero => exact h
  | succ n ih =>
    rcases h.head_cases with ⟨rfl | ⟨u, rfl⟩, -⟩ | ⟨c, u, u', hc, rfl, rfl, hu⟩
    · simp [lineLength] at hn
    · simp [lineLength] at hn
    · rw [lineLength_cons hc] at hn
      exact ih hu (by omega)

theorem dropWhile (h : SameLine t t') (hp : p '\n' = false) : SameLine (t.dropWhile p) (t'.dropWhile p) := by
  rw [← Reader.drop_length_takeWhile, ← Reader.drop_length_takeWhile, h.takeWhile_eq hp]
  exact h.drop (length_takeWhile_le_lineLength hp t)

theorem ahead_eq (h : SameLine t t') : ahead t' = ahead t := by
  rcases h.head_cases with ⟨rfl | ⟨u, rfl⟩, rfl | ⟨u', rfl⟩⟩ | ⟨c, u, u', hc, rfl, rfl, hu⟩ <;> rfl

/-! ### Words -/

theorem nameMark_eq (h : SameLine t t') : nameMark t' = nameMark t := by
  rcases h.head_cases with ⟨rfl | ⟨u, rfl⟩, rfl | ⟨u', rfl⟩⟩ | ⟨c, u, u', hc, rfl, rfl, hu⟩
  · rfl
  · rfl
  · rfl
  · rfl
  rw [nameMark_cons, nameMark_cons, hu.ahead_eq]
  rcases hu.head_cases with ⟨rfl | ⟨v, rfl⟩, rfl | ⟨v', rfl⟩⟩ | ⟨d, v, v', hd, rfl, rfl, hv⟩
  · rfl
  · rfl
  · rfl
  · rfl
  rw [List.tail_cons, List.tail_cons, hv.ahead_eq]

theorem nameAt_eq (h : SameLine t t') : nameAt t' = nameAt t := by
  rw [nameAt, nameAt, h.takeWhile_eq (by decide), (h.dropWhile (by decide)).nameMark_eq]

end SameLine

theorem nameMark_length_le (t : Text) : (nameMark t).length ≤ lineLength t := by
  cases t with
  | nil => exact Nat.le_refl _
  | cons c t =>
    rw [nameMark_cons]
    split
    · next hm =>
      have hc : c ≠ '\n' := by rintro rfl; revert hm; decide
      rw [lineLength_cons hc]
      split <;> simp
    · exact Nat.zero_le _

/-- A name ends where its line ends, at the latest. -/
theorem length_nameAt_le (t : Text) : (nameAt t).length ≤ lineLength t := by
  have h₁ := length_takeWhile_le_lineLength (p := isNameChar) (by decide) t
  have h₂ := nameMark_length_le (t.dropWhile isNameChar)
  rw [← Reader.drop_length_takeWhile, lineLength_drop h₁, Reader.drop_length_takeWhile] at h₂
  rw [nameAt, List.length_append]
  omega

/-- What stands in front of a text ends where its line ends, at the latest, if it holds no newline. -/
theorem length_le_lineLength {x t : Text} (h : x <+: t) (hx : '\n' ∉ x) : x.length ≤ lineLength t := by
  obtain ⟨u, rfl⟩ := h
  induction x with
  | nil => exact Nat.zero_le _
  | cons c x ih =>
    rw [List.mem_cons, not_or] at hx
    rw [List.cons_append, lineLength_cons (Ne.symm hx.1), List.length_cons]
    exact Nat.succ_le_succ (ih hx.2)

theorem not_mem_operatorNames : ∀ op ∈ operatorNames.map String.toList, '\n' ∉ op := by decide

theorem length_operatorNameAt?_le {t op : Text} (h : operatorNameAt? t = some op) : op.length ≤ lineLength t := by
  have hop : op.isPrefixOf t := by simpa using List.find?_some h
  exact length_le_lineLength (List.isPrefixOf_iff_prefix.1 hop)
    (not_mem_operatorNames op (List.mem_of_find?_eq_some h))

/-! ### Announcements -/

/-- Nothing is found in both texts, or the same is found, and as much of both lines belongs to it. -/
def SameCut {α : Type} (t t' : Text) (o o' : Option (α × Text)) : Prop :=
  o = none ∧ o' = none ∨ ∃ a n, n ≤ lineLength t ∧ o = some (a, t.drop n) ∧ o' = some (a, t'.drop n)

theorem heredoc?_cons (c : Char) (t : Text) :
    heredoc? (c :: t) = if c = '~' ∨ c = '-' then heredocWord? true t else heredocWord? false (c :: t) := by
  unfold heredoc?
  split <;> simp_all

theorem SameCut.cons {α : Type} {t t' : Text} {o o' : Option (α × Text)} {c : Char} (hc : c ≠ '\n')
    (h : SameCut t t' o o') : SameCut (c :: t) (c :: t') o o' :=
  h.imp_right fun ⟨a, n, hn, ho, ho'⟩ => ⟨a, n + 1, by rw [lineLength_cons hc]; omega, ho, ho'⟩

namespace SameLine

variable {t t' : Text}

theorem isPrefixOf_eq (h : SameLine t t') {x : Text} (hx : '\n' ∉ x) : x.isPrefixOf t' = x.isPrefixOf t := by
  induction x generalizing t t' with
  | nil => rw [List.isPrefixOf_nil_left, List.isPrefixOf_nil_left]
  | cons d x ih =>
    rw [List.mem_cons, not_or] at hx
    have hd : (d == '\n') = false := by simpa using Ne.symm hx.1
    rcases h.head_cases with ⟨rfl | ⟨u, rfl⟩, rfl | ⟨u', rfl⟩⟩ | ⟨c, u, u', hc, rfl, rfl, hu⟩
    · rfl
    · simp [List.isPrefixOf_cons_cons, hd]
    · simp [List.isPrefixOf_cons_cons, hd]
    · simp [List.isPrefixOf_cons_cons, hd]
    · rw [List.isPrefixOf_cons_cons, List.isPrefixOf_cons_cons, ih hu hx.2]

theorem operatorNameAt?_eq (h : SameLine t t') : operatorNameAt? t' = operatorNameAt? t :=
  List.find?_congr fun op hop => h.isPrefixOf_eq (not_mem_operatorNames op hop)

theorem endsAt_eq (h : SameLine t t') (doc : Heredoc) : doc.endsAt t' = doc.endsAt t := by
  rw [Heredoc.endsAt, Heredoc.endsAt, h.takeWhile_eq rfl]

/-- What follows a mark begins with the same line. -/
theorem after?_cases (h : SameLine t t') {x : Text} (hx : '\n' ∉ x) :
    Text.after? x t = none ∧ Text.after? x t' = none ∨
      ∃ u u', Text.after? x t = some u ∧ Text.after? x t' = some u' ∧ SameLine u u' := by
  induction x generalizing t t' with
  | nil => exact .inr ⟨t, t', by cases t <;> rfl, by cases t' <;> rfl, h⟩
  | cons d x ih =>
    rw [List.mem_cons, not_or] at hx
    rcases h.head_cases with ⟨rfl | ⟨u, rfl⟩, rfl | ⟨u', rfl⟩⟩ | ⟨c, u, u', hc, rfl, rfl, hu⟩
    · exact .inl ⟨rfl, rfl⟩
    · simp [Text.after?, Ne.symm hx.1]
    · simp [Text.after?, Ne.symm hx.1]
    · simp [Text.after?, Ne.symm hx.1]
    · simp only [Text.after?]
      split
      · exact ih hu hx.2
      · exact .inl ⟨rfl, rfl⟩

theorem sameCut_delimiter? (h : SameLine t t') (interpolates flagged : Bool) :
    SameCut t t' (delimiter? interpolates flagged t) (delimiter? interpolates flagged t') := by
  rcases h.head_cases with ⟨rfl | ⟨u, rfl⟩, rfl | ⟨u', rfl⟩⟩ | ⟨c, u, u', hc, rfl, rfl, hu⟩
  · exact .inl ⟨rfl, rfl⟩
  · exact .inl ⟨rfl, rfl⟩
  · exact .inl ⟨rfl, rfl⟩
  · exact .inl ⟨rfl, rfl⟩
  · simp only [delimiter?]
    split
    · exact .inr ⟨_, 1, by rw [lineLength_cons hc]; omega, rfl, rfl⟩
    · exact .inl ⟨rfl, rfl⟩

theorem sameCut_percentQuote? (h : SameLine t t') : SameCut t t' (percentQuote? t) (percentQuote? t') := by
  rcases h.head_cases with ⟨rfl | ⟨u, rfl⟩, rfl | ⟨u', rfl⟩⟩ | ⟨k, u, u', hk, rfl, rfl, hu⟩
  · exact .inl ⟨rfl, rfl⟩
  · exact .inl ⟨rfl, rfl⟩
  · exact .inl ⟨rfl, rfl⟩
  · exact .inl ⟨rfl, rfl⟩
  simp only [percentQuote?]
  split
  · exact (hu.sameCut_delimiter? false false).cons hk
  split
  · exact (hu.sameCut_delimiter? true (k == 'r')).cons hk
  · exact h.sameCut_delimiter? true false

theorem sameCut_heredocWord? (h : SameLine t t') (indented : Bool) :
    SameCut t t' (heredocWord? indented t) (heredocWord? indented t') := by
  rcases h.head_cases with ⟨rfl | ⟨u, rfl⟩, rfl | ⟨u', rfl⟩⟩ | ⟨q, u, u', hq, rfl, rfl, hu⟩
  · exact .inl ⟨rfl, rfl⟩
  · exact .inl ⟨rfl, rfl⟩
  · exact .inl ⟨rfl, rfl⟩
  · exact .inl ⟨rfl, rfl⟩
  unfold heredocWord?
  dsimp only
  split
  · have hp : (fun c => c != q && c != '\n') '\n' = false := by simp
    have hle := length_takeWhile_le_lineLength (p := fun c => c != q && c != '\n') hp u
    rw [hu.takeWhile_eq hp]
    generalize u.takeWhile (fun c => c != q && c != '\n') = word at hle ⊢
    rcases (hu.drop hle).head_cases with ⟨h₁ | ⟨v, h₁⟩, h₂ | ⟨v', h₂⟩⟩ | ⟨c, v, v', hc, h₁, h₂, hv⟩
    · simp only [h₁, h₂]
      exact .inl ⟨rfl, rfl⟩
    · simp only [h₁, h₂, Ne.symm hq, false_and, if_false]
      exact .inl ⟨rfl, rfl⟩
    · simp only [h₁, h₂, Ne.symm hq, false_and, if_false]
      exact .inl ⟨rfl, rfl⟩
    · simp only [h₁, h₂, Ne.symm hq, false_and, if_false]
      exact .inl ⟨rfl, rfl⟩
    · have hlen := lineLength_drop hle
      rw [h₁, lineLength_cons hc] at hlen
      have htail {u v : Text} (h : u.drop word.length = c :: v) : v = (q :: u).drop (word.length + 2) := by
        rw [List.drop_succ_cons, ← List.tail_drop, h, List.tail_cons]
      simp only [h₁, h₂]
      split
      · rw [htail h₁, htail h₂]
        exact .inr ⟨_, word.length + 2, by rw [lineLength_cons hq]; omega, rfl, rfl⟩
      · exact .inl ⟨rfl, rfl⟩
  · split
    · have hp : isNameChar '\n' = false := by decide
      rw [h.takeWhile_eq hp, ← Reader.drop_length_takeWhile, ← Reader.drop_length_takeWhile, h.takeWhile_eq hp]
      exact .inr ⟨_, _, length_takeWhile_le_lineLength hp _, rfl, rfl⟩
    · exact .inl ⟨rfl, rfl⟩

theorem sameCut_heredoc? (h : SameLine t t') : SameCut t t' (heredoc? t) (heredoc? t') := by
  rcases h.head_cases with ⟨rfl | ⟨u, rfl⟩, rfl | ⟨u', rfl⟩⟩ | ⟨c, u, u', hc, rfl, rfl, hu⟩
  · exact .inl ⟨rfl, rfl⟩
  · exact .inl ⟨rfl, rfl⟩
  · exact .inl ⟨rfl, rfl⟩
  · exact .inl ⟨rfl, rfl⟩
  rw [heredoc?_cons, heredoc?_cons]
  split
  · exact (hu.sameCut_heredocWord? true).cons hc
  · exact h.sameCut_heredocWord? false

end SameLine

/-! ### Block comments -/

/-- The mark that ends a block comment is looked for line by line. -/
theorem Reader.afterEndMark?_append {x : Text} (h : Text.Terminated x) (t : Text) : Reader.afterEndMark? (x ++ t) =
    (Reader.afterEndMark? x).elim (Reader.afterEndMark? t) fun a => some (a ++ t) := by
  fun_induction Reader.afterEndMark? x with
  | case1 rest =>
    obtain ⟨d, y, rfl⟩ := h.of_cons.of_cons.of_cons.eq_cons (by decide)
    rw [Option.elim_some, ← (Text.Terminated.dropWhile_append h.of_cons.of_cons.of_cons.of_cons (List.cons_ne_nil d y) t).1]
    rfl
  | case2 c rest hc ih =>
    rw [← ih h.of_cons.of_cons.of_cons.of_cons]
    exact Reader.afterEndMark?.eq_2 c (rest ++ t) hc
  | case3 c rest _ hn ih =>
    have hc : c ≠ 'n' := by
      rintro rfl
      obtain ⟨d, y, rfl⟩ := h.of_cons.of_cons.eq_cons (by decide)
      exact hn d y rfl rfl
    rw [← ih h.of_cons.of_cons.of_cons]
    exact Reader.afterEndMark?.eq_3 c (rest ++ t) (fun _ he => absurd he hc) fun _ _ he => absurd he hc
  | case4 c rest _ _ he ih =>
    have hc : c ≠ 'e' := by
      rintro rfl
      obtain ⟨d, y, rfl⟩ := h.of_cons.eq_cons (by decide)
      exact he d y rfl rfl
    rw [← ih h.of_cons.of_cons]
    exact Reader.afterEndMark?.eq_4 c (rest ++ t) (fun _ he => absurd he hc) (fun _ _ he => absurd he hc)
      fun _ _ he => absurd he hc
  | case5 c rest _ _ _ hm ih =>
    have hc : c ≠ '=' := by
      rintro rfl
      obtain ⟨d, y, rfl⟩ := h.eq_cons (by decide)
      exact hm d y rfl rfl
    rw [← ih h.of_cons]
    exact Reader.afterEndMark?.eq_5 c (rest ++ t) (fun _ he => absurd he hc) (fun _ _ he => absurd he hc)
      (fun _ _ he => absurd he hc) fun _ _ he => absurd he hc
  | case6 => rfl

theorem Reader.afterEndMark?_newline (t : Text) : Reader.afterEndMark? ('\n' :: t) = Reader.afterEndMark? t :=
  Reader.afterEndMark?.eq_5 '\n' t (fun _ h => absurd h (by decide)) (fun _ _ h => absurd h (by decide))
    (fun _ _ h => absurd h (by decide)) fun _ _ h => absurd h (by decide)

/-- A newline at the end of a text ends no block comment. -/
theorem Reader.afterEndMark?_append_newline (x : Text) :
    Reader.afterEndMark? (x ++ ['\n']) = (Reader.afterEndMark? x).map (· ++ ['\n']) := by
  fun_induction Reader.afterEndMark? x with
  | case1 rest =>
    show some ((rest ++ ['\n']).dropWhile (· != '\n')) = some (rest.dropWhile (· != '\n') ++ ['\n'])
    rw [List.dropWhile_append]
    split
    · next h => rw [List.isEmpty_iff.1 h]; rfl
    · rfl
  | case2 c rest hc ih => exact (Reader.afterEndMark?.eq_2 c (rest ++ ['\n']) hc).trans ih
  | case3 c rest hd hn ih =>
    by_cases hc : c = 'n'
    · subst hc
      cases rest with
      | nil => rfl
      | cons e rest => exact absurd rfl (hn e rest rfl)
    · refine Eq.trans (Reader.afterEndMark?.eq_3 c (rest ++ ['\n']) (fun _ he => absurd he hc) fun _ _ he => absurd he hc) ih
  | case4 c rest hd hn he ih =>
    by_cases hc : c = 'e'
    · subst hc
      cases rest with
      | nil => rfl
      | cons f rest => exact absurd rfl (he f rest rfl)
    · exact Eq.trans (Reader.afterEndMark?.eq_4 c (rest ++ ['\n']) (fun _ he => absurd he hc) (fun _ _ he => absurd he hc)
        fun _ _ he => absurd he hc) ih
  | case5 c rest hd hn he hm ih =>
    by_cases hc : c = '='
    · subst hc
      cases rest with
      | nil => rfl
      | cons f rest => exact absurd rfl (hm f rest rfl)
    · exact Eq.trans (Reader.afterEndMark?.eq_5 c (rest ++ ['\n']) (fun _ he => absurd he hc) (fun _ _ he => absurd he hc)
        (fun _ _ he => absurd he hc) fun _ _ he => absurd he hc) ih
  | case6 => rfl

/-- What is left after a block comment of whole lines begins with the end of a line. -/
theorem Reader.afterEndMark?_ne_nil {x a : Text} (h : Text.Terminated x) (ha : Reader.afterEndMark? x = some a) : a ≠ [] := by
  fun_induction Reader.afterEndMark? x with
  | case1 rest =>
    cases ha
    obtain ⟨d, y, rfl⟩ := h.of_cons.of_cons.of_cons.eq_cons (by decide)
    exact (Text.Terminated.dropWhile_append h.of_cons.of_cons.of_cons.of_cons (List.cons_ne_nil d y) []).2.2
  | case2 c rest hc ih => exact ih h.of_cons.of_cons.of_cons.of_cons ha
  | case3 c rest _ _ ih => exact ih h.of_cons.of_cons.of_cons ha
  | case4 c rest _ _ _ ih => exact ih h.of_cons.of_cons ha
  | case5 c rest _ _ _ _ ih => exact ih h.of_cons ha
  | case6 => cases ha

/-- A block comment that begins in whole lines ends there, or is looked for below. -/
theorem Reader.afterBlockComment?_append {x : Text} (h : Text.Terminated x) (hne : x ≠ []) (t : Text) :
    (∃ a, a ≠ [] ∧ Reader.afterBlockComment? x = some a ∧ Reader.afterBlockComment? (x ++ t) = some (a ++ t)) ∨
    Reader.afterBlockComment? x = none ∧
     Reader.afterBlockComment? (x ++ t) = if (Text.after? "=begin".toList x).isSome then Reader.afterEndMark? t else none := by
  unfold Reader.afterBlockComment?
  obtain ⟨h₁, h₂⟩ := h.after?_append (m := "=begin".toList) (by decide) t hne
  rw [h₁]
  cases hb : Text.after? "=begin".toList x with
  | none => exact .inr ⟨rfl, rfl⟩
  | some u =>
    obtain ⟨hu, hune⟩ := h₂ u hb
    obtain ⟨h₃, h₄, h₅⟩ := hu.dropWhile_append hune t
    simp only [Option.map_some, h₃, Option.isSome_some, if_true]
    cases hd : u.dropWhile (· != '\n') with
    | nil => exact absurd hd h₅
    | cons c v =>
      have hv : Text.Terminated v := (hd ▸ h₄).of_cons
      simp only [List.cons_append, Reader.afterEndMark?_append hv]
      cases he : Reader.afterEndMark? v with
      | none => exact .inr ⟨rfl, rfl⟩
      | some a => exact .inl ⟨a, Reader.afterEndMark?_ne_nil hv he, rfl, rfl⟩

theorem after?_append_newline {m : Text} (hm : '\n' ∉ m) (x : Text) :
    Text.after? m (x ++ ['\n']) = (Text.after? m x).map (· ++ ['\n']) := by
  induction m generalizing x with
  | nil => cases x <;> rfl
  | cons d m ih =>
    rw [List.mem_cons, not_or] at hm
    cases x with
    | nil => simp [Text.after?, Ne.symm hm.1]
    | cons c x =>
      simp only [List.cons_append, Text.after?]
      split
      · exact ih hm.2 x
      · rfl

/-- A newline at the end of a text ends no block comment. -/
theorem Reader.afterBlockComment?_append_newline (x : Text) :
    Reader.afterBlockComment? (x ++ ['\n']) = (Reader.afterBlockComment? x).map (· ++ ['\n']) := by
  unfold Reader.afterBlockComment?
  rw [after?_append_newline (by decide)]
  cases Text.after? "=begin".toList x with
  | none => rfl
  | some y =>
    simp only [Option.map_some]
    rw [List.dropWhile_append]
    cases hd : y.dropWhile (· != '\n') with
    | nil => rfl
    | cons c z => exact Reader.afterEndMark?_append_newline z

end Ruby
end Marginalia
