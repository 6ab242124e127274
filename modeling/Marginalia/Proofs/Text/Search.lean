/-
# Words in texts

Where a word stands in a text, and how the searches of `Text` find it. A word
that starts with a character it has nowhere else cannot overlap itself, so it
is found again between any two texts, the first of which does not hold it.

Key theorems: `Text.after?_eq_some_iff`, `Text.splitFirst?_eq_none_iff`,
`Text.splitFirst?_append`, `Text.occurrences_append`.
-/
import Mathlib.Data.List.Infix
import Marginalia.Text.Basic

namespace Marginalia
namespace Text

theorem after?_append [DecidableEq α] : ∀ pre l : List α, after? pre (pre ++ l) = some l
  | [], _ => rfl
  | p :: pre, l => by simp [after?, after?_append pre l]

/-- What stands after a beginning is the rest. -/
theorem after?_eq_some_iff [DecidableEq α] {pre l rest : List α} :
    after? pre l = some rest ↔ l = pre ++ rest :=
  ⟨fun h => (after?_eq h).symm, fun h => h ▸ after?_append pre rest⟩

theorem after?_eq_none_iff [DecidableEq α] {pre l : List α} : after? pre l = none ↔ ¬ pre <+: l := by
  rw [← Option.not_isSome_iff_eq_none, Option.isSome_iff_exists]
  simp only [after?_eq_some_iff]
  exact not_congr ⟨fun ⟨r, h⟩ => ⟨r, h.symm⟩, fun ⟨r, h⟩ => ⟨r, h.symm⟩⟩

/-- A word that stands nowhere in a text is not found, and the other way round. -/
theorem splitFirst?_eq_none_iff {word : Text} : ∀ {t : Text}, splitFirst? word t = none ↔ ¬ word <:+: t
  | [] => by
    simp only [splitFirst?, List.infix_nil]
    split <;> simp_all
  | c :: cs => by
    simp only [splitFirst?, List.infix_cons_iff, not_or]
    cases h : after? word (c :: cs) with
    | none =>
      simp only [Option.map_eq_none_iff, splitFirst?_eq_none_iff (t := cs)]
      exact ⟨fun hcs => ⟨after?_eq_none_iff.1 h, hcs⟩, fun hcs => hcs.2⟩
    | some rest =>
      simp only [reduceCtorEq, false_iff, not_and]
      intro hp
      exact absurd ⟨rest, (after?_eq_some_iff.1 h).symm⟩ hp

/-- In front of the first place of a word the word does not stand. -/
theorem not_infix_of_splitFirst? {word : Text} (h0 : word ≠ []) : ∀ {t before rest : Text},
    splitFirst? word t = some (before, rest) → ¬ word <:+: before
  | [], _, _, h => by simp [splitFirst?, h0] at h
  | c :: cs, before, rest, h => by
    rw [splitFirst?] at h
    split at h
    · cases h
      rwa [List.infix_nil]
    · next hn =>
      obtain ⟨⟨b, r⟩, hb, he⟩ := Option.map_eq_some_iff.1 h
      cases he
      have hw := splitFirst?_eq word hb
      rw [List.infix_cons_iff, not_or]
      refine ⟨fun hp => after?_eq_none_iff.1 hn (hp.trans ?_), not_infix_of_splitFirst? h0 hb⟩
      rw [List.cons_prefix_cons]
      exact ⟨rfl, word ++ r, by rw [← hw, List.append_assoc]⟩

/-- A word without characters of the end of a text stands in the text in front of that end. -/
theorem infix_of_infix_append {word : Text} (h0 : word ≠ []) : ∀ {a b : Text}, (∀ c ∈ b, c ∉ word) →
    word <:+: a ++ b → word <:+: a := by
  intro a b
  induction b using List.reverseRecOn with
  | nil => simp
  | append_singleton b c ih =>
    intro hb h
    rw [← List.append_assoc, List.infix_concat_iff] at h
    rcases h with h | h
    · obtain ⟨u, hu⟩ := h
      rcases List.eq_nil_or_concat word with rfl | ⟨w, d, rfl⟩
      · exact absurd rfl h0
      · rw [List.concat_eq_append, ← List.append_assoc] at hu
        have hd := (List.append_inj' hu rfl).2
        rw [List.cons.injEq] at hd
        exact absurd (hd.1 ▸ by simp) (hb c (by simp))
    · exact ih (fun c hc => hb c (by simp [hc])) h

/-! ### Words that do not overlap themselves

`first :: word` stands for such a word: its first character is not in `word`. -/

section

variable {first : Char} {word : Text}

/-- A word that does not start in a text stands in what follows it. -/
theorem infix_of_first_not_mem {a b : Text} (ha : first ∉ a) (h : first :: word <:+: a ++ b) : first :: word <:+: b := by
  induction a with
  | nil => exact h
  | cons c a ih =>
    rw [List.mem_cons, not_or] at ha
    rw [List.cons_append, List.infix_cons_iff, List.cons_prefix_cons] at h
    exact ih ha.2 (h.resolve_left fun h => ha.1 h.1)

/-- The word cannot begin in front of a place where it stands and reach into it. -/
theorem prefix_of_prefix_append (hw : first ∉ word) {a b : Text} (ha : a ≠ [])
    (h : first :: word <+: a ++ first :: (word ++ b)) : first :: word <+: a := by
  rcases List.prefix_or_prefix_of_prefix h (List.prefix_append a _) with h₁ | h₁
  · exact h₁
  · obtain ⟨u, hu⟩ := h₁
    obtain ⟨v, hv⟩ := h
    rw [← hu, List.append_assoc, List.append_cancel_left_eq] at hv
    cases u with
    | nil => rw [← hu, List.append_nil]
    | cons x u =>
      -- the end `x :: u` of the word starts with `first`, as the word itself does
      obtain ⟨y, a, rfl⟩ := List.exists_cons_of_ne_nil ha
      simp only [List.cons_append, List.cons.injEq] at hv hu
      refine absurd ?_ hw
      rw [← hu.2, ← hv.1]
      exact List.mem_append_right a List.mem_cons_self

theorem splitFirst?_append (hw : first ∉ word) {b : Text} : ∀ {a : Text}, ¬ first :: word <:+: a →
    splitFirst? (first :: word) (a ++ first :: (word ++ b)) = some (a, b)
  | [], _ => by
    have h : after? (first :: word) (first :: (word ++ b)) = some b := after?_append (first :: word) b
    simp [splitFirst?, h]
  | c :: a, ha => by
    have h : after? (first :: word) (c :: (a ++ first :: (word ++ b))) = none := by
      rw [after?_eq_none_iff]
      exact fun hp => ha (prefix_of_prefix_append (a := c :: a) hw (by simp) hp).isInfix
    have ha' : ¬ first :: word <:+: a := fun h' => ha (h'.trans (List.suffix_cons c a).isInfix)
    simp [splitFirst?, h, splitFirst?_append hw ha']

theorem occurrences_eq_zero_iff : ∀ {t : Text}, occurrences (first :: word) t = 0 ↔ ¬ first :: word <:+: t
  | [] => by simp [occurrences]
  | c :: cs => by
    simp only [occurrences, Nat.add_eq_zero_iff, occurrences_eq_zero_iff (t := cs), List.infix_cons_iff,
      not_or, ← after?_eq_none_iff]
    cases after? (first :: word) (c :: cs) <;> simp

theorem occurrences_append_of_not_mem (b : Text) : ∀ {a : Text}, first ∉ a →
    occurrences (first :: word) (a ++ b) = occurrences (first :: word) b
  | [], _ => rfl
  | c :: a, h => by
    simp only [List.mem_cons, not_or] at h
    have := occurrences_append_of_not_mem b h.2
    simp [occurrences, after?, h.1, this]

/-- The word stands once more in a text in which it is put between two others. -/
theorem occurrences_append (hw : first ∉ word) (b : Text) : ∀ a : Text,
    occurrences (first :: word) (a ++ first :: (word ++ b)) =
      occurrences (first :: word) a + 1 + occurrences (first :: word) b
  | [] => by
    have h : after? (first :: word) (first :: (word ++ b)) = some b := after?_append (first :: word) b
    simp [occurrences, h, occurrences_append_of_not_mem b hw]
  | c :: a => by
    have h : (after? (first :: word) (c :: (a ++ first :: (word ++ b)))).isSome =
        (after? (first :: word) (c :: a)).isSome := by
      rw [Bool.eq_iff_iff, Option.isSome_iff_ne_none, Option.isSome_iff_ne_none, ne_eq, ne_eq,
        after?_eq_none_iff, after?_eq_none_iff, not_not, not_not]
      exact ⟨fun hp => prefix_of_prefix_append (a := c :: a) hw (by simp) hp,
        fun hp => hp.trans (List.prefix_append (c :: a) _)⟩
    have ih := occurrences_append hw b a
    simp only [List.cons_append, occurrences, h] at ih ⊢
    omega

end

end Text
end Marginalia
