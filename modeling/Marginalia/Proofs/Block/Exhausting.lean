/-
# Removal leaves no block behind

`Block.exciseAll` takes out the first block of a tag for as long as there is
one. What is left of the text on both sides of a block may come together to a
block that was not there before, so the number of blocks of the text does not
bound the number of rounds; but every round takes at least two markers along
(`Block.Rounds.length_le`). When no block is left, blank runs are folded, and as
no marker holds a newline, folding brings no block back
(`Excerpt.find?_foldBlankRuns_eq_none`).

Key definition: `Block.Rounds`.
Key theorems: `Excerpt.find?_eq_none_iff`, `Text.exists_of_go_eq`, `Block.removeAll_exhausts`.
-/
import Marginalia.Proofs.Block.Restoring

namespace Marginalia
namespace Text

open foldBlankRuns (go)

/-- The first place of a word is not below another one. -/
theorem isSuffix_of_splitFirst? {word : Text} : ∀ {t before rest a b : Text},
    splitFirst? word t = some (before, rest) → t = a ++ (word ++ b) → b <:+ rest
  | [], before, rest, a, b, h, ht => by
    obtain ⟨-, hb⟩ := List.append_eq_nil_iff.1 ht.symm
    rw [(List.append_eq_nil_iff.1 hb).2]
    exact List.nil_suffix
  | c :: cs, before, rest, a, b, h, ht => by
    rw [splitFirst?] at h
    split at h
    · next rest' hafter =>
      cases h
      have hw := (after?_eq_some_iff.1 hafter).symm
      refine List.suffix_of_suffix_length_le ⟨a ++ word, ?_⟩ ⟨word, hw⟩ ?_
      · rw [ht, List.append_assoc]
      · have hl := congrArg List.length (hw.trans ht)
        simp only [List.length_append] at hl
        omega
    · next hafter =>
      obtain ⟨⟨lead, rest'⟩, hs, he⟩ := Option.map_eq_some_iff.1 h
      cases he
      cases a with
      | nil =>
        rw [List.nil_append] at ht
        rw [ht, after?_append] at hafter
        cases hafter
      | cons d a => exact isSuffix_of_splitFirst? hs (List.cons.inj ht).2

/-! ### Words in folded texts -/

/-- A folded text begins with a word without newlines only if the text does. -/
theorem exists_of_go_eq_append {w : Text} (hw : '\n' ∉ w) : ∀ {t b : Text}, go 0 t = w ++ b →
    ∃ b', t = w ++ b' ∧ go 0 b' = b := by
  induction w with
  | nil => exact fun {t _} h => ⟨t, rfl, h⟩
  | cons d w ih =>
    intro t b h
    simp only [List.mem_cons, not_or] at hw
    cases t with
    | nil => cases h
    | cons c t =>
      have hc : c ≠ '\n' := by
        rintro rfl
        exact hw.1 (List.cons.inj h).1
      rw [go, if_neg hc, List.cons_append] at h
      obtain ⟨rfl, hgo⟩ := List.cons_eq_cons.1 h
      obtain ⟨b', rfl, hb⟩ := ih hw.2 hgo
      exact ⟨b', rfl, hb⟩

/-- A word without newlines stands in a folded text where it stands in the text. -/
theorem exists_of_go_eq {w : Text} (hw : '\n' ∉ w) (h0 : w ≠ []) : ∀ {t a b : Text} {run : Nat},
    go run t = a ++ (w ++ b) → ∃ a' b', t = a' ++ (w ++ b') ∧ go 0 b' = b := by
  intro t
  induction t with
  | nil =>
    intro a b run h
    exact absurd (List.append_eq_nil_iff.1 (List.append_eq_nil_iff.1 h.symm).2).1 h0
  | cons c t ih =>
    intro a b run h
    -- below the first character the word is found by induction
    have below {run : Nat} {a : Text} (h : go run t = a ++ (w ++ b)) :
        ∃ a' b', c :: t = a' ++ (w ++ b') ∧ go 0 b' = b := by
      obtain ⟨a', b', rfl, hb⟩ := ih h
      exact ⟨c :: a', b', rfl, hb⟩
    by_cases hc : c = '\n'
    · subst hc
      rw [go, if_pos rfl] at h
      split at h
      · exact below h
      · cases a with
        | nil =>
          obtain ⟨d, w, rfl⟩ := List.exists_cons_of_ne_nil h0
          exact absurd (List.cons.inj h).1 (Ne.symm fun e => hw (e ▸ List.mem_cons_self))
        | cons d a => exact below (List.cons.inj h).2
    · cases a with
      | nil =>
        have h' : go 0 (c :: t) = w ++ b := by rwa [go, if_neg hc] at h ⊢
        obtain ⟨b', ht, hb⟩ := exists_of_go_eq_append hw h'
        exact ⟨[], b', ht, hb⟩
      | cons d a =>
        rw [go, if_neg hc] at h
        exact below (List.cons.inj h).2

theorem leadingNewlines_newline_cons (t : Text) : leadingNewlines ('\n' :: t) = leadingNewlines t + 1 := by
  simp [leadingNewlines, isNewline]

theorem leadingNewlines_of_isPrefix {t : Text} {n : Nat} (h : List.replicate n '\n' <+: t) :
    n ≤ leadingNewlines t := by
  induction n generalizing t with
  | zero => exact Nat.zero_le _
  | succ n ih =>
    obtain ⟨b, rfl⟩ := h
    rw [List.replicate_succ, List.cons_append, leadingNewlines_newline_cons]
    exact Nat.succ_le_succ (ih (List.prefix_append _ _))

theorem isPrefix_of_le_leadingNewlines {t : Text} {n : Nat} (h : n ≤ leadingNewlines t) :
    List.replicate n '\n' <+: t := by
  refine List.IsPrefix.trans ?_ (List.takeWhile_prefix isNewline)
  rw [eq_replicate_of_newlines (newlines_takeWhile t)]
  exact ⟨List.replicate (leadingNewlines t - n) '\n', by
    rw [List.replicate_append_replicate, Nat.add_sub_cancel' h, leadingNewlines]⟩

/-- With the newlines kept before it, a folded text starts with no more than two. -/
theorem leadingNewlines_go (t : Text) {run : Nat} (h : run ≤ 2) : leadingNewlines (go run t) + run ≤ 2 := by
  induction t generalizing run with
  | nil => simpa [go, leadingNewlines] using h
  | cons c t ih =>
    by_cases hc : c = '\n'
    · subst hc
      rw [go, if_pos rfl]
      split
      · exact ih h
      · rw [leadingNewlines_newline_cons]
        have hnext : leadingNewlines (go (run + 1) t) + (run + 1) ≤ 2 := ih (by omega)
        omega
    · simpa [go, hc, leadingNewlines, isNewline] using h

/-- No three newlines stand together in a folded text. -/
theorem not_infix_newlines_go (t : Text) {run : Nat} (h : run ≤ 2) :
    ¬ List.replicate 3 '\n' <:+: go run t := by
  induction t generalizing run with
  | nil => simp [go]
  | cons c t ih =>
    have hlead := leadingNewlines_go (c :: t) h
    intro hm
    have hpre : ¬ List.replicate 3 '\n' <+: go run (c :: t) := fun hp => by
      have := leadingNewlines_of_isPrefix hp
      omega
    by_cases hc : c = '\n'
    · subst hc
      rw [go, if_pos rfl] at hm hpre
      split at hm
      · exact ih h hm
      · rw [if_neg ‹_›] at hpre
        exact (List.infix_cons_iff.1 hm).elim hpre (ih (by omega))
    · rw [go, if_neg hc] at hm hpre
      exact (List.infix_cons_iff.1 hm).elim hpre (ih (Nat.zero_le 2))

end Text

namespace Excerpt

open Text

variable {tag : Tag} {t : Text}

/-- No block is found exactly if no end marker stands below a begin marker. -/
theorem find?_eq_none_iff : find? tag t = none ↔
    ∀ a m b : Text, t ≠ a ++ (tag.beginMarker ++ (m ++ (tag.endMarker ++ b))) := by
  constructor
  · intro h a m b ht
    unfold find? at h
    split at h
    · next hs => exact splitFirst?_eq_none_iff.1 hs ⟨a, m ++ (tag.endMarker ++ b), by rw [ht, List.append_assoc]⟩
    · next lead rest hs =>
      obtain ⟨c, rfl⟩ := isSuffix_of_splitFirst? hs ht
      split at h
      · next hs' => exact splitFirst?_eq_none_iff.1 hs' ⟨c ++ m, b, by simp only [List.append_assoc]⟩
      · cases h
  · intro h
    by_contra hn
    obtain ⟨e, he⟩ := Option.ne_none_iff_exists'.1 hn
    obtain ⟨indent, inner, -, htext, -⟩ := find?_eq_some_iff.1 he
    refine h (e.before ++ indent) inner e.after ?_
    rw [← whole_find? he, whole, htext]
    simp only [List.append_assoc]

/-- Folding blank runs makes no block. -/
theorem find?_foldBlankRuns_eq_none (h : find? tag t = none) : find? tag (foldBlankRuns t) = none := by
  rw [find?_eq_none_iff] at h ⊢
  intro a m b ht
  obtain ⟨a', c, rfl, hc⟩ := exists_of_go_eq (Marker.newline_not_mem_text (.opening tag))
    (Marker.text_ne_nil (.opening tag)) ht
  obtain ⟨m', b', rfl, -⟩ := exists_of_go_eq (Marker.newline_not_mem_text (.closing tag))
    (Marker.text_ne_nil (.closing tag)) hc
  exact h a' m' b' rfl

/-- A block that is found once blank runs are folded, and has no empty lines then, is found as it is. -/
theorem exists_find?_of_foldBlankRuns {e' : Excerpt} (h : WellMarked t) (hf : find? tag (foldBlankRuns t) = some e')
    (h0 : [] ∉ rows e'.text) : ∃ e, find? tag t = some e ∧ e.text = e'.text := by
  obtain ⟨e, he⟩ : ∃ e, find? tag t = some e := by
    refine Option.ne_none_iff_exists'.1 fun hnone => ?_
    rw [find?_foldBlankRuns_eq_none hnone] at hf
    cases hf
  obtain ⟨_, _, _, _, -, -, -, -, -, hspans⟩ := h.hasParts.exists_of_find? he
  obtain rfl := Option.some.inj ((find?_foldBlankRuns he hspans.before).symm.trans hf)
  exact ⟨e, he, (go_eq_self (Nat.zero_le 1) h0).symm⟩

end Excerpt

namespace Block

open Text

variable {tag : Tag} {t u : Text} {n : Nat}

/-- Taking out the first block of the tag `n` times turns `t` into `u`. -/
inductive Rounds (tag : Tag) : Nat → Text → Text → Prop
  /-- Nothing is done. -/
  | done (t : Text) : Rounds tag 0 t t
  /-- A block is found, and the other rounds are done in what is left without it. -/
  | next {t u : Text} {e : Excerpt} {n : Nat} (found : Excerpt.find? tag t = some e)
      (rest : Rounds tag n (excise e) u) : Rounds tag (n + 1) t u

/-- Taking out a block makes the text shorter by its two markers at least. -/
theorem length_excise_le {e : Excerpt} (h : Excerpt.find? tag t = some e) :
    (excise e).length + (tag.beginMarker.length + tag.endMarker.length) ≤ t.length := by
  obtain ⟨indent, inner, -, htext, -⟩ := Excerpt.find?_eq_some_iff.1 h
  have hjoin := length_joinSeam_le e.before (dropSeparator e.before e.after)
  have hsep := length_dropSeparator_le e.before e.after
  have hwhole := congrArg List.length (Excerpt.whole_find? h)
  simp only [Excerpt.whole, htext, List.length_append] at hwhole
  unfold excise
  omega

/-- There is no room for more rounds than the length of the text allows. -/
theorem Rounds.length_le (h : Rounds tag n t u) :
    u.length + n * (tag.beginMarker.length + tag.endMarker.length) ≤ t.length := by
  induction h with
  | done t => rw [Nat.zero_mul, Nat.add_zero]
  | next found rest ih =>
    have := length_excise_le found
    rw [Nat.succ_mul]
    omega

/-- Rounds end with `exciseAll`, where no block is found. -/
theorem exists_rounds (tag : Tag) (t : Text) :
    ∃ n, Rounds tag n t (exciseAll tag t) ∧ (n = 0 ↔ isIn tag t = false) := by
  fun_induction exciseAll tag t with
  | case1 t hn => exact ⟨0, .done t, by simp [isIn, hn]⟩
  | case2 t e he ih =>
    obtain ⟨n, hr, -⟩ := ih
    exact ⟨n + 1, .next he hr, by simp [isIn, he]⟩

theorem find?_exciseAll (tag : Tag) (t : Text) : Excerpt.find? tag (exciseAll tag t) = none := by
  fun_induction exciseAll tag t with
  | case1 t hn => exact hn
  | case2 t e he ih => exact ih

theorem find?_removeAll (tag : Tag) (t : Text) : Excerpt.find? tag (removeAll tag t) = none := by
  unfold removeAll
  split
  · exact Excerpt.find?_foldBlankRuns_eq_none (find?_exciseAll tag t)
  · next h => simpa [isIn] using h

theorem removeAll_removeAll (tag : Tag) (t : Text) : removeAll tag (removeAll tag t) = removeAll tag t := by
  refine removeAll_of_not_isIn ?_
  rw [isIn, find?_removeAll]
  rfl

/-- **Removal ends and leaves nothing behind.** Rounds of finding a block and taking it out come to
an end, each of them making the text shorter by two markers at least. In what is left no block of
the tag is found, and removing once more changes nothing. Without a single round the text is as it
was, and after one or more of them no three newlines stand together. -/
theorem removeAll_exhausts (tag : Tag) (t : Text) :
    (∀ n u, Rounds tag n t u → u.length + n * (tag.beginMarker.length + tag.endMarker.length) ≤ t.length) ∧
      (∃ n u, Rounds tag n t u ∧ Excerpt.find? tag u = none ∧
        (n = 0 ∧ removeAll tag t = t ∨
          0 < n ∧ removeAll tag t = foldBlankRuns u ∧ ¬ List.replicate 3 '\n' <:+: removeAll tag t)) ∧
      Excerpt.find? tag (removeAll tag t) = none ∧
      removeAll tag (removeAll tag t) = removeAll tag t := by
  have hnone := find?_removeAll tag t
  refine ⟨fun n u h => h.length_le, ?_, hnone, removeAll_of_not_isIn (by rw [isIn, hnone]; rfl)⟩
  obtain ⟨n, hr, hn⟩ := exists_rounds tag t
  refine ⟨n, _, hr, find?_exciseAll tag t, ?_⟩
  by_cases hin : isIn tag t
  · have hfold : removeAll tag t = foldBlankRuns (exciseAll tag t) := if_pos hin
    have hpos : n ≠ 0 := fun h0 => by
      rw [hn.1 h0] at hin
      cases hin
    refine .inr ⟨Nat.pos_of_ne_zero hpos, hfold, ?_⟩
    rw [hfold]
    exact not_infix_newlines_go _ (Nat.zero_le 2)
  · have hout := eq_false_of_ne_true hin
    exact .inl ⟨hn.2 hout, removeAll_of_not_isIn hout⟩

end Block
end Marginalia
