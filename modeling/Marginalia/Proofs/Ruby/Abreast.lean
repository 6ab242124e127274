/-
# Readers abreast

What a reader comes to is determined by where it starts (`Ruby.Reads.total`), so
a whole reading is followed step by step in the other text: down to the cut
(`Ruby.Like.reads_above`), over the notes there, and from the cut to the end
(`Ruby.Like.reads_below`). The two sources then declare the same, on lines that
are told by the cut (`Ruby.declarations_eq_map_shift`).

Key definitions: `Ruby.Cut.Passed`, `Ruby.Cut.EndsAlike`.
Key theorems: `Ruby.Like.reads_above`, `Ruby.Like.reads_below`, `Ruby.declarations_eq_map_shift`.
-/
import Marginalia.Proofs.Ruby.Resting

namespace Marginalia

open Text

namespace Ruby

variable {c : Cut} {r r' q e s : Reader} {t u : Text} {ls : List Text}

/-! ### One reading -/

/-- Of two states that a reader comes to, one comes before the other. -/
theorem Reads.total (h : Reads r s) (h' : Reads r q) : Reads s q ∨ Reads q s :=
  Relation.ReflTransGen.total_of_right_unique (fun _ _ _ h h' => h.2.trans h'.2.symm) h h'

theorem readAll_of_rest_eq_nil (h : r.rest = []) : ∀ n, readAll n r = r
  | 0 => rfl
  | n + 1 => by rw [readAll, if_pos h]

theorem readAll_succ (h : r.rest ≠ []) (n : Nat) : readAll (n + 1) r = readAll n (step r) := by rw [readAll, if_neg h]

theorem readAll_add (m : Nat) : ∀ (n : Nat) (r : Reader), readAll (n + m) r = readAll m (readAll n r)
  | 0, r => by rw [Nat.zero_add, readAll]
  | n + 1, r => by
    by_cases hr : r.rest = []
    · rw [readAll_of_rest_eq_nil hr, readAll_of_rest_eq_nil hr, readAll_of_rest_eq_nil hr]
    · rw [Nat.add_right_comm, readAll_succ hr, readAll_succ hr, readAll_add m n]

/-- What holds of each of the states that a reader comes to, up to the end, holds of all of them. -/
theorem Reads.of_readAll {P : Reader → Prop} {n : Nat} (hend : (readAll n r).rest = [])
    (h : ∀ m ≤ n, P (readAll m r)) (hs : Reads r s) : P s := by
  obtain ⟨m, rfl⟩ : ∃ m, s = readAll m r := by
    induction hs with
    | refl => exact ⟨0, rfl⟩
    | tail _ hstep ih =>
      obtain ⟨hne, rfl⟩ := hstep
      obtain ⟨m, rfl⟩ := ih
      exact ⟨m + 1, by rw [readAll_add, readAll_succ hne, readAll]⟩
  rcases Nat.le_total m n with hle | hle
  · exact h m hle
  · obtain ⟨k, rfl⟩ := Nat.exists_eq_add_of_le hle
    rw [readAll_add, readAll_of_rest_eq_nil hend]
    exact h n (Nat.le_refl n)

theorem Cut.Near.inside_or_between {p p' : Place} (h : c.Near t p u p') :
    c.Inside t p u p' ∨ t = c.tail ∧ u = c.notes ++ c.tail ∧ p = ⟨c.above + 1, 0⟩ ∧ p' = ⟨c.above + 1, 0⟩ := by
  cases h with
  | inside h => exact .inl h
  | between => exact .inr ⟨rfl, rfl, rfl, rfl⟩

/-! ### Two readings -/

/-- What a step in a line above the cut has to be like. -/
structure Cut.Passed (c : Cut) (s : Reader) : Prop where
  /-- No name is read on below the cut. -/
  crosses : s.crosses c.tail = false
  /-- The source does not end there. -/
  unended : s.endsSource = false
  /-- No `=end` below the cut would make a difference. -/
  begins : c.Silent ∨ s.beginsLoosely = false
  /-- If the first text ends at the cut, it ends there as sources do. -/
  rounded : c.Ends → s.Rounded

namespace Like

/-- A reading down to the cut is followed in the other text. -/
theorem reads_above (h : Like c c.Near r r') (hread : Reads r q) (hq : q.rest = c.tail) (hd : q.degraded = false)
    (hs : ∀ s, Reads r s → c.tail.length < s.rest.length → c.Passed s) :
    ∃ q', Reads r' q' ∧ Like c c.Near q q' := by
  induction hread using Relation.ReflTransGen.head_induction_on generalizing r' with
  | refl => exact ⟨r', .refl, h⟩
  | @head r _ hstep hrest ih =>
    obtain ⟨hne, rfl⟩ := hstep
    have hd₁ : (Ruby.step r).degraded = false := Reads.degraded_eq_false hrest hd
    have hle : c.tail.length ≤ (Ruby.step r).rest.length := hq ▸ Reads.length_le hrest hd
    have hlt : c.tail.length < r.rest.length := Nat.lt_of_le_of_lt hle (advances_step hne hd₁)
    have hp := hs r .refl hlt
    rcases h.ahead.inside_or_between with hin | ⟨htail, -⟩
    · have hin : Like c c.Inside r r' := { h with ahead := hin }
      have hnext := hin.step ⟨hne, hp.crosses⟩ hd₁ (fun _ => ⟨hp.begins, hle, hp.unended⟩) hp.rounded
      obtain ⟨q', hread', hlike⟩ := ih hnext fun s h => hs s (.head ⟨hne, rfl⟩ h)
      exact ⟨q', .head ⟨hin.ahead.sameLine.ne_nil hne, rfl⟩ hread', hlike⟩
    · rw [htail] at hlt
      exact absurd hlt (Nat.lt_irrefl _)

/-- Below the cut, readers stay below it. -/
theorem step_below (h : Like c c.Inside r r') (hc : ¬ c.Ends) (hle : r.rest.length ≤ c.tail.length) (hne : r.rest ≠ [])
    (hd : (Ruby.step r).degraded = false) (hs : r.crosses c.tail = false) :
    Like c c.Inside (Ruby.step r) (Ruby.step r') ∧ (Ruby.step r).rest.length ≤ c.tail.length := by
  have hlt : (Ruby.step r).rest.length < c.tail.length := Nat.lt_of_lt_of_le (advances_step hne hd) hle
  have hnext := h.step ⟨hne, hs⟩ hd (fun h => absurd h (Nat.not_lt_of_le hle)) fun h => absurd h hc
  rcases hnext.ahead.inside_or_between with hin | ⟨htail, -⟩
  · exact ⟨{ hnext with ahead := hin }, Nat.le_of_lt hlt⟩
  · rw [htail] at hlt
    exact absurd hlt (Nat.lt_irrefl _)

/-- A reading from the cut on is followed as well. -/
theorem reads_below (h : Like c c.Inside r r') (hc : ¬ c.Ends) (hle : r.rest.length ≤ c.tail.length)
    (hread : Reads r e) (hd : e.degraded = false) (hs : ∀ s, Reads r s → s.rest ≠ [] → s.crosses c.tail = false) :
    ∃ e', Reads r' e' ∧ Like c c.Inside e e' := by
  induction hread using Relation.ReflTransGen.head_induction_on generalizing r' with
  | refl => exact ⟨r', .refl, h⟩
  | @head r _ hstep hrest ih =>
    obtain ⟨hne, rfl⟩ := hstep
    obtain ⟨hnext, hle'⟩ := h.step_below hc hle hne (Reads.degraded_eq_false hrest hd) (hs r .refl hne)
    obtain ⟨e', hread', hlike⟩ := ih hnext hle' fun s h => hs s (.head ⟨hne, rfl⟩ h)
    exact ⟨e', .head ⟨h.ahead.sameLine.ne_nil hne, rfl⟩ hread', hlike⟩

/-- A reader that is like itself remembers nothing from above a cut at which there are notes. -/
theorem crosses_self (h : Like c c.Inside r r) (hn : c.notes ≠ []) : r.crosses c.tail = false := by
  have ho := h.opening
  unfold Reader.crosses
  split
  · next kind last written name hdef =>
    rw [hdef] at ho
    have hle : written.length ≤ c.tail.length := by
      cases ho with
      | definition kind phase name hb =>
        rcases hb.1 with ⟨-, hle⟩ | ⟨y, hy, hy'⟩
        · exact hle
        · rw [hy] at hy'
          exact absurd (List.self_eq_append_left.1 (List.append_cancel_left hy')) hn
      | other _ hd => cases hd
    rw [decide_eq_false (Nat.not_lt_of_le hle), Bool.false_and]
  · rfl

/-- Below the cut it stays so. -/
theorem reads_self (h : Like c c.Inside r r) (hn : c.notes ≠ []) (hc : ¬ c.Ends) (hle : r.rest.length ≤ c.tail.length)
    (hread : Reads r s) (hd : s.degraded = false) : Like c c.Inside s s := by
  induction hread using Relation.ReflTransGen.head_induction_on with
  | refl => exact h
  | head hstep hrest ih =>
    obtain ⟨hne, rfl⟩ := hstep
    obtain ⟨hnext, hle'⟩ := h.step_below hc hle hne (Reads.degraded_eq_false hrest hd) (h.crosses_self hn)
    exact ih hnext hle'

theorem rests (h : Like c c.Near q q') (hq : q.Rests) : q'.Rests :=
  ⟨h.opening.isText_eq.trans hq.inCode, h.due.trans hq.due, h.spaced.trans hq.spaced, h.pending.trans hq.pending⟩

/-- At rest at the cut, the second reader passes over the notes. -/
theorem reads_notes (h : Like c c.Near q q') (hr : q.rest = c.tail) (hq : q.Rests) (hnotes : c.notes = paragraph ls)
    (hl : AreNotes ls) (habove : c.above' = c.above + ls.length) :
    ∃ s, Reads q' s ∧ Like c c.Inside q s := by
  rcases h.ahead.inside_or_between with hin | ⟨-, hrest, hp, hp'⟩
  · exact ⟨q', .refl, { h with ahead := hin }⟩
  · rw [hnotes] at hrest
    refine ⟨_, (h.rests hq).reads_notes hrest (by rw [hp']) hl, { h with ahead := ?_ }⟩
    have hmove : c.move q.place = ⟨q'.place.line + ls.length, 0⟩ := by
      rw [hp, hp', Cut.move, Cut.line_of_lt (Nat.lt_succ_self c.above), habove]
      congr 1
      dsimp only
      omega
    show c.Inside q.rest q.place c.tail ⟨q'.place.line + ls.length, 0⟩
    rw [hr, ← hmove]
    exact .below _ _ (Nat.le_refl _) (by rw [hp]; exact Nat.lt_succ_self _)

end Like

/-! ### What is declared -/

/-- A reader of the text `u` comes to its end with the same stretches open. -/
def Cut.EndsAlike (c : Cut) (u : Text) (e : Reader) : Prop :=
  ∃ e', Reads (.start u) e' ∧ e'.rest = [] ∧ e'.degraded = false ∧ List.Forall₂ c.LikeFrame e.frames e'.frames

theorem degraded_finish (h : (finish r).degraded = false) : ∃ f, r.frames = [f] ∧ finish r = r := by
  unfold finish at h ⊢
  split
  · next f hf => exact ⟨f, hf, rfl⟩
  · next hf =>
    have hfold : ∀ (ns : List Nat) (r : Reader), r.degraded = true →
        (ns.foldl (fun r _ => r.dissolve) r).degraded = true := by
      intro ns
      induction ns with
      | nil => exact fun _ h => h
      | cons n ns ih => exact fun r h => ih _ (by rwa [Reader.degraded_dissolve])
    split at h
    · next f hf' => exact absurd hf' (hf f)
    · dsimp only at h
      split at h
      · rw [Reader.degraded_pop] at h
        cases h
      · rw [hfold _ _ rfl] at h
        cases h

/-- A source without faults is read to its end, where nothing but the source itself is open. -/
theorem exists_reads_end (h : (outline t).2 = false) : ∃ e f, Reads (.start t) e ∧ e.rest = [] ∧ e.degraded = false ∧
    e.frames = [f] ∧ (outline t).1 = f.outline e.place := by
  obtain ⟨f, hf, he⟩ := degraded_finish h
  have hd : (readAll (2 * t.length + 1) (.start t)).degraded = false := by rw [← he]; exact h
  have hlen : (Reader.start t).rest.length ≤ 2 * t.length + 1 := by
    show t.length ≤ _
    omega
  refine ⟨_, f, reads_readAll _, rest_readAll _ hlen hd, hd, hf, ?_⟩
  rw [outline, he, hf]
  rfl

theorem outline_eq {f : Frame} (h : Reads (.start t) e) (hr : e.rest = []) (hd : e.degraded = false)
    (hf : e.frames = [f]) : outline t = (f.outline e.place, false) := by
  have hread : readAll (2 * t.length + 1) (.start t) = e := readAll_eq _ (by show t.length ≤ _; omega) h hr hd
  have hfinish : finish e = e := by rw [finish, hf]
  rw [outline, hread, hfinish, hf, hd]
  rfl

/-- If a reader of the second text comes to the end as one of the first does, the second declares what the
first declares. -/
theorem declarations_eq_map_shift (ht : (outline t).2 = false) (h : ∀ e, Reads (.start t) e → e.rest = [] →
      e.degraded = false → e.Grounded ∧ c.EndsAlike u e) :
    (outline u).2 = false ∧ (outline u).1.declarations = (outline t).1.declarations.map c.shift := by
  obtain ⟨e, f, hread, hr, hd, hf, ho⟩ := exists_reads_end ht
  obtain ⟨⟨g, hg, hn⟩, e', hread', hr', hd', hframes⟩ := h e hread hr hd
  rw [hf] at hg hframes
  obtain ⟨f', fs', hlike, hnil, hf'⟩ := List.forall₂_cons_left_iff.1 hframes
  obtain rfl : f = g := by simpa using hg
  rw [List.forall₂_nil_left_iff] at hnil
  rw [hnil] at hf'
  rw [outline_eq hread' hr' hd' hf', ho]
  exact ⟨rfl, hlike.outline (fun h => by rw [hn] at h; cases h) []⟩

end Ruby
end Marginalia
