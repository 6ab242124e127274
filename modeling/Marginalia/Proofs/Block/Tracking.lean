/-
# Where the characters of a cleared text come from

Removal is followed with every character carrying its place in the text it comes
from. So it can be said which characters are left (`solid_left`: all
but newlines and the blocks, in their order) and which lines they were on.

A block takes the line end below it along. Where text stands in front of its
begin marker, that text and the line below the block come to stand on one line;
nowhere else are two lines put together (`removeAll_keeps_lines_apart_iff`).

Key definitions: `Tracked`, `Round`, `Tracked.clear`, `left`, `KeepsLinesApart`.
Key theorems: `Tracked.text_clear`, `text_left`, `Tracked.isChain_clear`,
`removeAll_keeps_lines_apart_iff`.
-/
import Mathlib.Data.List.Chain
import Mathlib.Data.List.Nodup
import Marginalia.Proofs.Block.Exhausting

namespace Marginalia
namespace Block

open Text

/-- A text whose characters carry their places in the text they come from. -/
abbrev Tracked := List (Char × Nat)

/-- A block that is taken out, and what stands around it. -/
structure Round where
  /-- What stands above the block. -/
  above : Tracked
  /-- The block. -/
  block : Tracked
  /-- The newlines below the block that are taken along. -/
  ending : Tracked
  /-- What stands below them. -/
  below : Tracked

/-- The text in which the block is found. -/
def Round.whole (r : Round) : Tracked := r.above ++ (r.block ++ (r.ending ++ r.below))

namespace Tracked

/-- The characters without their places. -/
def text (s : Tracked) : Text := s.map Prod.fst

/-- The characters of a text with their places. -/
def ofText (t : Text) : Tracked := t.zipIdx

/-- The character is a newline. -/
def isBreak (x : Char × Nat) : Bool := isNewline x.1

/-- Two texts put together with at most two newlines where they meet, the first ones. -/
def join (a b : Tracked) : Tracked :=
  dropEndWhile isBreak a ++ ((takeEndWhile isBreak a ++ b.takeWhile isBreak).take 2 ++ b.dropWhile isBreak)

/-- Every run of more than two newlines is cut to its first two, `run` newlines being kept in front. -/
def fold (run : Nat) : Tracked → Tracked
  | [] => []
  | x :: s =>
    if x.1 = '\n' then
      if 2 ≤ run then fold run s else x :: fold (run + 1) s
    else x :: fold 0 s

/-- The excerpt of a text as a round, with the newlines that are taken along. -/
def round (e : Excerpt) (s : Tracked) : Round where
  above := s.take e.before.length
  block := (s.drop e.before.length).take e.text.length
  ending := (s.drop (e.before.length + e.text.length)).take
    (e.after.length - (dropSeparator e.before e.after).length)
  below := s.drop (s.length - (dropSeparator e.before e.after).length)

@[simp] theorem text_append (a b : Tracked) : text (a ++ b) = text a ++ text b := List.map_append

@[simp] theorem length_text (s : Tracked) : (text s).length = s.length := List.length_map _

@[simp] theorem text_ofText (t : Text) : text (ofText t) = t := List.zipIdx_map_fst 0 t

theorem nodup_ofText (t : Text) : (ofText t).Nodup := by
  refine List.Nodup.of_map Prod.snd ?_
  rw [ofText, List.zipIdx_map_snd]
  exact List.nodup_range'

/-! ### Joining and folding -/

theorem text_dropWhile (s : Tracked) : text (s.dropWhile isBreak) = dropNewlines (text s) :=
  List.dropWhile_map.symm

theorem text_takeWhile (s : Tracked) : text (s.takeWhile isBreak) = (text s).takeWhile isNewline :=
  List.takeWhile_map.symm

theorem text_dropEndWhile (s : Tracked) : text (dropEndWhile isBreak s) = dropEndNewlines (text s) := by
  have h := text_dropWhile s.reverse
  simp only [text, List.map_reverse] at h
  simp only [text, dropEndWhile, dropEndNewlines, List.map_reverse, h, dropNewlines]

theorem text_takeEndWhile (s : Tracked) : text (takeEndWhile isBreak s) = takeEndWhile isNewline (text s) := by
  have h := text_takeWhile s.reverse
  simp only [text, List.map_reverse] at h
  simp only [text, takeEndWhile, List.map_reverse, h]

theorem text_take (s : Tracked) (n : Nat) : text (s.take n) = (text s).take n := List.map_take

theorem text_join (a b : Tracked) : text (join a b) = joinSeam (text a) (text b) := by
  have ha := dropEndWhile_append_takeEndWhile isNewline (text a)
  have hb := List.takeWhile_append_dropWhile (p := isNewline) (l := text b)
  simp only [join, text_append, text_take, text_dropEndWhile, text_takeEndWhile, text_takeWhile, text_dropWhile]
  unfold joinSeam
  have hlen : (takeEndWhile isNewline (text a) ++ (text b).takeWhile isNewline).length =
      trailingNewlines (text a) + leadingNewlines (text b) := List.length_append
  split
  · next h =>
    rw [List.take_of_length_le (hlen ▸ h), dropEndNewlines, dropNewlines, List.append_assoc, hb,
      ← List.append_assoc, ha]
  · next h =>
    have hnl : takeEndWhile isNewline (text a) ++ (text b).takeWhile isNewline =
        List.replicate (trailingNewlines (text a) + leadingNewlines (text b)) '\n' := by
      rw [← hlen]
      refine eq_replicate_of_newlines fun c hc => ?_
      exact (List.mem_append.1 hc).elim (newlines_takeEndWhile _ c) (newlines_takeWhile _ c)
    rw [hnl, List.take_replicate, Nat.min_eq_left (by omega), List.append_assoc]

theorem text_fold (run : Nat) (s : Tracked) : text (fold run s) = foldBlankRuns.go run (text s) := by
  fun_induction fold run s with
  | case1 => rfl
  | case2 run x s hx hrun ih => simpa [text, foldBlankRuns.go, hx, hrun] using ih
  | case3 run x s hx hrun ih => simpa [text, foldBlankRuns.go, hx, hrun] using ih
  | case4 run x s hx ih => simpa [text, foldBlankRuns.go, hx] using ih

theorem join_sublist (a b : Tracked) : (join a b).Sublist (a ++ b) := by
  have ha := dropEndWhile_append_takeEndWhile isBreak a
  have hb := List.takeWhile_append_dropWhile (p := isBreak) (l := b)
  conv => rhs; rw [← ha, ← hb]
  rw [join, List.append_assoc, ← List.append_assoc (takeEndWhile isBreak a)]
  exact (List.Sublist.refl _).append ((List.take_sublist _ _).append (.refl _))

theorem fold_sublist (run : Nat) (s : Tracked) : (fold run s).Sublist s := by
  fun_induction fold run s with
  | case1 => exact .slnil
  | case2 run x s hx hrun ih => exact .cons x ih
  | case3 run x s hx hrun ih => exact .cons_cons x ih
  | case4 run x s hx ih => exact .cons_cons x ih

/-- The characters of a text other than newlines. -/
def solid (s : Tracked) : Tracked := s.filter (·.1 ≠ '\n')

@[simp] theorem solid_append (a b : Tracked) : solid (a ++ b) = solid a ++ solid b := List.filter_append ..

theorem solid_eq_nil {s : Tracked} (h : ∀ x ∈ s, x.1 = '\n') : solid s = [] := by
  simpa [solid, List.filter_eq_nil_iff] using fun c n hm => h (c, n) hm

theorem breaks_takeWhile (s : Tracked) : ∀ x ∈ s.takeWhile isBreak, x.1 = '\n' := by
  intro x hx
  simpa [isBreak, isNewline] using List.mem_takeWhile_imp hx

theorem breaks_takeEndWhile (s : Tracked) : ∀ x ∈ takeEndWhile isBreak s, x.1 = '\n' := fun x hx =>
  breaks_takeWhile s.reverse x (List.mem_reverse.1 hx)

/-- The newlines where two texts are put together. -/
theorem breaks_seam (a b : Tracked) :
    ∀ x ∈ (takeEndWhile isBreak a ++ b.takeWhile isBreak).take 2, x.1 = '\n' := by
  intro x hx
  exact (List.mem_append.1 (List.mem_of_mem_take hx)).elim (breaks_takeEndWhile a x) (breaks_takeWhile b x)

theorem solid_join (a b : Tracked) : solid (join a b) = solid a ++ solid b := by
  have ha := congrArg solid (dropEndWhile_append_takeEndWhile isBreak a)
  have hb := congrArg solid (List.takeWhile_append_dropWhile (p := isBreak) (l := b))
  simp only [solid_append, solid_eq_nil (breaks_takeEndWhile a), solid_eq_nil (breaks_takeWhile b),
    List.append_nil, List.nil_append] at ha hb
  simp only [join, solid_append, solid_eq_nil (breaks_seam a b), List.nil_append, ha, hb]

theorem solid_fold (run : Nat) (s : Tracked) : solid (fold run s) = solid s := by
  fun_induction fold run s with
  | case1 => rfl
  | case2 run x s hx hrun ih => simpa [solid, hx] using ih
  | case3 run x s hx hrun ih => simpa [solid, hx] using ih
  | case4 run x s hx ih => simpa [solid, hx] using ih

/-! ### Rounds -/

/-- A block is followed by the newlines that it takes along. -/
theorem exists_dropSeparator_eq (before after : Text) :
    ∃ nls : Text, (∀ c ∈ nls, c = '\n') ∧ after = nls ++ dropSeparator before after := by
  unfold dropSeparator
  split
  · split
    · split
      · exact ⟨['\n', '\n'], by simp, rfl⟩
      · exact ⟨['\n'], by simp, rfl⟩
    · exact ⟨['\n'], by simp, rfl⟩
  · exact ⟨[], by simp, rfl⟩

/-- A round takes a text apart as the excerpt takes its characters apart. -/
structure IsRound (e : Excerpt) (s : Tracked) (r : Round) : Prop where
  /-- The round is of the text. -/
  whole : r.whole = s
  /-- What is above the excerpt. -/
  above : text r.above = e.before
  /-- The excerpt itself. -/
  block : text r.block = e.text
  /-- Newlines alone are taken along. -/
  ending : ∀ x ∈ r.ending, x.1 = '\n'
  /-- What is left below the excerpt. -/
  below : text r.below = dropSeparator e.before e.after

theorem isRound {tag : Tag} {s : Tracked} {e : Excerpt} (h : Excerpt.find? tag s.text = some e) :
    IsRound e s (round e s) := by
  obtain ⟨nls, hnls, hafter⟩ := exists_dropSeparator_eq e.before e.after
  have hs : s.text = e.before ++ (e.text ++ (nls ++ dropSeparator e.before e.after)) := by
    rw [← hafter, ← Excerpt.whole_find? h, Excerpt.whole, List.append_assoc]
  obtain ⟨above, s₁, rfl, habove, hs₁⟩ := List.map_eq_append_iff.1 hs
  obtain ⟨block, s₂, rfl, hblock, hs₂⟩ := List.map_eq_append_iff.1 hs₁
  obtain ⟨ending, below, rfl, hending, hbelow⟩ := List.map_eq_append_iff.1 hs₂
  have hround : round e (above ++ (block ++ (ending ++ below))) = ⟨above, block, ending, below⟩ := by
    have h₁ : e.before.length = above.length := by rw [← habove, List.length_map]
    have h₂ : e.text.length = block.length := by rw [← hblock, List.length_map]
    have h₃ : (dropSeparator e.before e.after).length = below.length := by rw [← hbelow, List.length_map]
    have h₄ : e.after.length - below.length = ending.length := by
      have hl := congrArg List.length hafter
      rw [List.length_append, ← hending, List.length_map] at hl
      omega
    have h₅ : (above ++ (block ++ (ending ++ below))).length - below.length =
        (above ++ (block ++ ending)).length := by
      simp only [List.length_append]
      omega
    have h₆ : above ++ (block ++ (ending ++ below)) = above ++ (block ++ ending) ++ below := by
      simp only [List.append_assoc]
    simp only [round, h₁, h₂, h₃, h₄, h₅, Round.mk.injEq, List.take_left, List.drop_left, ← List.drop_drop, true_and]
    rw [h₆, List.drop_left]
  rw [hround]
  exact ⟨rfl, habove, hblock, fun x hx => hnls x.1 (hending ▸ List.mem_map_of_mem hx), hbelow⟩

end Tracked

/-- What a round leaves. -/
def Round.rest (r : Round) : Tracked := Tracked.join r.above r.below

namespace Tracked

theorem length_rest_lt {tag : Tag} {s : Tracked} {e : Excerpt} (h : Excerpt.find? tag s.text = some e) :
    (round e s).rest.length < s.length := by
  have hr := isRound h
  rw [← length_text, ← length_text s, Round.rest, text_join, hr.above, hr.below]
  exact length_excise_lt h

/-- Takes out one block of the tag after the other: the rounds, and what is left. -/
def clear (tag : Tag) (s : Tracked) : List Round × Tracked :=
  match _h : Excerpt.find? tag s.text with
  | none => ([], s)
  | some e =>
    let rest := clear tag (round e s).rest
    (round e s :: rest.1, rest.2)
termination_by s.length
decreasing_by exact length_rest_lt _h

variable {tag : Tag} {s : Tracked} {e : Excerpt}

theorem clear_of_none (h : Excerpt.find? tag s.text = none) : clear tag s = ([], s) := by
  rw [clear]
  split
  · rfl
  · next h' =>
    rw [h] at h'
    cases h'

/-- Clearing is `exciseAll` on the characters. -/
theorem text_clear (tag : Tag) (s : Tracked) : text (clear tag s).2 = exciseAll tag s.text := by
  fun_induction clear tag s with
  | case1 s h => rw [exciseAll_of_find?_eq_none h]
  | case2 s e h rest ih =>
    have hr := isRound h
    rw [exciseAll_of_find?_eq_some h, ih, Round.rest, text_join, hr.above, hr.below, excise]

theorem IsRound.rest_sublist {r : Round} (hr : IsRound e s r) : r.rest.Sublist s := by
  rw [← hr.whole]
  exact (join_sublist _ _).trans
    ((List.Sublist.refl _).append ((List.sublist_append_right _ _).trans (List.sublist_append_right _ _)))

theorem clear_sublist (tag : Tag) (s : Tracked) : (clear tag s).2.Sublist s := by
  fun_induction clear tag s with
  | case1 s h => exact .refl s
  | case2 s e h rest ih => exact ih.trans (isRound h).rest_sublist

/-- Of the characters that are no newlines, a round takes those of its block. -/
theorem IsRound.solid_rest {r : Round} (hr : IsRound e s r) (hs : s.Nodup) :
    solid r.rest = (solid s).filter (· ∉ r.block) := by
  rw [← hr.whole, Round.whole] at hs
  obtain ⟨-, hbelow, habove⟩ := List.nodup_append'.1 hs
  obtain ⟨-, -, hblock⟩ := List.nodup_append'.1 hbelow
  have hkept {part : Tracked} (hpart : ∀ x ∈ part, x ∉ r.block) :
      (solid part).filter (· ∉ r.block) = solid part :=
    List.filter_eq_self.2 fun x hx => decide_eq_true (hpart x (List.mem_of_mem_filter hx))
  have hgone : (solid r.block).filter (· ∉ r.block) = [] :=
    List.filter_eq_nil_iff.2 fun x hx => by simpa using List.mem_of_mem_filter hx
  calc solid r.rest
      = solid r.above ++ solid r.below := solid_join _ _
    _ = (solid r.above).filter (· ∉ r.block) ++ (solid r.below).filter (· ∉ r.block) := by
        rw [hkept fun x hx hb => habove hx (List.mem_append_left _ hb),
          hkept fun x hx hb => hblock hb (List.mem_append_right _ hx)]
    _ = (solid s).filter (· ∉ r.block) := by
        rw [← hr.whole, Round.whole]
        simp only [solid_append, solid_eq_nil hr.ending, List.nil_append, List.filter_append, hgone]

/-- Of the characters that are no newlines, those are left that stand in no block. -/
theorem solid_clear (tag : Tag) (hs : s.Nodup) :
    solid (clear tag s).2 = (solid s).filter fun x => ∀ r ∈ (clear tag s).1, x ∉ r.block := by
  fun_induction clear tag s with
  | case1 s h => simp
  | case2 s e h rest ih =>
    have hr := isRound h
    rw [ih (hs.sublist hr.rest_sublist), hr.solid_rest hs, List.filter_filter]
    refine List.filter_congr fun x _ => ?_
    simp only [List.forall_mem_cons, Bool.decide_and, Bool.and_comm]
    rfl

/-! ### Neighbours -/

section

variable {R : Char × Nat → Char × Nat → Prop}

/-- A relation that asks nothing of newlines. -/
def IgnoresBreaks (R : Char × Nat → Char × Nat → Prop) : Prop :=
  ∀ x y : Char × Nat, x.1 = '\n' ∨ y.1 = '\n' → R x y

theorem isChain_breaks (hR : IgnoresBreaks R) {s : Tracked} (h : ∀ x ∈ s, x.1 = '\n') : s.IsChain R := by
  induction s with
  | nil => exact .nil
  | cons x s ih =>
    obtain ⟨hx, hs⟩ := List.forall_mem_cons.1 h
    exact (ih hs).cons fun y _ => hR x y (.inl hx)

/-- Neighbours in two texts put together are neighbours in one of them, or no newline stood where
the texts meet. -/
theorem isChain_join (hR : IgnoresBreaks R) {a b : Tracked} (ha : a.IsChain R) (hb : b.IsChain R)
    (hab : ∀ x ∈ a.getLast?, ∀ y ∈ b.head?, R x y) : (join a b).IsChain R := by
  have hbreaks := breaks_seam a b
  have ha' := dropEndWhile_append_takeEndWhile isBreak a
  have hb' := List.takeWhile_append_dropWhile (p := isBreak) (l := b)
  unfold join
  cases hm : (takeEndWhile isBreak a ++ b.takeWhile isBreak).take 2 with
  | nil =>
    -- nothing was cut off on either side
    obtain ⟨ha₀, hb₀⟩ : takeEndWhile isBreak a = [] ∧ b.takeWhile isBreak = [] := by
      simpa using List.take_eq_nil_iff.1 hm
    rw [ha₀, List.append_nil] at ha'
    rw [hb₀, List.nil_append] at hb'
    rw [ha', hb', List.nil_append]
    exact ha.append hb hab
  | cons x m =>
    rw [hm] at hbreaks
    rw [← ha'] at ha
    rw [← hb'] at hb
    refine ha.left_of_append.append ((isChain_breaks hR hbreaks).append hb.right_of_append ?_) ?_
    · intro y hy z _
      exact hR y z (.inl (hbreaks y (List.mem_of_getLast? hy)))
    · intro y _ z hz
      rw [List.cons_append, List.head?_cons, Option.mem_some_iff] at hz
      exact hR y z (.inr (hbreaks z (hz ▸ List.mem_cons_self)))

/-- The characters of a folded text that are no newlines have the neighbours they had, or newlines. -/
theorem isChain_fold (hR : IgnoresBreaks R) {s : Tracked} (hs : s.IsChain R) (run : Nat) :
    (fold run s).IsChain R := by
  fun_induction fold run s with
  | case1 => exact .nil
  | case2 run x s hx hrun ih => exact ih hs.tail
  | case3 run x s hx hrun ih => exact (ih hs.tail).cons fun y _ => hR x y (.inl hx)
  | case4 run x s hx ih =>
    refine (ih hs.tail).cons fun y hy => ?_
    cases s with
    | nil => cases hy
    | cons z s =>
      by_cases hz : z.1 = '\n'
      · rw [fold, if_pos hz, if_neg (by omega), List.head?_cons, Option.mem_some_iff] at hy
        exact hR x y (.inr (hy ▸ hz))
      · rw [fold, if_neg hz, List.head?_cons, Option.mem_some_iff] at hy
        exact hy ▸ hs.rel

/-- What holds of all neighbours of the text and of those that a round brings together holds of all
neighbours that are left. -/
theorem isChain_clear (hR : IgnoresBreaks R) (tag : Tag) {s : Tracked} (hs : s.IsChain R)
    (hrounds : ∀ r ∈ (clear tag s).1, ∀ x ∈ r.above.getLast?, ∀ y ∈ r.below.head?, R x y) :
    (clear tag s).2.IsChain R := by
  fun_induction clear tag s with
  | case1 s h => exact hs
  | case2 s e h rest ih =>
    obtain ⟨hround, hrounds⟩ := List.forall_mem_cons.1 hrounds
    have hr := isRound h
    rw [← hr.whole, Round.whole] at hs
    refine ih (isChain_join hR hs.left_of_append ?_ hround) hrounds
    exact hs.right_of_append.right_of_append.right_of_append

end

/-- Neighbours of which none is dropped stay neighbours. -/
theorem neighbours_of_sublist {a b : Tracked} {x y : Char × Nat} (hs : s.Nodup) (h : s = a ++ x :: y :: b)
    {l : Tracked} (hl : l.Sublist s) (hx : x ∈ l) (hy : y ∈ l) : ∃ c d, l = c ++ x :: y :: d := by
  subst h
  obtain ⟨-, htail, hdisj⟩ := List.nodup_append'.1 hs
  obtain ⟨hxy, hyb⟩ := List.nodup_cons.1 htail
  obtain ⟨c, l, rfl, hc, hl⟩ := List.sublist_append_iff.1 hl
  have hcx : x ∉ c := fun hm => hdisj (hc.subset hm) List.mem_cons_self
  have hcy : y ∉ c := fun hm => hdisj (hc.subset hm) (by simp)
  have hlx := (List.mem_append.1 hx).resolve_left hcx
  have hly := (List.mem_append.1 hy).resolve_left hcy
  cases hl with
  | cons _ hl => exact absurd (hl.subset hlx) hxy
  | cons_cons _ hl =>
    cases hl with
    | cons _ hl =>
      refine absurd ((List.mem_cons.1 hly).resolve_left ?_) fun hm => (List.nodup_cons.1 hyb).1 (hl.subset hm)
      rintro rfl
      exact hxy List.mem_cons_self
    | cons_cons _ hl => exact ⟨c, _, rfl⟩

theorem sublist_rest (tag : Tag) {s : Tracked} {r : Round} (h : r ∈ (clear tag s).1) :
    (clear tag s).2.Sublist r.rest ∧ r.rest.Sublist s := by
  fun_induction clear tag s with
  | case1 s h' => cases h
  | case2 s e h' rest ih =>
    have hsub := (isRound h').rest_sublist
    rcases List.mem_cons.1 h with rfl | h
    · exact ⟨clear_sublist tag _, hsub⟩
    · exact ⟨(ih h).1, (ih h).2.trans hsub⟩

/-- Two lines meet in a round that has no newline at the seam. -/
theorem rest_eq {r : Round} {x y : Char × Nat} (hx : r.above.getLast? = some x) (hy : r.below.head? = some y)
    (hx0 : x.1 ≠ '\n') (hy0 : y.1 ≠ '\n') : ∃ a b, r.rest = a ++ x :: y :: b := by
  obtain ⟨a, ha⟩ := List.getLast?_eq_some_iff.1 hx
  obtain ⟨b, hb⟩ := List.head?_eq_some_iff.1 hy
  refine ⟨a, b, ?_⟩
  simp [Round.rest, join, ha, hb, dropEndWhile, takeEndWhile, isBreak, isNewline, hx0, hy0]

/-- Neighbours have neighbouring places. -/
theorem isChain_zipIdx (t : Text) (n : Nat) : (t.zipIdx n).IsChain fun x y => y.2 = x.2 + 1 := by
  induction t generalizing n with
  | nil => exact .nil
  | cons c t ih =>
    rw [List.zipIdx_cons]
    refine (ih (n + 1)).cons fun y hy => ?_
    cases t with
    | nil => cases hy
    | cons d t =>
      rw [List.zipIdx_cons, List.head?_cons, Option.mem_some_iff] at hy
      rw [← hy]

end Tracked

/-! ### What is left, and on which lines -/

variable {tag : Tag} {t : Text}

/-- The rounds of a removal. -/
def rounds (tag : Tag) (t : Text) : List Round := (Tracked.clear tag (Tracked.ofText t)).1

/-- What a removal leaves, with the places it comes from. -/
def left (tag : Tag) (t : Text) : Tracked :=
  if isIn tag t then Tracked.fold 0 (Tracked.clear tag (Tracked.ofText t)).2 else Tracked.ofText t

/-- A newline stands in the text between the places of the two characters. -/
def Apart (t : Text) (x y : Char × Nat) : Prop := ∃ n, x.2 < n ∧ n < y.2 ∧ t[n]? = some '\n'

/-- Between two characters that are left and are apart in the text, a newline is left. -/
def KeepsLinesApart (tag : Tag) (t : Text) : Prop :=
  ∀ a m b x y, left tag t = a ++ x :: (m ++ y :: b) → x.1 ≠ '\n' → y.1 ≠ '\n' → Apart t x y →
    ∃ z ∈ m, z.1 = '\n'

theorem text_left (tag : Tag) (t : Text) : (left tag t).text = removeAll tag t := by
  unfold left removeAll
  split
  · rw [Tracked.text_fold, Tracked.text_clear, Tracked.text_ofText]
    rfl
  · exact Tracked.text_ofText t

theorem clear_ofText_of_not_isIn (h : ¬ isIn tag t) :
    Tracked.clear tag (Tracked.ofText t) = ([], Tracked.ofText t) := by
  refine Tracked.clear_of_none ?_
  rw [Tracked.text_ofText]
  simpa [isIn] using h

theorem left_sublist_clear (tag : Tag) (t : Text) :
    (left tag t).Sublist (Tracked.clear tag (Tracked.ofText t)).2 := by
  unfold left
  split
  · exact Tracked.fold_sublist 0 _
  · next h => rw [clear_ofText_of_not_isIn h]

theorem solid_left (tag : Tag) (t : Text) :
    (left tag t).solid = (Tracked.ofText t).solid.filter fun x => ∀ r ∈ rounds tag t, x ∉ r.block := by
  have hclear := Tracked.solid_clear tag (Tracked.nodup_ofText t)
  unfold left
  split
  · rw [Tracked.solid_fold, hclear, rounds]
  · next h => rw [rounds, ← hclear, clear_ofText_of_not_isIn h]

theorem getElem?_of_mem_left {x : Char × Nat} (h : x ∈ left tag t) : t[x.2]? = some x.1 :=
  List.mem_zipIdx_iff_getElem?.1
    (((left_sublist_clear tag t).trans (Tracked.clear_sublist tag _)).subset h)

/-- Two characters that a round brings together, of those that are left. -/
def Meet (tag : Tag) (t : Text) (r : Round) (x y : Char × Nat) : Prop :=
  r.above.getLast? = some x ∧ r.below.head? = some y ∧ x.1 ≠ '\n' ∧ y.1 ≠ '\n' ∧
    x ∈ left tag t ∧ y ∈ left tag t

/-- Characters that a round brings together are neighbours in what is left. -/
theorem Meet.neighbours {r : Round} {x y : Char × Nat} (h : Meet tag t r x y) (hr : r ∈ rounds tag t) :
    ∃ a b, left tag t = a ++ x :: y :: b := by
  obtain ⟨hx, hy, hx0, hy0, hxl, hyl⟩ := h
  obtain ⟨hleft, hrest⟩ := Tracked.sublist_rest tag hr
  obtain ⟨a, b, hab⟩ := Tracked.rest_eq hx hy hx0 hy0
  exact Tracked.neighbours_of_sublist ((Tracked.nodup_ofText t).sublist hrest) hab
    ((left_sublist_clear tag t).trans hleft) hxl hyl

/-- What holds of neighbours in the text, and of those that a round brings together, holds of
neighbours in what is left. -/
theorem isChain_left {R : Char × Nat → Char × Nat → Prop} (hR : Tracked.IgnoresBreaks R)
    (hstart : (Tracked.ofText t).IsChain R)
    (hrounds : ∀ r ∈ rounds tag t, ∀ x ∈ r.above.getLast?, ∀ y ∈ r.below.head?, R x y) :
    (left tag t).IsChain R := by
  unfold left
  split
  · exact Tracked.isChain_fold hR (Tracked.isChain_clear hR tag hstart hrounds) 0
  · exact hstart

/-- The two characters are left and no newlines, and not apart. -/
def Undivided (tag : Tag) (t : Text) (x y : Char × Nat) : Prop :=
  x.1 ≠ '\n' → y.1 ≠ '\n' → x ∈ left tag t → y ∈ left tag t → ¬ Apart t x y

/-- If no round brings together what is apart, no neighbours of those left are apart. -/
theorem isChain_undivided (h : ∀ r ∈ rounds tag t, ∀ x y, Meet tag t r x y → ¬ Apart t x y) :
    (left tag t).IsChain (Undivided tag t) := by
  refine isChain_left (fun x y hxy hx hy => (hxy.elim hx hy).elim) ?_ ?_
  · refine (Tracked.isChain_zipIdx t 0).imp fun x y hxy _ _ _ _ => ?_
    rintro ⟨n, hxn, hny, -⟩
    omega
  · exact fun r hr x hx y hy hx0 hy0 hxl hyl => h r hr x y ⟨hx, hy, hx0, hy0, hxl, hyl⟩

/-- Two characters without a newline between them are not apart if no neighbours are. -/
theorem not_apart_of_isChain {m b : Tracked} {x y : Char × Nat}
    (hleft : ∀ z ∈ x :: (m ++ [y]), z ∈ left tag t) (hsolid : ∀ z ∈ x :: (m ++ [y]), z.1 ≠ '\n')
    (h : (x :: (m ++ y :: b)).IsChain (Undivided tag t)) : ¬ Apart t x y := by
  induction m generalizing x with
  | nil => exact h.rel (hsolid x (by simp)) (hsolid y (by simp)) (hleft x (by simp)) (hleft y (by simp))
  | cons z m ih =>
    obtain ⟨hxl, hleft⟩ := List.forall_mem_cons.1 hleft
    obtain ⟨hx0, hsolid⟩ := List.forall_mem_cons.1 hsolid
    have hzl := hleft z List.mem_cons_self
    have hz0 := hsolid z List.mem_cons_self
    rintro ⟨n, hxn, hny, hn⟩
    -- a newline between the two is in front of `z` or behind it
    rcases lt_trichotomy n z.2 with hlt | rfl | hgt
    · exact h.rel hx0 hz0 hxl hzl ⟨n, hxn, hlt, hn⟩
    · exact hz0 (Option.some.inj ((getElem?_of_mem_left hzl).symm.trans hn))
    · exact ih hleft hsolid h.tail ⟨n, hgt, hny, hn⟩

/-- **Removal and the lines of the text.** What removal leaves are characters of the text in their
order, and apart from newlines it leaves all of those that stand in no block. It keeps lines apart
exactly if no round brings together characters of different lines: the text in front of a begin
marker and that of the line below the end marker. -/
theorem removeAll_keeps_lines_apart_iff (tag : Tag) (t : Text) :
    (left tag t).text = removeAll tag t ∧
      (left tag t).solid = (Tracked.ofText t).solid.filter (fun x => ∀ r ∈ rounds tag t, x ∉ r.block) ∧
      (KeepsLinesApart tag t ↔ ∀ r ∈ rounds tag t, ∀ x y, Meet tag t r x y → ¬ Apart t x y) := by
  refine ⟨text_left tag t, solid_left tag t, fun h r hr x y hm hxy => ?_, fun h a m b x y hleft hx hy hxy => ?_⟩
  · obtain ⟨a, b, hleft⟩ := hm.neighbours hr
    obtain ⟨z, hz, -⟩ := h a [] b x y hleft hm.2.2.1 hm.2.2.2.1 hxy
    cases hz
  · by_contra hn
    simp only [not_exists, not_and] at hn
    have hchain := isChain_undivided h
    rw [hleft] at hchain
    refine not_apart_of_isChain (m := m) (b := b) (fun z hz => ?_) (fun z hz => ?_) hchain.right_of_append hxy
    · rw [hleft]
      simp only [List.mem_cons, List.mem_append, List.not_mem_nil, or_false] at hz ⊢
      tauto
    · simp only [List.mem_cons, List.mem_append, List.not_mem_nil, or_false] at hz
      rcases hz with rfl | hz | rfl
      · exact hx
      · exact hn z hz
      · exact hy

/-- Text in front of a begin marker, and a line below the end marker. -/
def sharedLine : Text := "a # --- BEGIN annotate:schema ---\n# --- END annotate:schema ---\nb\n".toList

example : removeAll .schema sharedLine = "a b\n".toList := by
  unfold sharedLine
  repeat rewrite [String.toList_ofList]
  decide +kernel

/-- Text in front of a begin marker and the line below the block come to stand on one line. -/
theorem removeAll_joins_lines : ¬ KeepsLinesApart .schema sharedLine := by
  intro h
  have hleft : left .schema sharedLine = [('a', 0), (' ', 1), ('b', 64), ('\n', 65)] := by
    -- the text is spelled out, as a literal is decoded anew wherever it is compared
    unfold sharedLine
    repeat rewrite [String.toList_ofList]
    decide +kernel
  have hnewline : sharedLine[33]? = some '\n' := by
    unfold sharedLine
    repeat rewrite [String.toList_ofList]
    decide
  obtain ⟨z, hz, hz0⟩ := h [] [(' ', 1)] [('\n', 65)] ('a', 0) ('b', 64) hleft (by decide) (by decide)
    ⟨33, by decide, by decide, hnewline⟩
  rw [List.mem_singleton] at hz
  subst hz
  cases hz0

end Block
end Marginalia
