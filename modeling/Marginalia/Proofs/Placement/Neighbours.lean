/-
# Blocks of two tags in one text

Blocks that are put beside classes or at the top do not split a block that
stands in the text: if it is the only one of its tag it stays the only one
(`Block.Amid.weave`, `Block.Amid.atTop`). Blocks that are put beside different
code lines may be put in either order (`Placement.weave_comm`).

Key theorems: `Placement.weave_append`, `Placement.weave_comm`, `Block.Amid.weave`,
`Block.Amid.atTop`.
-/
import Marginalia.Proofs.Placement.Patching

namespace Marginalia

open Text Block

namespace Placement

variable {pos : Position} {f g : Nat → List Text} {a b t : Text} {s tag : Tag}

/-- Lines are woven into two texts part by part. -/
theorem weave_append (ha : Terminated a) (b : Text) : weave pos g (a ++ b) =
    weave pos g a ++ weave pos (fun i => g (i + (codeLines a).length)) b := by
  induction a using lineRec generalizing g with
  | nil => rfl
  | last r hr h0 => exact absurd ha (not_terminated hr h0)
  | line r t hr ih =>
    rw [terminated_line_iff] at ha
    rw [List.append_assoc, List.cons_append]
    cases hn : isNote r with
    | true =>
      rw [weave_note hr hn, weave_note hr hn, ih ha, codeLines_note hr hn, List.append_assoc, List.cons_append]
    | false =>
      have hshift : (fun i => g (i + (codeLines t).length + 1)) =
          fun i => g (i + (codeLines (r ++ '\n' :: t)).length) := by
        funext i
        rw [codeLines_code hr hn, List.length_cons, Nat.add_assoc]
      have ht := ih (g := fun i => g (i + 1)) ha
      rw [hshift] at ht
      by_cases hp : pos = .after
      · subst hp
        rw [weave_below hr hn, weave_below hr hn, ht]
        simp only [List.append_assoc, List.cons_append]
      · rw [weave_above hp hr hn, weave_above hp hr hn, ht]
        simp only [List.append_assoc, List.cons_append]

theorem terminated_weave (ha : Terminated a) : Terminated (weave pos g a) := by
  induction a using lineRec generalizing g with
  | nil => exact terminated_nil
  | last r hr h0 => exact absurd ha (not_terminated hr h0)
  | line r t hr ih =>
    rw [terminated_line_iff] at ha
    cases hn : isNote r with
    | true =>
      rw [weave_note hr hn, terminated_line_iff]
      exact ih ha
    | false =>
      by_cases hp : pos = .after
      · subst hp
        rw [weave_below hr hn, terminated_line_iff]
        exact (terminated_paragraph _).append (ih ha)
      · rw [weave_above hp hr hn]
        exact (terminated_paragraph _).append (terminated_line_iff.2 (ih ha))

/-- Woven lines are there already or woven in. -/
theorem mem_weaveRows {ls : List Text} {l : Text} (h : l ∈ weaveRows pos g ls) : l ∈ ls ∨ ∃ i, l ∈ g i := by
  induction ls generalizing g with
  | nil => cases h
  | cons m ls ih =>
    rw [weaveRows] at h
    split at h
    · rcases List.mem_cons.1 h with rfl | h
      · exact .inl List.mem_cons_self
      · exact (ih h).imp_left (List.mem_cons_of_mem m)
    · rcases List.mem_append.1 h with h | h
      · have h : l ∈ g 0 ∨ l = m := by
          cases pos <;> simpa [join, or_comm] using h
        rcases h with h | rfl
        · exact .inr ⟨0, h⟩
        · exact .inl List.mem_cons_self
      · rcases ih h with h | ⟨i, h⟩
        · exact .inl (List.mem_cons_of_mem m h)
        · exact .inr ⟨i + 1, h⟩

/-- Lines may be woven in in either order if they do not meet. -/
theorem weave_comm (hf : Whole f) (hg : Whole g) (hfn : ∀ i, ∀ l ∈ f i, isNote l = true)
    (hgn : ∀ i, ∀ l ∈ g i, isNote l = true) (h : ∀ i, f i = [] ∨ g i = []) (t : Text) :
    weave pos g (weave pos f t) = weave pos f (weave pos g t) := by
  have hjoin : (fun i => join pos (f i) (g i)) = fun i => join pos (g i) (f i) := by
    funext i
    by_cases hp : pos = .after
    · subst hp
      rcases h i with h | h <;> simp [join_after, h]
    · rcases h i with h | h <;> simp [join_above hp, h]
  rw [weave_weave hf hfn, weave_weave hg hgn, hjoin]

/-- The frames of a tag hold no begin marker of another one. -/
theorem AreFrames.lacks_marker {ls : List Text} (h : AreFrames tag ls) (hs : s ≠ tag) :
    ∀ l ∈ ls, ¬ s.beginMarker <:+: l := by
  obtain ⟨fs, hf, rfl⟩ := h
  intro l hl
  obtain ⟨f, hm, hl⟩ := List.mem_flatMap.1 hl
  have hv : ∀ p ∈ [Part.block tag (Block.framed tag f.1 f.2)], p.Valid := by
    simpa using valid_framed (hf f hm).1 (hf f hm).2
  have ha : ∀ p ∈ [Part.block tag (Block.framed tag f.1 f.2)], p.Avoids s := by
    simpa [Part.Avoids, Part.block?] using hs.symm
  exact Part.not_infix_of_avoids hv ha l (by simpa [Part.lines] using hl)

/-! ### Below the leading directives -/

open Directive

/-- The leading directives end above a text that has none. -/
theorem headerLength_append_le {b : Text} (ha : Terminated a) (hb : headerLength b = 0) :
    headerLength (a ++ b) ≤ (rawLines a).length := by
  induction a using lineRec with
  | nil => exact Nat.le_of_eq hb
  | last r hr h0 => exact absurd ha (not_terminated hr h0)
  | line r t hr ih =>
    rw [terminated_line_iff] at ha
    rw [List.append_assoc, List.cons_append, headerLength_line hr, rawLines_line hr, List.length_cons]
    split
    · exact Nat.succ_le_succ (ih ha)
    · exact Nat.zero_le _

/-- What is put at the top of two texts, the second of which has no leading directives, is put into the
first one. -/
theorem exists_atTop_append_eq (ha : Terminated a) (hb : headerLength b = 0) (hn : b.head? ≠ some '\n')
    (h0 : b ≠ []) (block : Text) : ∃ head rest, a = head ++ rest ∧
      solidLines a = solidLines head ++ solidLines rest ∧
      atTop (a ++ b) block = topHead head ++ (block ++ '\n' :: '\n' :: (dropNewlines rest ++ b)) := by
  let n := headerLength (a ++ b)
  let head := ((rawLines a).take n).flatten
  let rest := ((rawLines a).drop n).flatten
  have hle : n ≤ (rawLines a).length := headerLength_append_le ha hb
  have hsplit : splitHeader (a ++ b) = (head, rest ++ b) := by
    rw [splitHeader, rawLines_append ha, List.take_append_of_le_length hle, List.drop_append_of_le_length hle,
      List.flatten_append, rawLines_flatten b]
  have hdrop : dropNewlines (rest ++ b) = dropNewlines rest ++ b := by
    have hbn := dropNewlines_of_head? hn
    rw [dropNewlines] at hbn
    simp only [dropNewlines, List.dropWhile_append]
    split
    · next h => rw [hbn, List.isEmpty_iff.1 h, List.nil_append]
    · rfl
  refine ⟨head, rest, ?_, (solidLines_take_append_drop a n).symm, ?_⟩
  · rw [← List.flatten_append, List.take_append_drop, rawLines_flatten]
  · have hne : dropNewlines rest ++ b ≠ [] := by simp [h0]
    rw [atTop_eq, hsplit]
    simp only [hdrop, if_neg hne]

/-- A block at the top leaves no empty line there. -/
theorem head?_atTop {block : Text} (hb : IsFrame tag block) (t : Text) : (atTop t block).head? ≠ some '\n' := by
  obtain ⟨cs, -, rfl⟩ := hb
  obtain ⟨u, hu, -⟩ := (Marker.opening tag).exists_text_eq
  have hu : tag.beginMarker = '#' :: u := hu
  have hsplit := splitHeader_append t
  rw [atTop_eq]
  cases hh : (splitHeader t).1 with
  | nil => simp [topHead, frame_eq, hu]
  | cons d head =>
    rw [hh, List.cons_append] at hsplit
    have hd : d ≠ '\n' := by
      rintro rfl
      rw [← hsplit, splitHeader_of_headerLength (headerLength_newline _)] at hh
      cases hh
    simpa [topHead] using hd

/-- What a block that is placed at the top brings about holds once blocks were placed there, if it is not undone
when there is nothing to place. -/
theorem placeAll_top_induction {P : Text → Prop} {order : List (Declaration × Request)}
    (hb : ∀ y ∈ order, IsPlain tag y.2.block) (hP : ∀ t block, IsFrame tag block → P (atTop t block))
    (h : P t ∨ ∃ y ∈ order, y.2.block ≠ []) : P (placeAll .top t order) := by
  induction order generalizing t with
  | nil => exact h.resolve_right (by simp)
  | cons y order ih =>
    rw [List.forall_mem_cons] at hb
    by_cases h0 : y.2.block = []
    · rw [placeAll_cons_nil h0]
      exact ih hb.2 (h.imp_right (by simp [h0]))
    · obtain ⟨cs, hc, -, hbl⟩ := hb.1.resolve_left h0
      rw [placeAll_cons h0]
      exact ih hb.2 (.inl (hP t _ ⟨cs, hc, hbl⟩))

end Placement

namespace Block.Amid

open Placement Directive

variable {pos : Position} {g : Nat → List Text} {a c x : Text} {s tag : Tag} {cs : List Text}

/-- A block stays the only one of its tag if frames of another tag are woven in. -/
theorem weave (hx : Amid s cs a ('\n' :: c) x) (hc : CommentLines cs) (hs : s ≠ tag)
    (hg : ∀ i, AreFrames tag (g i)) : ∃ a' c', Amid s cs a' ('\n' :: c') (weave pos g x) := by
  obtain ⟨indent, hi, rfl⟩ := hx.eq
  have hwhole : ∀ l ∈ framed s indent cs, '\n' ∉ l := newline_not_mem_framed hi hc
  have hnote : ∀ l ∈ framed s indent cs, isNote l = true := isNote_of_mem_framed hi hc
  have hfresh {g : Nat → List Text} (hg : ∀ i, AreFrames tag (g i)) {u : Text} (hu : ¬ s.beginMarker <:+: u) :
      ¬ (Marker.opening s).text <:+: Placement.weave pos g u := by
    rw [Marker.infix_iff_solidLines]
    rintro ⟨l, hl, hm⟩
    rw [solidLines_weave fun i => (hg i).whole] at hl
    rcases mem_weaveRows hl with hl | ⟨i, hl⟩
    · exact hu ((Marker.opening s).infix_iff_solidLines.2 ⟨l, hl, hm⟩)
    · exact (hg i).lacks_marker hs l hl hm
  have hbelow : ¬ s.beginMarker <:+: c := fun h => hx.fresh_below (h.trans (List.suffix_cons _ _).isInfix)
  refine ⟨Placement.weave pos g a, Placement.weave pos (fun i => g (i + (codeLines a).length)) c, ⟨indent, hi, ?_⟩,
    terminated_weave hx.above, detached_newline_cons _, hfresh hg hx.fresh_above, ?_⟩
  · rw [frame_append_newline, weave_append hx.above, weave_paragraph_append hwhole hnote, frame_append_newline]
  · show ¬ (Marker.opening s).text <:+: _
    rw [Marker.infix_iff_solidLines, solidLines_newline_cons, ← Marker.infix_iff_solidLines]
    exact hfresh (fun i => hg _) hbelow

/-- A block stays the only one of its tag if one of another tag is placed at the top. -/
theorem atTop (hx : Amid s cs a c x) (hs : s ≠ tag) {ds : List Text} (hd : CommentLines ds) :
    ∃ a', Amid s cs a' c (atTop x (frame tag [] ds)) := by
  obtain ⟨indent, hi, rfl⟩ := hx.eq
  have hnl : '\n' ∉ indent ++ s.beginMarker := by
    rw [List.mem_append]
    exact fun h => h.elim hi.newline_not_mem (Marker.newline_not_mem_text (.opening s))
  obtain ⟨t, ht⟩ : ∃ t, frame s indent cs ++ c = (indent ++ s.beginMarker) ++ '\n' :: t := by
    refine ⟨paragraph (cs.map (indent ++ ·)) ++ (indent ++ s.endMarker) ++ c, ?_⟩
    simp only [frame_eq, List.append_assoc, List.cons_append]
  have hhead : headerLength (frame s indent cs ++ c) = 0 := by
    have hdir : isDirective (indent ++ s.beginMarker) = false := not_isDirective_marker hi (.opening s)
    rw [ht, headerLength_line hnl, isDirective_dropReturn, hdir, if_neg Bool.false_ne_true]
  have h0 : frame s indent cs ++ c ≠ [] := by simp [frame_ne_nil]
  have hfirst : (frame s indent cs ++ c).head? ≠ some '\n' := by
    intro h
    rw [ht, List.head?_append_of_ne_nil _ (by simp [s.beginMarker_ne_nil])] at h
    exact hnl (List.mem_of_head? h)
  obtain ⟨head, rest, rfl, hsolid, he⟩ :=
    exists_atTop_append_eq hx.above hhead hfirst h0 (frame tag [] ds)
  refine ⟨topHead head ++ (frame tag [] ds ++ '\n' :: '\n' :: dropNewlines rest), ⟨indent, hi, ?_⟩, ?_, hx.below, ?_,
    hx.fresh_below⟩
  · rw [he]
    simp only [List.append_assoc, List.cons_append]
  · have hrest : Terminated (dropNewlines rest) := by
      by_cases hd0 : dropNewlines rest = []
      · exact .inl hd0
      · have ha := hx.above
        rw [← List.takeWhile_append_dropWhile (p := isNewline) (l := rest), ← List.append_assoc] at ha
        exact (terminated_append_iff hd0).1 ha
    have hline : Terminated ([] ++ '\n' :: dropNewlines rest) := terminated_line_iff.2 hrest
    exact (terminated_topHead head).append (terminated_line_iff.2 hline)
  · have hnew : solidLines (topHead head ++ (frame tag [] ds ++ '\n' :: '\n' :: dropNewlines rest)) =
        solidLines head ++ (framed tag [] ds ++ solidLines rest) := by
      rw [solidLines_append (terminated_topHead _), solidLines_topHead, solidLines_append_newline,
        solidLines_frame .nil hd, solidLines_newline_cons, solidLines_dropNewlines]
    have habove : ∀ l ∈ solidLines head ++ solidLines rest, ¬ s.beginMarker <:+: l := fun l hl hm =>
      hx.fresh_above ((Marker.opening s).infix_iff_solidLines.2 ⟨l, hsolid ▸ hl, hm⟩)
    rw [List.forall_mem_append] at habove
    show ¬ (Marker.opening s).text <:+: _
    rw [Marker.infix_iff_solidLines, hnew]
    rintro ⟨l, hl, hm⟩
    rcases List.mem_append.1 hl with hl | hl
    · exact habove.1 l hl hm
    · rcases List.mem_append.1 hl with hl | hl
      · exact (AreFrames.framed .nil hd).lacks_marker hs l hl hm
      · exact habove.2 l hl hm

/-- A block stays the only one of its tag if blocks of another tag are placed. -/
theorem placeAll {order : List (Declaration × Request)} (hx : Amid s cs a ('\n' :: c) x) (hc : CommentLines cs)
    (hs : s ≠ tag) (hb : ∀ y ∈ order, IsPlain tag y.2.block)
    (ho : order.Pairwise fun x y => anchorLine pos y.1 ≤ anchorLine pos x.1)
    (hseat : ∀ y ∈ order, ∃ i j, y.1.Sits x i j) :
    ∃ a' c', Amid s cs a' ('\n' :: c') (Placement.placeAll pos x order) := by
  by_cases hp : pos = .top
  · subst hp
    clear ho hseat
    induction order generalizing a x with
    | nil => exact ⟨a, c, hx⟩
    | cons y order ih =>
      rw [List.forall_mem_cons] at hb
      by_cases h0 : y.2.block = []
      · rw [placeAll_cons_nil h0]
        exact ih hx hb.2
      · obtain ⟨ds, hd, -, hbl⟩ := hb.1.resolve_left h0
        obtain ⟨a', hx'⟩ := hx.atTop hs hd
        rw [placeAll_cons h0, hbl]
        exact ih hx' hb.2
  · obtain ⟨ps, hps, hw, -⟩ := exists_weave hp hb ho rfl (forall₂_keeps₂_self hseat)
    rw [hw]
    exact hx.weave hc hs (areFrames_gather fun p hm => (hps p hm).1)

end Block.Amid
end Marginalia
