/-
# Blocks of two tags removed in either order

Taken out with its line end and nothing else, a block leaves all other blocks
where they stand, so it does not matter which tag goes first (`Block.bare_comm`).
Removal does more: it drops one more newline below a block at the top of the
text or below an empty line, and it folds blank runs. Below a line that is
kept neither can be told from folding at the end, and so the two orders agree
there (`Block.go_exciseAll`, which starts at any number of newlines kept before).

At the top of the text they can be told apart. A block there takes one
separator along, while the other tag's blocks are gone before it or not, and it
leaves newlines at the top only if more than one empty line stands below it
(`Block.head?_exciseAll`). The tag removed first finds these empty lines as they
are, the other one finds them folded. So the two results differ exactly
if both tags have a block and the text opens wide with blocks of one of them,
and then they differ in the newlines at the top (`Block.removeAll_comm_iff`).

Key definitions: `Block.bare`, `Block.OpensWide`.
Key theorems: `Block.bare_comm`, `Block.go_exciseAll`, `Block.head?_exciseAll`,
`Block.removeAll_comm_iff`.
-/
import Marginalia.Proofs.Block.Exhausting
import Marginalia.Proofs.Block.Keeping

namespace Marginalia

open Text

namespace Text

/-- The lines below a line end. -/
theorem Detached.solidLines_tail {t : Text} (h : Detached t) : solidLines t.tail = solidLines t := by
  by_cases h0 : t = []
  · rw [h0, List.tail_nil]
  · obtain ⟨r, rfl⟩ := h.exists_eq h0
    rw [List.tail_cons, solidLines_newline_cons]

/-- Whole lines put on top of a well-marked text. -/
theorem WellMarked.append {a t : Text} (ha : WellMarked a) (hw : Terminated a) (ht : WellMarked t) :
    WellMarked (a ++ t) :=
  (ha.hasParts.append ht.hasParts (solidLines_append hw t)).wellMarked

end Text

namespace Excerpt

open foldBlankRuns (go)

variable {tag : Tag} {a t x : Text} {e : Excerpt}

theorem head?_text (h : find? tag t = some e) : e.text.head? ≠ some '\n' := by
  obtain ⟨indent, inner, hf⟩ := find?_eq_some_iff.1 h
  intro hn
  have hb : tag.beginMarker.head? ≠ some '\n' := by cases tag <;> decide
  cases indent with
  | nil =>
    rw [hf.text_eq, List.nil_append, List.head?_append, Option.or_of_isSome (by cases tag <;> rfl)] at hn
    exact hb hn
  | cons c indent =>
    rw [hf.text_eq, List.cons_append, List.head?_cons, Option.some.injEq] at hn
    exact hf.isIndentation.newline_not_mem (hn ▸ List.mem_cons_self)

/-- What is found is cut out at the ends of lines, and what is around it is well-marked. -/
theorem around_of_find? (h : WellMarked t) (he : find? tag t = some e) :
    Terminated e.before ∧ Detached e.after ∧ WellMarked e.before ∧ WellMarked e.after.tail := by
  obtain ⟨pre, ls, post, indent, -, -, -, hb, ha, hsp⟩ := h.hasParts.exists_of_find? he
  exact ⟨hsp.before, hsp.after, hb.wellMarked, (ha.of_solidLines_eq hsp.after.solidLines_tail).wellMarked⟩

/-- The text from a block on is well-marked. -/
theorem wellMarked_from (h : WellMarked t) (he : find? tag t = some e) : WellMarked (e.text ++ e.after) := by
  obtain ⟨pre, ls, post, indent, hps, -, -, -, ha, hsp⟩ := h.hasParts.exists_of_find? he
  have hp := h.hasParts
  rw [hps] at hp
  exact ((hp.text_of_spans (whole_find? he) hsp).append ha (solidLines_append_detached hsp.after _)).wellMarked

/-- Below whole lines without a begin marker the same block is found. -/
theorem find?_below (h : WellMarked t) (ha : Terminated a) (hb : ¬ tag.beginMarker <:+: a) :
    find? tag (a ++ t) = (find? tag t).map fun e => { e with before := a ++ e.before } := by
  have happend {b : Text} (hm : ¬ tag.beginMarker <:+: b) : ¬ tag.beginMarker <:+: a ++ b := fun hin =>
    (infix_append_of_terminated (Marker.newline_not_mem_text (.opening tag)) ha hin).elim hb hm
  cases he : find? tag t with
  | none => exact find?_eq_none (happend (h.hasParts.not_infix_iff.2 (h.hasParts.find?_eq_none_iff.1 he)))
  | some e =>
    obtain ⟨indent, inner, hf⟩ := find?_eq_some_iff.1 he
    have hbefore := (around_of_find? h he).1
    refine find?_eq_some_iff.2 ⟨indent, inner, ?_, hf.text_eq, hf.isIndentation, .inl (ha.append hbefore),
      happend hf.first, hf.nearest⟩
    rw [← hf.whole_eq, whole, whole]
    simp only [List.append_assoc]

/-- What stands below a block has no part in its being found. -/
theorem find?_above (he : find? tag t = some e) (c : Text) :
    find? tag (e.before ++ (e.text ++ c)) = some { e with after := c } := by
  obtain ⟨indent, inner, hf⟩ := find?_eq_some_iff.1 he
  refine find?_eq_some_iff.2 ⟨indent, inner, ?_, hf.text_eq, hf.isIndentation, hf.start, hf.first, hf.nearest⟩
  simp only [whole, List.append_assoc]

/-- A block holds no begin marker of another tag. -/
theorem not_infix_text {s : Tag} (h : WellMarked t) (he : find? tag t = some e) (hs : tag ≠ s) :
    ¬ s.beginMarker <:+: e.text := by
  obtain ⟨pre, ls, post, indent, hps, -, -, -, -, hsp⟩ := h.hasParts.exists_of_find? he
  have hp := h.hasParts
  rw [hps] at hp
  refine (hp.text_of_spans (whole_find? he) hsp).lacks_marker ?_
  simp [Part.Avoids, Part.block?, hs]

/-- In a text that is the same once both are folded, a block is found in a place that is the same. -/
theorem exists_find?_of_go_eq {run : Nat} (h : WellMarked t) (he : find? tag t = some e) (hx : go run x = go run t) :
    ∃ e', find? tag x = some e' ∧ go run e'.before = go run e.before ∧ Alike e'.after e.after ∧
      Terminated e'.before ∧ Detached e'.after := by
  have hsolid : solidLines x = solidLines t := by rw [← solidLines_go run x, hx, solidLines_go]
  have hp := h.hasParts
  obtain ⟨pre, ls, post, _, hps, -, hfirst, -, -, hsp⟩ := hp.exists_of_find? he
  rw [hps] at hp
  obtain ⟨e', _, he', -, hsp'⟩ := (hp.of_solidLines_eq hsolid).exists_find? hfirst
  have heq := (find?_go he' hsp'.before run).symm.trans
    ((congrArg (find? tag) hx).trans (find?_go he hsp.before run))
  simp only [Option.some.injEq, Excerpt.mk.injEq] at heq
  exact ⟨e', he', heq.1, heq.2.2, hsp'.before, hsp'.after⟩

end Excerpt

namespace Block

open Excerpt
open foldBlankRuns (go)

variable {tag s u : Tag} {a t x y : Text} {e : Excerpt} {run : Nat}

/-! ### Blocks taken out with their line ends -/

theorem length_after_lt (h : find? tag t = some e) : e.after.tail.length < t.length := by
  have h₁ : 0 < e.text.length := List.length_pos_iff.2 (text_ne_nil h)
  have h₂ := congrArg List.length (whole_find? h)
  simp only [whole, List.length_append] at h₂
  rw [List.length_tail]
  omega

/-- The text without the blocks of the tag and their line ends; nothing else is left out. -/
def bare (tag : Tag) (t : Text) : Text :=
  match _h : find? tag t with
  | none => t
  | some e => e.before ++ bare tag e.after.tail
termination_by t.length
decreasing_by exact length_after_lt _h

theorem bare_of_none (h : find? tag t = none) : bare tag t = t := by
  rw [bare]
  split
  · rfl
  · next h' => rw [h] at h'; cases h'

theorem bare_of_some (h : find? tag t = some e) : bare tag t = e.before ++ bare tag e.after.tail := by
  rw [bare]
  split
  · next h' => rw [h] at h'; cases h'
  · next h' => rw [h] at h'; cases h'; rfl

@[simp] theorem bare_nil (tag : Tag) : bare tag [] = [] :=
  bare_of_none (find?_eq_none (by simp [tag.beginMarker_ne_nil]))

/-- Whole lines without a begin marker are kept. -/
theorem bare_append (h : WellMarked t) (ha : Terminated a) (hb : ¬ tag.beginMarker <:+: a) :
    bare tag (a ++ t) = a ++ bare tag t := by
  have hfind := find?_below h ha hb
  cases he : find? tag t with
  | none =>
    rw [he, Option.map_none] at hfind
    rw [bare_of_none hfind, bare_of_none he]
  | some e =>
    rw [he, Option.map_some] at hfind
    rw [bare_of_some hfind, bare_of_some he, List.append_assoc]

theorem hasParts_bare {ps : List Part} (h : HasParts t ps) : HasParts (bare tag t) (ps.filter (·.Avoids tag)) := by
  fun_induction bare tag t generalizing ps with
  | case1 t hn => rwa [List.filter_eq_self.2 (by simpa using h.find?_eq_none_iff.1 hn)]
  | case2 t e he ih =>
    obtain ⟨pre, ls, post, indent, rfl, -, hp, hb, ha, hsp⟩ := h.exists_of_find? he
    have hbelow := ih (ha.of_solidLines_eq hsp.after.solidLines_tail)
    have hpre : pre.filter (·.Avoids tag) = pre := List.filter_eq_self.2 (by simpa using hp)
    rw [List.filter_append, hpre, List.filter_cons_of_neg (by simp [Part.Avoids, Part.block?])]
    exact hb.append hbelow (solidLines_append hsp.before _)

theorem wellMarked_bare (h : WellMarked t) (tag : Tag) : WellMarked (bare tag t) :=
  (hasParts_bare h.hasParts).wellMarked

theorem bare_bare_of_none (h : WellMarked t) (hs : find? s t = none) : bare s (bare u t) = bare u t := by
  refine bare_of_none ((hasParts_bare h.hasParts).find?_eq_none fun p hp => ?_)
  exact h.hasParts.find?_eq_none_iff.1 hs p (List.mem_filter.1 hp).1

/-- Of the blocks of two tags that are found, one has no begin marker of the other tag above it. -/
theorem exists_first {d : Excerpt} (he : find? s t = some e) (hd : find? u t = some d) :
    ¬ u.beginMarker <:+: e.before ∨ ¬ s.beginMarker <:+: d.before := by
  obtain ⟨_, _, hs⟩ := find?_eq_some_iff.1 he
  obtain ⟨_, _, hu⟩ := find?_eq_some_iff.1 hd
  have habove {e : Excerpt} (h : e.whole = t) : e.before <+: t := by
    rw [← h, whole, List.append_assoc]
    exact List.prefix_append _ _
  rcases List.prefix_or_prefix_of_prefix (habove hs.whole_eq) (habove hu.whole_eq) with hle | hle
  · exact .inl fun hin => hu.first (hin.trans hle.isInfix)
  · exact .inr fun hin => hs.first (hin.trans hle.isInfix)

/-- A block is kept, with its line end, when those of another tag are taken out below it. -/
theorem bare_of_other (h : WellMarked t) (he : find? s t = some e) (hne : s ≠ u)
    (hb : ¬ u.beginMarker <:+: e.before) :
    bare u t = e.before ++ (e.text ++ (e.after.take 1 ++ bare u e.after.tail)) := by
  obtain ⟨hbefore, hafter, -, hbelow⟩ := around_of_find? h he
  have hn : '\n' ∉ u.beginMarker := Marker.newline_not_mem_text (.opening u)
  have hlack : ¬ u.beginMarker <:+: e.before ++ e.text := fun hin =>
    (infix_append_of_terminated hn hbefore hin).elim hb (not_infix_text h he hne)
  have hwhole := whole_find? he
  by_cases h0 : e.after = []
  · -- the block ends the text
    rw [whole, h0, List.append_nil] at hwhole
    rw [bare_of_none (find?_eq_none (hwhole ▸ hlack)), h0, List.take_nil, List.tail_nil, bare_nil,
      List.append_nil, List.append_nil, hwhole]
  · obtain ⟨c, hc⟩ := hafter.exists_eq h0
    rw [hc, List.tail_cons] at hbelow
    have hlack' : ¬ u.beginMarker <:+: e.before ++ e.text ++ ['\n'] := by
      rw [infix_append_newline hn, List.infix_nil]
      exact fun hin => hin.elim hlack u.beginMarker_ne_nil
    have hsplit : t = e.before ++ e.text ++ ['\n'] ++ c := by
      rw [← hwhole, whole, hc, List.append_assoc _ ['\n'], List.singleton_append]
    rw [hsplit, bare_append hbelow (terminated_append_newline _) hlack', hc]
    simp only [List.append_assoc, List.take_succ_cons, List.take_zero, List.tail_cons]

theorem bare_comm_of_first (h : WellMarked t) (he : find? s t = some e) (hne : s ≠ u)
    (hb : ¬ u.beginMarker <:+: e.before)
    (ih : bare s (bare u e.after.tail) = bare u (bare s e.after.tail)) : bare s (bare u t) = bare u (bare s t) := by
  obtain ⟨hbefore, -, -, hbelow⟩ := around_of_find? h he
  have hother := bare_of_other h he hne hb
  have hrest : (e.after.take 1 ++ bare u e.after.tail).tail = bare u e.after.tail := by
    cases e.after with
    | nil => rw [List.take_nil, List.nil_append, List.tail_nil, bare_nil, List.tail_nil]
    | cons c cs => rw [List.take_succ_cons, List.take_zero, List.singleton_append, List.tail_cons, List.tail_cons]
  calc bare s (bare u t) = e.before ++ bare s (bare u e.after.tail) := by
        rw [hother, bare_of_some (find?_above he _), hrest]
    _ = e.before ++ bare u (bare s e.after.tail) := by rw [ih]
    _ = bare u (e.before ++ bare s e.after.tail) := (bare_append (wellMarked_bare hbelow s) hbefore hb).symm
    _ = bare u (bare s t) := by rw [bare_of_some he]

/-- It does not matter which blocks are taken out first. -/
theorem bare_comm (h : WellMarked t) (s u : Tag) : bare s (bare u t) = bare u (bare s t) := by
  by_cases hne : s = u
  · rw [hne]
  · induction hn : t.length using Nat.strongRecOn generalizing t with
    | ind n ih =>
      have below {tag : Tag} {e : Excerpt} (he : find? tag t = some e) :
          bare s (bare u e.after.tail) = bare u (bare s e.after.tail) :=
        ih _ (hn ▸ length_after_lt he) (around_of_find? h he).2.2.2 rfl
      cases hs : find? s t with
      | none => rw [bare_bare_of_none h hs, bare_of_none hs]
      | some e =>
        cases hu : find? u t with
        | none => rw [bare_bare_of_none h hu, bare_of_none hu]
        | some d =>
          rcases exists_first hs hu with hb | hb
          · exact bare_comm_of_first h hs hne hb (below hs)
          · exact (bare_comm_of_first h hu (Ne.symm hne) hb (below hu).symm).symm

/-! ### Removal below a newline -/

/-- Below a newline that is kept, taking out a block with its separator is, up to folding, taking it out
with its line end. -/
theorem go_excise (ha : Detached e.after) (hk : run = 0 ∨ run = 2)
    (hr : 1 ≤ endRun run e.before) : go run (excise e) = go run (e.before ++ e.after.tail) := by
  have hseam := (alike_joinSeam e.before (dropSeparator e.before e.after)).go_eq run
  rw [excise, hseam]
  by_cases h0 : e.after = []
  · rw [h0]
    rfl
  · obtain ⟨d, hd⟩ := ha.exists_eq h0
    rw [hd, List.tail_cons]
    rcases dropSeparator_newline e.before d with he | ⟨d', rfl, hsep, he⟩
    · rw [he]
    · -- a second newline goes as well: two were kept before it
      have h2 : 2 ≤ endRun run e.before := by
        rcases hsep with hsep | hsep
        · rw [hsep, endRun] at hr ⊢
          omega
        · obtain ⟨r, hr'⟩ := Option.isSome_iff_exists.1 hsep
          have hends : e.before = r.reverse ++ ['\n', '\n'] := by
            rw [← List.reverse_reverse e.before, ← after?_eq hr', List.reverse_append]
            rfl
          exact hends ▸ two_le_endRun _ run
      rw [he, go_append, go_append, go_newline_of_le h2]

/-- The text of the file is known up to folding, and so is what is left of it. -/
theorem go_append_tail {b b' c c' : Text} (hb : go run b' = go run b) (hc : Alike c' c) (hd : Detached c')
    (hd' : Detached c) (hr : 1 ≤ endRun run b) : go run (b' ++ c'.tail) = go run (b ++ c.tail) := by
  have hend : endRun run b' = endRun run b := by
    rw [← endRun_go b' (Nat.le_refl run), hb, endRun_go b (Nat.le_refl run)]
  have htail : go (endRun run b) c'.tail = go (endRun run b) c.tail := by
    by_cases h0 : c' = [] ∨ c = []
    · have hnil {c : Text} (h : Alike [] c) : c = [] := by
        have := congrArg List.head? h
        rw [head?_foldBlankRuns, head?_foldBlankRuns] at this
        exact List.head?_eq_none_iff.1 this.symm
      rcases h0 with rfl | rfl
      · rw [hnil hc]
      · rw [hnil hc.symm]
    · rw [not_or] at h0
      obtain ⟨d', rfl⟩ := hd.exists_eq h0.1
      obtain ⟨d, rfl⟩ := hd'.exists_eq h0.2
      exact go_eq_of_alike_newline hc (.inl hr)
  rw [go_append, go_append, hb, hend, htail]

/-- **Removal below a newline.** Below lines without a begin marker, at whose end a newline is kept, the blocks
of a tag are taken out, up to folding, with their line ends and nothing else. -/
theorem go_exciseAll (hk : run = 0 ∨ run = 2) (hy : WellMarked y) (ha : WellMarked a) (ht : Terminated a)
    (hb : ¬ tag.beginMarker <:+: a) (hr : 1 ≤ endRun run a) (hx : go run x = go run (a ++ y)) :
    go run (exciseAll tag x) = go run (a ++ bare tag y) := by
  fun_induction bare tag y generalizing a x with
  | case1 y hn =>
    -- there is no block in either text
    have hlack : ¬ tag.beginMarker <:+: a ++ y := fun hin =>
      (infix_append_of_terminated (Marker.newline_not_mem_text (.opening tag)) ht hin).elim hb
        (hy.hasParts.not_infix_iff.2 (hy.hasParts.find?_eq_none_iff.1 hn))
    have hsolid : solidLines x = solidLines (a ++ y) := by rw [← solidLines_go run x, hx, solidLines_go]
    have hlack' : ¬ tag.beginMarker <:+: x := by
      rwa [← Marker.text, Marker.infix_iff_solidLines, hsolid, ← Marker.infix_iff_solidLines]
    rw [exciseAll_of_find?_eq_none (find?_eq_none hlack'), hx]
  | case2 y e he ih =>
    obtain ⟨hbefore, hafter, hwell, hbelow⟩ := around_of_find? hy he
    have hfind : find? tag (a ++ y) = some { e with before := a ++ e.before } := by
      rw [find?_below hy ht hb, he, Option.map_some]
    have hr' : 1 ≤ endRun run (a ++ e.before) := by
      rw [endRun_append]
      exact one_le_endRun hbefore (.inr hr)
    obtain ⟨e', he', hbefore', hafter', hterm, hdet⟩ := exists_find?_of_go_eq (ha.append ht hy) hfind hx
    have hend : endRun run e'.before = endRun run (a ++ e.before) := by
      rw [← endRun_go e'.before (Nat.le_refl run), hbefore', endRun_go _ (Nat.le_refl run)]
    have hexcise : go run (excise e') = go run ((a ++ e.before) ++ e.after.tail) :=
      (go_excise hdet hk (hend ▸ hr')).trans (go_append_tail hbefore' hafter' hdet hafter hr')
    have hfirst : ¬ tag.beginMarker <:+: a ++ e.before := by
      obtain ⟨_, _, hf⟩ := find?_eq_some_iff.1 hfind
      exact hf.first
    rw [exciseAll_of_find?_eq_some he', ← List.append_assoc]
    exact ih hbelow (ha.append ht hwell) (ht.append hbefore) hfirst hr' hexcise

theorem go_removeAll (run : Nat) (tag : Tag) (t : Text) : go run (removeAll tag t) = go run (exciseAll tag t) := by
  unfold removeAll
  split
  · exact go_go _ (Nat.zero_le run)
  · next h => rw [exciseAll_of_not_isIn h]

/-- Below a newline that is kept, the blocks of two tags are taken out with their line ends. -/
theorem go_removeAll_removeAll (hk : run = 0 ∨ run = 2) (hy : WellMarked y) (ha : ∀ c ∈ a, c = '\n')
    (hr : 1 ≤ endRun run a) (s u : Tag) :
    go run (removeAll u (removeAll s (a ++ y))) = go run (a ++ bare u (bare s y)) := by
  have hsolid : solidLines a = [] := solidLines_of_newlines ha
  have hparts : HasParts a [] := ⟨by simp, hsolid⟩
  have hwell : WellMarked a := hparts.wellMarked
  have hterm : Terminated a := terminated_of_newlines ha
  have hlack (tag : Tag) : ¬ tag.beginMarker <:+: a := by
    have hm : ¬ (Marker.opening tag).text <:+: a := by
      rw [Marker.infix_iff_solidLines, hsolid]
      simp
    exact hm
  have hfirst : go run (removeAll s (a ++ y)) = go run (a ++ bare s y) := by
    rw [go_removeAll]
    exact go_exciseAll hk hy hwell hterm (hlack s) hr rfl
  rw [go_removeAll]
  exact go_exciseAll hk (wellMarked_bare hy s) hwell hterm (hlack u) hr hfirst

/-! ### Removal at the top of the text -/

/-- The text opens with blocks of the tag, one below the other with newlines between them at most, and more
than one empty line stands below one of these blocks. -/
inductive OpensWide (tag : Tag) : Text → Prop
  /-- The first of the blocks is this one: below its own line end there are two newlines or more. -/
  | here {t : Text} {e : Excerpt} (found : find? tag t = some e) (top : e.before = [])
      (gap : 3 ≤ leadingNewlines e.after) : OpensWide tag t
  /-- It is one below the first. -/
  | later {t : Text} {e : Excerpt} (found : find? tag t = some e) (top : e.before = [])
      (rest : OpensWide tag (dropNewlines e.after)) : OpensWide tag t

theorem opensWide_iff (he : find? tag t = some e) : OpensWide tag t ↔
    e.before = [] ∧ (3 ≤ leadingNewlines e.after ∨ OpensWide tag (dropNewlines e.after)) := by
  constructor
  · intro h
    cases h with
    | here found top gap =>
      cases he.symm.trans found
      exact ⟨top, .inl gap⟩
    | later found top rest =>
      cases he.symm.trans found
      exact ⟨top, .inr rest⟩
  · rintro ⟨top, gap | rest⟩
    · exact .here he top gap
    · exact .later he top rest

theorem OpensWide.exists_find? (h : OpensWide tag t) : ∃ e, find? tag t = some e ∧ e.before = [] := by
  cases h with
  | here found top _ => exact ⟨_, found, top⟩
  | later found top _ => exact ⟨_, found, top⟩

/-- A block at the top starts the text. -/
theorem head?_of_top (he : find? tag t = some e) (h0 : e.before = []) : t.head? ≠ some '\n' := by
  rw [← whole_find? he, whole, h0, List.nil_append, List.head?_append_of_ne_nil _ (text_ne_nil he)]
  exact head?_text he

theorem OpensWide.head?_ne (h : OpensWide tag t) : t.head? ≠ some '\n' := by
  obtain ⟨e, he, h0⟩ := h.exists_find?
  exact head?_of_top he h0

/-- The begin marker of a block at the top is the first word of the text. -/
theorem isPrefix_of_top (he : find? tag t = some e) (h0 : e.before = []) :
    tag.beginMarker <+: t.dropWhile isIndent := by
  obtain ⟨indent, inner, hf⟩ := find?_eq_some_iff.1 he
  obtain ⟨v, hv, -⟩ := Marker.exists_text_eq (.opening tag)
  have hv : tag.beginMarker = '#' :: v := hv
  have ht : t = indent ++ '#' :: (v ++ (inner ++ (tag.endMarker ++ e.after))) := by
    rw [← hf.whole_eq, whole, h0, hf.text_eq, hv]
    simp
  rw [ht, hf.isIndentation.dropWhile_append, hv, ← List.cons_append]
  exact List.prefix_append _ _

/-- The text opens with blocks of one tag at most. -/
theorem OpensWide.tag_eq (hs : OpensWide s t) (hu : OpensWide u t) : s = u := by
  obtain ⟨e, he, h0⟩ := hs.exists_find?
  obtain ⟨d, hd, h0'⟩ := hu.exists_find?
  have hmarker {s u : Tag} (hp : (Marker.opening s).text <+: (Marker.opening u).text) : s = u :=
    Marker.opening.inj (Marker.eq_of_isPrefix hp)
  rcases List.prefix_or_prefix_of_prefix (isPrefix_of_top he h0) (isPrefix_of_top hd h0') with hp | hp
  · exact hmarker hp
  · exact (hmarker hp).symm

/-- In a text that opens wide three newlines stand together. -/
theorem OpensWide.infix (h : OpensWide tag t) : List.replicate 3 '\n' <:+: t := by
  have below {t : Text} {e : Excerpt} (he : find? tag t = some e) : e.after <:+: t :=
    List.IsSuffix.isInfix ⟨e.before ++ e.text, whole_find? he⟩
  induction h with
  | here found top gap =>
    refine List.IsInfix.trans (List.IsPrefix.isInfix ?_) (below found)
    exact isPrefix_of_le_leadingNewlines gap
  | later found top rest ih => exact (ih.trans (List.dropWhile_suffix _).isInfix).trans (below found)

theorem isIn_of_opensWide (h : OpensWide tag t) : isIn tag t := by
  obtain ⟨e, he, -⟩ := h.exists_find?
  rw [isIn, he, Option.isSome_some]

theorem leadingNewlines_of_head? (h : t.head? ≠ some '\n') : leadingNewlines t = 0 := by
  cases t with
  | nil => rfl
  | cons c t => simpa [leadingNewlines, isNewline] using h

/-- What is joined to nothing keeps its first character. -/
theorem head?_joinSeam_nil (t : Text) : (joinSeam [] t).head? = t.head? := by
  unfold joinSeam
  split
  · rw [List.nil_append]
  · next h =>
    by_cases hn : t.head? = some '\n'
    · rw [hn]
      rfl
    · rw [leadingNewlines_of_head? hn] at h
      exact absurd (by decide) h

theorem joinSeam_nil_of_head? (h : t.head? ≠ some '\n') : joinSeam [] t = t := by
  unfold joinSeam
  rw [leadingNewlines_of_head? h]
  rfl

/-- A block at the top takes up to two newlines along; if there are more below it, some stay at the top. -/
theorem excise_of_top (h0 : e.before = []) (ha : Detached e.after) :
    leadingNewlines e.after ≤ 2 ∧ excise e = dropNewlines e.after ∨
      3 ≤ leadingNewlines e.after ∧ (excise e).head? = some '\n' := by
  -- what is left if no newline stands in front of `c`, which is the rest of the file
  have hkeep {c : Text} (hc : c.head? ≠ some '\n') : joinSeam [] c = dropNewlines c := by
    rw [joinSeam_nil_of_head? hc, dropNewlines_of_head? hc]
  rw [excise, h0]
  rcases ha with ha | ha
  · rw [ha]
    exact .inl ⟨Nat.zero_le _, rfl⟩
  · obtain ⟨c, hc⟩ := List.head?_eq_some_iff.1 ha
    rw [hc, leadingNewlines_newline_cons]
    by_cases hn : c.head? = some '\n'
    · obtain ⟨d, rfl⟩ := List.head?_eq_some_iff.1 hn
      rw [leadingNewlines_newline_cons]
      by_cases hd : d.head? = some '\n'
      · obtain ⟨r, rfl⟩ := List.head?_eq_some_iff.1 hd
        refine .inr ⟨by rw [leadingNewlines_newline_cons]; omega, ?_⟩
        exact head?_joinSeam_nil ('\n' :: r)
      · refine .inl ⟨by rw [leadingNewlines_of_head? hd], ?_⟩
        exact hkeep hd
    · refine .inl ⟨by rw [leadingNewlines_of_head? hn]; omega, ?_⟩
      have hdrop : dropSeparator [] ('\n' :: c) = c := by
        rcases dropSeparator_newline [] c with h | ⟨d, rfl, -⟩
        · exact h
        · exact absurd rfl hn
      rw [hdrop]
      exact hkeep hn

theorem wellMarked_excise (h : WellMarked t) (he : find? tag t = some e) : WellMarked (excise e) := by
  obtain ⟨_, _, _, _, -, -, -, hb, ha, hsp⟩ := h.hasParts.exists_of_find? he
  exact (hb.append ha (solidLines_excise hsp)).wellMarked

/-- **The top of the text.** Removal leaves a newline at the top if there was one, or if the text opens wide. -/
theorem head?_exciseAll (h : WellMarked t) :
    (exciseAll tag t).head? = some '\n' ↔ t.head? = some '\n' ∨ OpensWide tag t := by
  fun_induction exciseAll tag t with
  | case1 t hn =>
    have hno : ¬ OpensWide tag t := fun hw => by
      obtain ⟨e, he, -⟩ := hw.exists_find?
      rw [hn] at he
      cases he
    rw [or_iff_left hno]
  | case2 t e he ih =>
    obtain ⟨hbefore, hafter, hwell, -⟩ := around_of_find? h he
    rw [opensWide_iff he]
    by_cases h0 : e.before = []
    · rw [ih (wellMarked_excise h he), or_iff_right (head?_of_top he h0)]
      rcases excise_of_top h0 hafter with ⟨hle, hx⟩ | ⟨hgap, hx⟩
      · rw [hx, or_iff_right (head?_dropNewlines _)]
        simp only [h0, true_and, or_iff_right (Nat.not_le.2 (Nat.lt_succ_of_le hle))]
      · simp only [hx, h0, hgap, true_or, true_and]
    · -- lines above the first block stay where they are
      have hwhole : t = e.before ++ (e.text ++ e.after) := by
        rw [← List.append_assoc]
        exact (whole_find? he).symm
      have hfirst : ¬ tag.beginMarker <:+: e.before := by
        obtain ⟨_, _, hf⟩ := find?_eq_some_iff.1 he
        exact hf.first
      have hgo : foldBlankRuns (exciseAll tag t) = foldBlankRuns (e.before ++ bare tag (e.text ++ e.after)) :=
        go_exciseAll (.inl rfl) (wellMarked_from h he) hwell hbefore hfirst (one_le_endRun hbefore (.inl h0))
          (by rw [← hwhole])
      have hhead := congrArg List.head? hgo
      rw [head?_foldBlankRuns, head?_foldBlankRuns, exciseAll_of_find?_eq_some he, List.head?_append_of_ne_nil _ h0] at hhead
      rw [hhead, hwhole, List.head?_append_of_ne_nil _ h0]
      simp only [h0, false_and, or_false]

theorem head?_removeAll (h : WellMarked t) :
    (removeAll tag t).head? = some '\n' ↔ t.head? = some '\n' ∨ OpensWide tag t := by
  have hgo := congrArg List.head? (go_removeAll 0 tag t)
  rw [← foldBlankRuns, ← foldBlankRuns, head?_foldBlankRuns, head?_foldBlankRuns] at hgo
  rw [hgo, head?_exciseAll h]

/-! ### Two tags -/

/-- Removing a tag brings no block of another one and takes none. -/
theorem isIn_removeAll (h : WellMarked t) (hne : s ≠ u) : isIn u (removeAll s t) = isIn u t := by
  rw [Bool.eq_iff_iff, h.hasParts.removeAll.isIn_iff, h.hasParts.isIn_iff]
  refine ⟨fun ⟨p, hp, hu⟩ => ⟨p, (List.mem_filter.1 hp).1, hu⟩, fun ⟨p, hp, hu⟩ => ⟨p, List.mem_filter.2 ⟨hp, ?_⟩, hu⟩⟩
  cases p with
  | source l => exact absurd rfl hu
  | block tag ls =>
    have htag : tag = u := by
      by_contra hc
      exact hu (if_neg hc)
    simp [Part.Avoids, Part.block?, htag, Ne.symm hne]

theorem removeAll_comm_of_not_isIn (h : WellMarked t) (hne : s ≠ u) (hu : isIn u t = false) :
    removeAll u (removeAll s t) = removeAll s (removeAll u t) := by
  rw [removeAll_of_not_isIn ((isIn_removeAll h hne).trans hu), removeAll_of_not_isIn hu]

/-- The order of the removals may matter if both tags have blocks. -/
theorem removeAll_comm_or (h : WellMarked t) (s u : Tag) :
    removeAll u (removeAll s t) = removeAll s (removeAll u t) ∨ s ≠ u ∧ isIn s t ∧ isIn u t := by
  by_cases hne : s = u
  · exact .inl (by rw [hne])
  · cases hs : isIn s t with
    | false => exact .inl (removeAll_comm_of_not_isIn h (Ne.symm hne) hs).symm
    | true =>
      cases hu : isIn u t with
      | false => exact .inl (removeAll_comm_of_not_isIn h hne hu)
      | true => exact .inr ⟨hne, rfl, rfl⟩

/-- After a removal the text is folded. -/
theorem foldBlankRuns_removeAll (h : isIn tag t) : foldBlankRuns (removeAll tag t) = removeAll tag t := by
  rw [removeAll, if_pos h, foldBlankRuns_foldBlankRuns]

/-- The tag removed second leaves no newline at the top that was not there before. -/
theorem head?_removeAll_removeAll (h : WellMarked t) (hs : isIn s t) :
    (removeAll u (removeAll s t)).head? = some '\n' ↔ t.head? = some '\n' ∨ OpensWide s t := by
  have hfolded : ¬ OpensWide u (removeAll s t) := fun hw => by
    have hin := hw.infix
    rw [removeAll, if_pos hs] at hin
    exact not_infix_newlines_go _ (Nat.zero_le 2) hin
  rw [head?_removeAll (keeps_removeAll h s).1, or_iff_left hfolded, head?_removeAll h]

/-- Below the newlines at the top the two orders agree. -/
theorem go_two_removeAll_comm (h : WellMarked t) (s u : Tag) :
    go 2 (removeAll u (removeAll s t)) = go 2 (removeAll s (removeAll u t)) := by
  have hbare (s u : Tag) : go 2 (removeAll u (removeAll s t)) = go 2 (bare u (bare s t)) :=
    go_removeAll_removeAll (a := []) (.inr rfl) h (by simp) (by decide) s u
  rw [hbare, hbare, bare_comm h]

theorem dropNewlines_removeAll_comm (h : WellMarked t) (s u : Tag) :
    dropNewlines (removeAll u (removeAll s t)) = dropNewlines (removeAll s (removeAll u t)) := by
  rcases removeAll_comm_or h s u with heq | ⟨hne, hs, hu⟩
  · rw [heq]
  · have hdrop {s u : Tag} (hne : s ≠ u) (hu : isIn u t) :
        dropNewlines (removeAll u (removeAll s t)) = go 2 (removeAll u (removeAll s t)) := by
      have hin : isIn u (removeAll s t) := (isIn_removeAll h hne).trans hu
      rw [← dropNewlines_go _ (Nat.zero_le 2), ← foldBlankRuns, foldBlankRuns_removeAll hin]
    rw [hdrop hne hu, hdrop (Ne.symm hne) hs, go_two_removeAll_comm h]

/-- Below a newline at the top they agree as well. -/
theorem foldBlankRuns_removeAll_comm (h : WellMarked t) (hn : t.head? = some '\n') (s u : Tag) :
    foldBlankRuns (removeAll u (removeAll s t)) = foldBlankRuns (removeAll s (removeAll u t)) := by
  obtain ⟨y, rfl⟩ := List.head?_eq_some_iff.1 hn
  have hy : WellMarked y := (h.hasParts.of_solidLines_eq (solidLines_newline_cons y).symm).wellMarked
  have hbare (s u : Tag) : foldBlankRuns (removeAll u (removeAll s ('\n' :: y))) =
      foldBlankRuns ('\n' :: bare u (bare s y)) :=
    go_removeAll_removeAll (a := ['\n']) (.inl rfl) hy (by simp) (by decide) s u
  rw [hbare, hbare, bare_comm hy]

theorem removeAll_comm_of_not_opensWide (h : WellMarked t) (hs : isIn s t) (hu : isIn u t) (hne : s ≠ u)
    (hws : ¬ OpensWide s t) (hwu : ¬ OpensWide u t) : removeAll u (removeAll s t) = removeAll s (removeAll u t) := by
  have hfolded : foldBlankRuns (removeAll u (removeAll s t)) = removeAll u (removeAll s t) :=
    foldBlankRuns_removeAll ((isIn_removeAll h hne).trans hu)
  have hfolded' : foldBlankRuns (removeAll s (removeAll u t)) = removeAll s (removeAll u t) :=
    foldBlankRuns_removeAll ((isIn_removeAll h (Ne.symm hne)).trans hs)
  by_cases hn : t.head? = some '\n'
  · rw [← hfolded, foldBlankRuns_removeAll_comm h hn, hfolded']
  · -- no newline comes to the top, so nothing is lost below two newlines
    have htop : (removeAll u (removeAll s t)).head? ≠ some '\n' := by
      rw [Ne, head?_removeAll_removeAll h hs]
      exact not_or_intro hn hws
    have htop' : (removeAll s (removeAll u t)).head? ≠ some '\n' := by
      rw [Ne, head?_removeAll_removeAll h hu]
      exact not_or_intro hn hwu
    calc removeAll u (removeAll s t) = go 0 (removeAll u (removeAll s t)) := hfolded.symm
      _ = go 2 (removeAll u (removeAll s t)) := (go_of_head? htop 2).symm
      _ = go 2 (removeAll s (removeAll u t)) := go_two_removeAll_comm h s u
      _ = go 0 (removeAll s (removeAll u t)) := go_of_head? htop' 2
      _ = removeAll s (removeAll u t) := hfolded'

theorem removeAll_ne_of_opensWide (h : WellMarked t) (hs : isIn s t) (hu : isIn u t) (hne : s ≠ u)
    (hw : OpensWide s t) : removeAll u (removeAll s t) ≠ removeAll s (removeAll u t) := by
  intro heq
  have htop : (removeAll u (removeAll s t)).head? = some '\n' := (head?_removeAll_removeAll h hs).2 (.inr hw)
  rw [heq, head?_removeAll_removeAll h hu] at htop
  exact htop.elim hw.head?_ne fun hwu => hne (hw.tag_eq hwu)

/-- **Two tags removed in either order.** But for newlines at the top of the text the two orders give the
same. They give the same text unless both tags have blocks in it and it opens wide with blocks of one of them; then
they do not. The blocks of the other tag stay as they are. -/
theorem removeAll_comm_iff (h : WellMarked t) (s u : Tag) :
    (removeAll u (removeAll s t) = removeAll s (removeAll u t) ↔
        (s ≠ u → isIn s t → isIn u t → ¬ OpensWide s t ∧ ¬ OpensWide u t)) ∧
      dropNewlines (removeAll u (removeAll s t)) = dropNewlines (removeAll s (removeAll u t)) ∧
      (s ≠ u → blocks u (removeAll s t) = blocks u t ∧ blocks s (removeAll u t) = blocks s t) := by
  have hother {s u : Tag} (hne : s ≠ u) : blocks u (removeAll s t) = blocks u t :=
    (keeps_removeAll h s).blocks_eq (by simpa using Ne.symm hne)
  refine ⟨⟨fun heq hne hs hu => ⟨fun hw => ?_, fun hw => ?_⟩, fun hclose => ?_⟩, dropNewlines_removeAll_comm h s u,
    fun hne => ⟨hother hne, hother (Ne.symm hne)⟩⟩
  · exact removeAll_ne_of_opensWide h hs hu hne hw heq
  · exact removeAll_ne_of_opensWide h hu hs (Ne.symm hne) hw heq.symm
  · rcases removeAll_comm_or h s u with heq | ⟨hne, hs, hu⟩
    · exact heq
    · obtain ⟨hws, hwu⟩ := hclose hne hs hu
      exact removeAll_comm_of_not_opensWide h hs hu hne hws hwu

/-- A block at the top with two empty lines below it, and a block of another tag below these. -/
def gapped : Text :=
  render ⟨.schema, ["id".toList]⟩ ++ "\n\n\n".toList ++ render ⟨.routes, ["GET /".toList]⟩ ++ "\nclass User\nend\n".toList

theorem wellMarked_gapped : WellMarked gapped := by
  -- the text is spelled out, as a literal is decoded anew wherever it is compared
  unfold gapped
  repeat rewrite [String.toList_ofList]
  decide

theorem opensWide_gapped : OpensWide .schema gapped := by
  have hfound : find? .schema gapped = some ⟨[], gapped.take 66, gapped.drop 66⟩ := by
    unfold gapped
    repeat rewrite [String.toList_ofList]
    decide
  exact .here hfound rfl (by decide)

/-- An empty line stays at the top or not. -/
theorem removeAll_comm_iff_gapped :
    WellMarked gapped ∧ removeAll .routes (removeAll .schema gapped) ≠ removeAll .schema (removeAll .routes gapped) ∧
      dropNewlines (removeAll .routes (removeAll .schema gapped)) =
        dropNewlines (removeAll .schema (removeAll .routes gapped)) ∧
      blocks .routes (removeAll .schema gapped) = blocks .routes gapped := by
  obtain ⟨hiff, hdrop, hblocks⟩ := removeAll_comm_iff wellMarked_gapped .schema .routes
  refine ⟨wellMarked_gapped, fun heq => ?_, hdrop, (hblocks (by decide)).1⟩
  exact (hiff.1 heq (by decide) (by decide) (by decide)).1 opensWide_gapped

/-- The order in which two tags are removed shows. -/
theorem removeAll_order_shows : ¬ ∀ t : Text, WellMarked t → ∀ s u : Tag,
    removeAll u (removeAll s t) = removeAll s (removeAll u t) := by
  intro h
  have hsame := h gapped wellMarked_gapped .schema .routes
  exact removeAll_ne_of_opensWide wellMarked_gapped (by decide) (by decide) (by decide) opensWide_gapped hsame

end Block
end Marginalia
