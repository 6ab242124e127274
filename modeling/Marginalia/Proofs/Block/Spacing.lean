/-
# A block one blank line apart

Putting in a block over another one and putting it in below an anchor line give
the same layout. Both cut the text at a seam (`Block.Seam`), and at the seam the
newlines on both sides give way to one blank line above and one below the block,
none at the ends of the text (`Block.SetApart`). As the block is found again
where it was put, cutting at it once more gives the seam that was cut at first
(`Block.upsert_spliceApart`), so that of several blocks put in one after the
other only the last counts (`Block.upsert_settles`).

Key definitions: `Block.Seam`, `Block.SetApart`.
Key theorems: `Block.Seam.upsert_eq`, `Block.upsert_spliceApart`, `Block.upsert_upsert_of_sealed`,
`Block.upsert_settles`.
-/
import Marginalia.Proofs.Block.Excision
import Marginalia.Proofs.Block.Locating

namespace Marginalia

open Text

namespace Block

variable {tag : Tag} {t a c above below block new : Text} {isAnchor : Text → Bool}

/-! ### Seams -/

/-- A block of the tag goes between the texts `above` and `below` of the text `t`. -/
inductive Seam (tag : Tag) (isAnchor : Text → Bool) (t : Text) : Text → Text → Prop
  /-- It takes the place of the first block of the tag. -/
  | block {e : Excerpt} (found : Excerpt.find? tag t = some e) : Seam tag isAnchor t e.before e.after
  /-- Where there is none, it goes below the first line that passes the test. -/
  | anchor {lead rest : List Text} {l : Text} (absent : Excerpt.find? tag t = none)
      (lines : rawLines t = lead ++ l :: rest) (passes : isAnchor (anchorText l))
      (first : ∀ m ∈ lead, ¬ isAnchor (anchorText m)) : Seam tag isAnchor t (lead ++ [l]).flatten rest.flatten

theorem splitBelow?_append {lead rest : List Text} {l : Text} (hl : isAnchor (anchorText l))
    (h : ∀ m ∈ lead, ¬ isAnchor (anchorText m)) :
    splitBelow? isAnchor (lead ++ l :: rest) = some (lead ++ [l], rest) := by
  induction lead with
  | nil => rw [List.nil_append, splitBelow?, if_pos hl, List.nil_append]
  | cons m lead ih =>
    rw [List.forall_mem_cons] at h
    rw [List.cons_append, splitBelow?, if_neg h.1, ih h.2, Option.map_some, List.cons_append]

/-- A block is put in at a seam. -/
theorem Seam.upsert_eq (h : Seam tag isAnchor t above below) (hn : new ≠ []) :
    upsert tag new isAnchor t = spliceApart above new below := by
  cases h with
  | block found => rw [upsert, if_neg hn, found]
  | anchor absent lines passes first =>
    rw [upsert, if_neg hn, absent, lines, splitBelow?_append passes first]

/-- There is a seam, or the text has neither a block of the tag nor a line that passes the test. -/
theorem exists_seam (tag : Tag) (isAnchor : Text → Bool) (t : Text) :
    (∃ above below, Seam tag isAnchor t above below) ∨
      Excerpt.find? tag t = none ∧ ∀ l ∈ rawLines t, ¬ isAnchor (anchorText l) := by
  cases hf : Excerpt.find? tag t with
  | some e => exact .inl ⟨_, _, .block hf⟩
  | none =>
    cases hs : splitBelow? isAnchor (rawLines t) with
    | none => exact .inr ⟨rfl, splitBelow?_eq_none hs⟩
    | some p =>
      obtain ⟨lead, l, -, hlines, hl, hfirst⟩ := splitBelow?_eq_some (p.eta ▸ hs)
      exact .inl ⟨_, _, .anchor hf hlines hl hfirst⟩

theorem upsert_of_not_anchor (hn : new ≠ []) (hf : Excerpt.find? tag t = none)
    (hl : ∀ l ∈ rawLines t, ¬ isAnchor (anchorText l)) : upsert tag new isAnchor t = t := by
  have hs : splitBelow? isAnchor (rawLines t) = none := by
    cases hs : splitBelow? isAnchor (rawLines t) with
    | none => rfl
    | some p =>
      obtain ⟨lead, l, -, hlines, hp, -⟩ := splitBelow?_eq_some (p.eta ▸ hs)
      exact absurd hp (hl l (by simp [hlines]))
  rw [upsert, if_neg hn, hf, hs]

theorem eq_append_of_rawLines {lead rest : List Text} {l : Text} (h : rawLines t = lead ++ l :: rest) :
    t = (lead ++ [l]).flatten ++ rest.flatten := by
  rw [← rawLines_flatten t, h]
  simp

/-- Above a seam no block of the tag begins, if none is left open in the text. -/
theorem Seam.not_infix (h : Seam tag isAnchor t above below) (ht : ¬ tag.beginMarker <:+: t ∨ isIn tag t) :
    ¬ tag.beginMarker <:+: above := by
  cases h with
  | block found =>
    obtain ⟨_, _, hf⟩ := Excerpt.find?_eq_some_iff.1 found
    exact hf.first
  | @anchor lead rest l absent lines passes first =>
    have hfresh : ¬ tag.beginMarker <:+: t := ht.resolve_right (by simp [isIn, absent])
    rw [eq_append_of_rawLines lines] at hfresh
    exact fun hm => hfresh (hm.trans (List.prefix_append _ _).isInfix)

/-! ### Blank lines at a seam -/

/-- The text `x` is the block between `head` and `tail`, what is above and below without its newlines
next to the block. One blank line stands between the block and each of them that is not empty. -/
structure SetApart (above block below head tail x : Text) : Prop where
  /-- Above the block its newlines are dropped. -/
  above_eq : ∃ n, above = head ++ List.replicate n '\n'
  /-- None of them is left. -/
  head_end : head.getLast? ≠ some '\n'
  /-- Below the block its newlines are dropped. -/
  below_eq : ∃ n, below = List.replicate n '\n' ++ tail
  /-- None of them is left. -/
  tail_start : tail.head? ≠ some '\n'
  /-- The block with its blank lines. -/
  eq : x = (if head = [] then [] else head ++ ['\n', '\n']) ++ block ++
    (if tail = [] then ['\n'] else '\n' :: '\n' :: tail)

theorem setApart_spliceApart (a block c : Text) :
    SetApart a block c (dropEndNewlines a) (dropNewlines c) (spliceApart a block c) where
  above_eq := ⟨_, (dropEndNewlines_append_newlines a).symm⟩
  head_end := getLast?_dropEndNewlines a
  below_eq := ⟨_, (newlines_append_dropNewlines c).symm⟩
  tail_start := head?_dropNewlines c
  eq := rfl

theorem dropEndNewlines_headApart (a : Text) : dropEndNewlines (headApart a) = dropEndNewlines a := by
  unfold headApart
  split
  · next h => rw [h]; rfl
  · refine (dropEndWhile_append (by simp [isNewline]) fun c hc hn => ?_).1
    exact getLast?_dropEndNewlines a (beq_iff_eq.1 hn ▸ hc)

theorem dropNewlines_tailApart (c : Text) : dropNewlines (tailApart c) = dropNewlines c := by
  have hd := dropNewlines_of_head? (head?_dropNewlines c)
  unfold tailApart
  split
  · next h => rw [h]; rfl
  · exact hd

/-- A block that was put between two texts is found, if none begins above it. -/
theorem Sealed.find?_spliceApart (hs : Sealed tag block) (ha : ¬ tag.beginMarker <:+: a) (c : Text) :
    Excerpt.find? tag (spliceApart a block c) = some ⟨headApart a, block, tailApart c⟩ := by
  have hfresh : ¬ (Marker.opening tag).text <:+: headApart a := by
    rwa [Marker.infix_iff_solidLines, solidLines_headApart, ← Marker.infix_iff_solidLines]
  rw [spliceApart_eq]
  exact hs.find?_eq (terminated_headApart a) hfresh (tailApart c)

/-- It is exchanged where it was put. -/
theorem upsert_spliceApart (hs : Sealed tag block) (ha : ¬ tag.beginMarker <:+: a) (hn : new ≠ []) (c : Text)
    (isAnchor : Text → Bool) : upsert tag new isAnchor (spliceApart a block c) = spliceApart a new c := by
  rw [(Seam.block (hs.find?_spliceApart ha c)).upsert_eq hn, spliceApart, dropEndNewlines_headApart,
    dropNewlines_tailApart, spliceApart]

/-! ### Blocks put in one after the other -/

/-- Of two blocks the last one counts. -/
theorem upsert_upsert_of_sealed (hs : Sealed tag block) (ht : ¬ tag.beginMarker <:+: t ∨ isIn tag t) (h0 : block ≠ [])
    (hn : new ≠ []) (isAnchor : Text → Bool) :
    upsert tag new isAnchor (upsert tag block isAnchor t) = upsert tag new isAnchor t := by
  rcases exists_seam tag isAnchor t with ⟨above, below, h⟩ | ⟨hf, hl⟩
  · rw [h.upsert_eq h0, h.upsert_eq hn, upsert_spliceApart hs (h.not_infix ht) hn]
  · rw [upsert_of_not_anchor h0 hf hl]

/-- **A block put in reaches its layout at once.** In a text in which no block of the tag begins, or
one is complete, a block whose comment lines do not hold the end marker is put in at a seam, one blank
line apart from what is above and below it, or the text has neither a block of the tag nor a line that
passes the test and stays as it is. A block that is put in afterwards gives what it would have given in
the first text. -/
theorem upsert_settles {b : Block} (h0 : b.lines ≠ []) (hs : ∀ l ∈ b.commentLines, ¬ b.tag.endMarker <:+: l)
    (ht : ¬ b.tag.beginMarker <:+: t ∨ isIn b.tag t) (isAnchor : Text → Bool) :
    ((∃ above below head tail, Seam b.tag isAnchor t above below ∧
        SetApart above b.render below head tail (upsert b.tag b.render isAnchor t)) ∨
      Excerpt.find? b.tag t = none ∧ (∀ l ∈ rawLines t, ¬ isAnchor (anchorText l)) ∧
        upsert b.tag b.render isAnchor t = t) ∧
    ∀ new, new ≠ [] → upsert b.tag new isAnchor (upsert b.tag b.render isAnchor t) = upsert b.tag new isAnchor t := by
  have hr : b.render ≠ [] := render_eq_nil_iff.not.2 h0
  refine ⟨?_, fun new hn => upsert_upsert_of_sealed ((sealed_render_iff h0).2 hs) ht hr hn isAnchor⟩
  rcases exists_seam b.tag isAnchor t with ⟨above, below, h⟩ | ⟨hf, hl⟩
  · refine .inl ⟨above, below, dropEndNewlines above, dropNewlines below, h, ?_⟩
    rw [h.upsert_eq hr]
    exact setApart_spliceApart above b.render below
  · exact .inr ⟨hf, hl, upsert_of_not_anchor hr hf hl⟩

/-- A file with carriage returns and blank lines around the line of an anchor. -/
def drawnFile : Text := "# app\r\ndraw do\r\n\n\n  root\nend".toList

/-- A block of routes. -/
def rootRoutes : Block where
  tag := .routes
  lines := ["root".toList]

/-- The test for the line of the anchor. -/
def isDraw (l : Text) : Bool := l == "draw do".toList

/-- The block goes below the anchor, and a second one in its place. -/
theorem upsert_settles_rootRoutes :
    (∃ above below head tail, Seam .routes isDraw drawnFile above below ∧
      SetApart above rootRoutes.render below head tail (upsert .routes rootRoutes.render isDraw drawnFile)) ∧
    ∀ new, new ≠ [] → upsert .routes new isDraw (upsert .routes rootRoutes.render isDraw drawnFile) =
      upsert .routes new isDraw drawnFile := by
  have hmoved : upsert .routes rootRoutes.render isDraw drawnFile ≠ drawnFile := by decide
  obtain ⟨hlayout, hlast⟩ := upsert_settles (b := rootRoutes) (t := drawnFile) (by decide) (by decide)
    (.inl (by decide)) isDraw
  exact ⟨hlayout.resolve_right fun h => hmoved h.2.2, hlast⟩

end Block
end Marginalia
