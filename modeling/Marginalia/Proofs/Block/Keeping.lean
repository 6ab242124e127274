/-
# Changes that keep the source

A change keeps the parts of a text other than the blocks of some tags if the
text stays well-marked and has, without those blocks, the same parts as before,
in the same order (`Text.Keeps`). Such changes may be made one after the other.
Taking out the blocks of a tag, exchanging one and putting one in between two
lines, where no block is open, are changes of this kind.

Key definition: `Text.Keeps`.
Key theorems: `Text.Keeps.trans`, `Text.Keeps.sourceLines_eq`, `Text.Keeps.blocks_eq`,
`Text.keeps_removeAll`, `Text.keeps_replace`, `Text.keeps_upsert`.
-/
import Marginalia.Proofs.Block.Excision

namespace Marginalia

/-- The parts that are no blocks of the tags. -/
def Part.others (tags : List Tag) (ps : List Part) : List Part :=
  ps.filter fun p => ∀ tag ∈ tags, p.Avoids tag

namespace Text

/-- The text is well-marked and has the parts that the text `t` had, apart from blocks of the
tags. -/
def Keeps (tags : List Tag) (t t' : Text) : Prop :=
  WellMarked t' ∧ Part.others tags (parts t') = Part.others tags (parts t)

theorem keeps_refl {t : Text} (h : WellMarked t) (tags : List Tag) : Keeps tags t t := ⟨h, rfl⟩

theorem keeps_of_hasParts {tags : List Tag} {t t' : Text} {ps ps' : List Part} (h : HasParts t ps)
    (h' : HasParts t' ps') (e : Part.others tags ps' = Part.others tags ps) : Keeps tags t t' :=
  ⟨h'.wellMarked, by rw [h.parts_eq, h'.parts_eq, e]⟩

namespace Keeps

variable {tags tags' : List Tag} {t t' t'' : Text}

theorem trans (h : Keeps tags t t') (h' : Keeps tags t' t'') : Keeps tags t t'' :=
  ⟨h'.1, h'.2.trans h.2⟩

/-- What keeps more keeps less. -/
theorem mono (h : Keeps tags t t') (hs : tags ⊆ tags') : Keeps tags' t t' := by
  refine ⟨h.1, ?_⟩
  have (ps : List Part) : Part.others tags' ps = Part.others tags' (Part.others tags ps) := by
    rw [Part.others, Part.others, Part.others, List.filter_filter]
    refine List.filter_congr fun p _ => ?_
    rw [Bool.eq_iff_iff, Bool.and_eq_true, decide_eq_true_eq, decide_eq_true_eq]
    exact ⟨fun hp => ⟨hp, fun tag ht => hp tag (hs ht)⟩, fun hp => hp.1⟩
  rw [this, h.2, ← this]

theorem sourceLines_eq (h : Keeps tags t t') : sourceLines t' = sourceLines t := by
  have (ps : List Part) : (Part.others tags ps).filterMap Part.source? = ps.filterMap Part.source? := by
    rw [Part.others, List.filterMap_filter]
    refine List.filterMap_congr fun p _ => ?_
    cases p with
    | source l => simp [Part.Avoids, Part.block?]
    | block s ls => simp [Part.source?]
  rw [sourceLines, ← this, h.2, this, sourceLines]

/-- The blocks of the other tags stay. -/
theorem blocks_eq (h : Keeps tags t t') {tag : Tag} (ht : tag ∉ tags) : blocks tag t' = blocks tag t := by
  have (ps : List Part) : (Part.others tags ps).filterMap (Part.block? tag) = ps.filterMap (Part.block? tag) := by
    rw [Part.others, List.filterMap_filter]
    refine List.filterMap_congr fun p _ => ?_
    cases p with
    | source l => simp [Part.block?]
    | block s ls =>
      by_cases hs : s = tag
      · subst hs
        simpa [Part.Avoids, Part.block?] using ht
      · simp [Part.block?, hs]
  rw [blocks, ← this, h.2, this, blocks]

end Keeps
/-! ### Changes of blocks -/

section

variable {tag : Tag} {t : Text}

theorem others_append (tags : List Tag) (ps qs : List Part) :
    Part.others tags (ps ++ qs) = Part.others tags ps ++ Part.others tags qs := List.filter_append ..

theorem others_block (tag : Tag) (ls : List Text) (ps : List Part) :
    Part.others [tag] (.block tag ls :: ps) = Part.others [tag] ps := by
  simp [Part.others, Part.Avoids, Part.block?]

/-- Putting a block of the tag between parts, with or without one in exchange, keeps the others. -/
theorem keeps_of_block {t' : Text} {ps qs : List Part} {ls : List Text}
    (h : HasParts t (ps ++ qs)) (h' : HasParts t' (ps ++ (.block tag ls :: qs))) : Keeps [tag] t t' :=
  keeps_of_hasParts h h' (by rw [others_append, others_append, others_block])

theorem keeps_removeAll (h : WellMarked t) (tag : Tag) : Keeps [tag] t (Block.removeAll tag t) := by
  refine keeps_of_hasParts h.hasParts h.hasParts.removeAll ?_
  simp [Part.others, List.filter_filter]

/-- What is left without the blocks of a tag holds none. -/
theorem blocks_removeAll (h : WellMarked t) (tag : Tag) : blocks tag (Block.removeAll tag t) = [] := by
  rw [blocks, h.hasParts.removeAll.parts_eq, List.filterMap_eq_nil_iff]
  exact fun p hp => of_decide_eq_true (List.mem_filter.1 hp).2

/-- Putting a block over one of its tag keeps the others. -/
theorem keeps_of_find? {e : Excerpt} {new t' : Text} {ls : List Text} (h : WellMarked t)
    (he : Excerpt.find? tag t = some e) (hn : HasParts new [.block tag ls])
    (hs : solidLines t' = solidLines e.before ++ (solidLines new ++ solidLines e.after)) :
    Keeps [tag] t t' := by
  have hp := h.hasParts
  obtain ⟨pre, ms, post, indent, heq, -, -, hb, ha, -⟩ := hp.exists_of_find? he
  rw [heq] at hp
  refine keeps_of_hasParts hp (hb.around ha hn hs) ?_
  rw [others_append, others_append, others_block, others_block]

open Block in
theorem keeps_replace {t' : Text} {ls : List Text} (h : WellMarked t) (hl : CommentLines ls)
    (hr : replace? tag (frame tag [] ls) t = some t') : Keeps [tag] t t' := by
  obtain ⟨e, he, rfl⟩ := Option.map_eq_some_iff.1 hr
  obtain ⟨_, _, _, indent, -, hi, -, -, -, hsp⟩ := h.hasParts.exists_of_find? he
  rw [hsp.indent, indentWith_frame hl]
  exact keeps_of_find? h he (hasParts_frame hi hl.dropReturn) (solidLines_exchange hsp _)

/-- Begin markers of other tags neither come nor go. -/
theorem Keeps.infix_iff {tags : List Tag} {t' : Text} (hk : Keeps tags t t') (h : WellMarked t) (ht : tag ∉ tags) :
    tag.beginMarker <:+: t' ↔ tag.beginMarker <:+: t := by
  have hblocks {t : Text} (h : WellMarked t) : ¬ tag.beginMarker <:+: t ↔ blocks tag t = [] := by
    rw [h.hasParts.not_infix_iff, blocks, List.filterMap_eq_nil_iff]
    rfl
  rw [← not_iff_not, hblocks hk.1, hblocks h, hk.blocks_eq ht]

/-! ### Cuts between lines -/

/-- The parts above and below the end of a line at which no block is open. -/
theorem hasParts_take_drop {n : Nat} (h : WellMarked t) (hc : ClosedAt t n) :
    ∃ ps qs, parts t = ps ++ qs ∧ HasParts ((rawLines t).take n).flatten ps ∧
      HasParts ((rawLines t).drop n).flatten qs := by
  obtain ⟨ha, hp⟩ := h
  have hab : WellMarked ((rawLines t).take n).flatten := by
    rw [WellMarked, rows_take]
    exact ⟨fun l hl => ha l (List.mem_of_mem_take hl), hc⟩
  have hbe : WellMarked ((rawLines t).drop n).flatten := by
    rw [WellMarked, rows_drop]
    refine ⟨fun l hl => ha l (List.mem_of_mem_drop hl), ?_⟩
    rwa [← List.take_append_drop n (rows t), List.filterMap_append, paired_append_iff hc] at hp
  exact ⟨_, _, (hab.hasParts.append hbe.hasParts (solidLines_take_append_drop t n).symm).parts_eq,
    hab.hasParts, hbe.hasParts⟩

theorem Outside.closedAt {n : Nat} (h : Outside t n) : ClosedAt t (n - 1) := h.2.2

/-- No block is open below a line outside all blocks. -/
theorem Outside.closedAt_self {n : Nat} (h : Outside t n) : ClosedAt t n := by
  obtain ⟨h0, ⟨l, hl, hm⟩, hc⟩ := h
  obtain ⟨n, rfl⟩ := Nat.exists_eq_succ_of_ne_zero h0
  rw [Nat.add_one_sub_one] at hl hc
  rw [ClosedAt, List.take_add_one, hl, List.filterMap_append, paired_append_iff hc]
  simp [hm, Paired]

/-- The lines that pass the test stand outside all blocks. -/
def AnchorsOutside (isAnchor : Text → Bool) (t : Text) : Prop :=
  ∀ n < (rows t).length, ∀ l ∈ (rows t)[n]?, isAnchor (Block.anchorText l) → Outside t (n + 1)

instance (isAnchor : Text → Bool) (t : Text) : Decidable (AnchorsOutside isAnchor t) :=
  inferInstanceAs (Decidable (∀ _ < _, _))

theorem anchorText_takeWhile {l : Text} (h : l ∈ rawLines t) :
    Block.anchorText (l.takeWhile (!isNewline ·)) = Block.anchorText l := by
  obtain ⟨r, hr, rfl | ⟨rfl, -⟩⟩ := mem_rawLines h
  · rw [takeWhile_of_not_mem hr]
    simp [Block.anchorText, dropEndWhile]
  · rw [takeWhile_eq_self hr]

/-- A block is put below an anchor, or over a block of its tag. -/
theorem keeps_upsert {isAnchor : Text → Bool} {new : Text} (h : WellMarked t)
    (hn : new = [] ∨ ∃ ls, HasParts new [.block tag ls]) (ha : AnchorsOutside isAnchor t) :
    Keeps [tag] t (Block.upsert tag new isAnchor t) := by
  unfold Block.upsert
  split
  · exact keeps_removeAll h tag
  · next h0 =>
    obtain ⟨ls, hn⟩ := hn.resolve_left h0
    split
    · next e he => exact keeps_of_find? h he hn (Block.solidLines_spliceApart _ _ _)
    · split
      · next above below hb =>
        obtain ⟨lead, l, rfl, hs, hl, -⟩ := Block.splitBelow?_eq_some hb
        have hr : (rows t)[lead.length]? = some (l.takeWhile (!isNewline ·)) := by simp [rows, hs]
        have hm : l ∈ rawLines t := by simp [hs]
        have ho := ha _ (List.getElem?_eq_some_iff.1 hr).1 _ hr (by rwa [anchorText_takeWhile hm])
        obtain ⟨ps, qs, hp, hab, hbe⟩ := hasParts_take_drop h ho.closedAt_self
        have hs' : rawLines t = (lead ++ [l]) ++ below := by simp [hs]
        rw [hs', List.take_left' (by simp)] at hab
        rw [hs', List.drop_left' (by simp)] at hbe
        exact keeps_of_block (hp ▸ h.hasParts) (hab.around hbe hn (Block.solidLines_spliceApart _ _ _))
      · exact keeps_refl h _

end

end Text
end Marginalia
