/-
# Blocks put in once more

A block that stands in a text is exchanged for itself (`Block.Amid.replace?_eq`),
and below an anchor line it comes out with the same blank lines around it
(`Block.upsert_upsert`). Where it is the only block of its tag it counts as one
(`Block.Amid.count_eq`), also after it took the place of another one
(`Block.exists_amid_of_replace?`).

Key definition: `Block.Amid`.
Key theorems: `Block.Amid.replace?_eq`, `Block.Amid.count_eq`, `Block.exists_amid_of_replace?`,
`Block.upsert_upsert`.
-/
import Marginalia.Proofs.Block.Exhausting
import Marginalia.Proofs.Block.Keeping
import Marginalia.Proofs.Block.Numbering
import Marginalia.Proofs.Block.Spacing

namespace Marginalia

open Text

namespace Block

variable {tag : Tag} {a b c t x : Text} {cs : List Text}

/-- Without its only block a text has the lines above and below. -/
theorem solidLines_removeAll_of_find? {e : Excerpt} (he : Excerpt.find? tag t = some e)
    (ht : Terminated e.before) (hd : Detached e.after) (hb : ¬ tag.beginMarker <:+: e.before)
    (ha : ¬ tag.beginMarker <:+: e.after) :
    solidLines (removeAll tag t) = solidLines e.before ++ solidLines e.after := by
  have hs : solidLines (excise e) = solidLines e.before ++ solidLines e.after := by
    rw [excise, solidLines_joinSeam ht, solidLines_dropSeparator _ hd]
  have hfresh : ¬ (Marker.opening tag).text <:+: excise e := by
    rw [Marker.infix_iff_solidLines, hs]
    rintro ⟨l, hl, hm⟩
    rcases List.mem_append.1 hl with hl | hl
    · exact hb ((Marker.opening tag).infix_iff_solidLines.2 ⟨l, hl, hm⟩)
    · exact ha ((Marker.opening tag).infix_iff_solidLines.2 ⟨l, hl, hm⟩)
  rw [solidLines_removeAll, exciseAll_of_find?_eq_some he,
    exciseAll_of_find?_eq_none (Excerpt.find?_eq_none hfresh), hs]

/-! ### A block between two texts -/

/-- The text `x` is a block with the comment lines `cs` between the texts `a` and `c`, in which no
block of the tag begins. -/
structure Amid (tag : Tag) (cs : List Text) (a c x : Text) : Prop where
  /-- The text. -/
  eq : ∃ indent, IsIndentation indent ∧ x = a ++ (frame tag indent cs ++ c)
  /-- Above the block a line ends. -/
  above : Terminated a
  /-- Below the block a line starts. -/
  below : Detached c
  /-- No block begins above. -/
  fresh_above : ¬ tag.beginMarker <:+: a
  /-- No block begins below. -/
  fresh_below : ¬ tag.beginMarker <:+: c

namespace Amid

theorem find?_eq (hx : Amid tag cs a c x) (hc : CommentLines cs) :
    ∃ indent, IsIndentation indent ∧ Excerpt.find? tag x = some ⟨a, frame tag indent cs, c⟩ := by
  obtain ⟨indent, hi, rfl⟩ := hx.eq
  exact ⟨indent, hi, Excerpt.find?_frame hx.above hx.fresh_above hi hc c⟩

theorem solidLines_eq (hx : Amid tag cs a c x) (hc : CommentLines cs) :
    ∃ indent, IsIndentation indent ∧ solidLines x = solidLines a ++ (framed tag indent cs ++ solidLines c) := by
  obtain ⟨indent, hi, rfl⟩ := hx.eq
  exact ⟨indent, hi, by rw [solidLines_append hx.above, solidLines_append_detached hx.below, solidLines_frame hi hc]⟩

/-- The block is exchanged for itself. -/
theorem replace?_eq (hx : Amid tag cs a c x) (hc : CommentLines cs) (hr : ∀ l ∈ cs, l.getLast? ≠ some '\r') :
    replace? tag (frame tag [] cs) x = some x := by
  obtain ⟨indent, hi, rfl⟩ := hx.eq
  rw [replace?, Excerpt.find?_frame hx.above hx.fresh_above hi hc c, Option.map_some, indentOf_frame hi,
    indentWith_frame hc, map_dropReturn_of_getLast? hr, List.append_assoc]

theorem count_eq (hx : Amid tag cs a c x) (hc : CommentLines cs) : count tag x = 1 := by
  obtain ⟨indent, hi, hsolid⟩ := hx.solidLines_eq hc
  rw [count_eq_of_solidLines hsolid (valid_framed hi hc), count_eq_zero_iff.2 hx.fresh_above,
    count_eq_zero_iff.2 hx.fresh_below]

/-- Without the block the lines above and below are left. -/
theorem solidLines_removeAll (hx : Amid tag cs a c x) (hc : CommentLines cs) :
    solidLines (removeAll tag x) = solidLines a ++ solidLines c := by
  obtain ⟨indent, -, he⟩ := hx.find?_eq hc
  exact solidLines_removeAll_of_find? he hx.above hx.below hx.fresh_above hx.fresh_below

/-- The block is no code. -/
theorem codeLines_removeAll (hx : Amid tag cs a c x) (hc : CommentLines cs) :
    codeLines (removeAll tag x) = codeLines x := by
  obtain ⟨indent, hi, he⟩ := hx.solidLines_eq hc
  rw [codeLines_eq_filter, codeLines_eq_filter, hx.solidLines_removeAll hc, he, List.filter_append,
    List.filter_append, List.filter_append, filter_framed hi hc, List.nil_append]

end Amid

/-- Exchanging the only block of a text leaves it the only one, and what is left without it stays. -/
theorem exists_amid_of_replace? (h : WellMarked t) (h₁ : count tag t = 1) (hc : CommentLines cs)
    (hr : ∀ l ∈ cs, l.getLast? ≠ some '\r') (hx : replace? tag (frame tag [] cs) t = some x) :
    ∃ a c, Amid tag cs a c x ∧ solidLines (removeAll tag x) = solidLines (removeAll tag t) := by
  obtain ⟨e, he, rfl⟩ := Option.map_eq_some_iff.1 hx
  obtain ⟨_, _, _, indent, -, hi, -, -, -, hsp⟩ := h.hasParts.exists_of_find? he
  obtain ⟨hb, ha⟩ := not_infix_of_count_eq_one he h₁
  have hamid : Amid tag cs e.before e.after
      (e.before ++ indentWith (indentOf e.text) (frame tag [] cs) ++ e.after) := by
    refine ⟨⟨indent, hi, ?_⟩, hsp.before, hsp.after, hb, ha⟩
    rw [hsp.indent, indentWith_frame hc, map_dropReturn_of_getLast? hr, List.append_assoc]
  refine ⟨_, _, hamid, ?_⟩
  rw [hamid.solidLines_removeAll hc, solidLines_removeAll_of_find? he hsp.before hsp.after hb ha]

/-! ### Below an anchor line -/

/-- Putting a block below an anchor line once more changes nothing. -/
theorem upsert_upsert (h : WellMarked t) {block : Text}
    (hb : block = [] ∨ ∃ cs, CommentLines cs ∧ block = frame tag [] cs) (isAnchor : Text → Bool) :
    upsert tag block isAnchor (upsert tag block isAnchor t) = upsert tag block isAnchor t := by
  rcases hb with rfl | ⟨cs, hc, rfl⟩
  · simp only [upsert, if_true]
    exact removeAll_removeAll tag t
  · exact upsert_upsert_of_sealed (sealed_frame hc) (h.not_infix_or_isIn tag) frame_ne_nil frame_ne_nil isAnchor

end Block
end Marginalia
