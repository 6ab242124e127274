/-
# Blocks taken out and put in

How taking out, exchanging and putting in a block change the solid lines of a
text and, where the text is well-marked, its parts. Every seam is at the end of
a line, so that no line is lost or joined with another one.

Key theorems: `Block.solidLines_exchange`, `Text.HasParts.around`, `Text.HasParts.removeAll`.
-/
import Marginalia.Proofs.Block.Finding
import Marginalia.Proofs.Block.Framing
import Marginalia.Proofs.Text.Folding

namespace Marginalia
namespace Block

open Text

/-! ### Solid lines -/

theorem solidLines_dropSeparator (before : Text) {after : Text} (h : Detached after) :
    solidLines (dropSeparator before after) = solidLines after := by
  unfold dropSeparator
  split
  · split
    · split
      · simp
      · simp
    · simp
  · rfl

theorem solidLines_joinSeam {a : Text} (ha : Terminated a) (b : Text) :
    solidLines (joinSeam a b) = solidLines a ++ solidLines b := by
  rw [(alike_joinSeam a b).solidLines_eq, solidLines_append ha]

theorem solidLines_excise {e : Excerpt} {ls ms : List Text} {indent : Text} (h : e.Spans ls indent ms) :
    solidLines (excise e) = solidLines e.before ++ solidLines e.after := by
  rw [excise, solidLines_joinSeam h.before, solidLines_dropSeparator _ h.after]

theorem solidLines_exchange {e : Excerpt} {ls ms : List Text} {indent : Text}
    (h : e.Spans ls indent ms) (block : Text) :
    solidLines (e.before ++ block ++ e.after) =
      solidLines e.before ++ (solidLines block ++ solidLines e.after) := by
  rw [List.append_assoc, solidLines_append h.before, solidLines_append_detached h.after]

/-- What is above a block that stands one blank line apart. -/
def headApart (before : Text) : Text :=
  if dropEndNewlines before = [] then [] else dropEndNewlines before ++ ['\n', '\n']

/-- What is below it. -/
def tailApart (after : Text) : Text :=
  if dropNewlines after = [] then ['\n'] else '\n' :: '\n' :: dropNewlines after

theorem spliceApart_eq (before block after : Text) :
    spliceApart before block after = headApart before ++ (block ++ tailApart after) := List.append_assoc _ _ _

theorem terminated_headApart (before : Text) : Terminated (headApart before) := by
  unfold headApart
  split
  · exact terminated_nil
  · exact .inr (by simp)

theorem solidLines_headApart (before : Text) : solidLines (headApart before) = solidLines before := by
  unfold headApart
  rw [← solidLines_dropEndNewlines before]
  split
  · next h => rw [h]
  · exact solidLines_append_newlines _ (by simp)

theorem detached_tailApart (after : Text) : Detached (tailApart after) := by
  unfold tailApart
  split <;> exact detached_newline_cons _

theorem solidLines_tailApart (after : Text) : solidLines (tailApart after) = solidLines after := by
  unfold tailApart
  rw [← solidLines_dropNewlines after]
  split
  · next h => rw [h]; rfl
  · simp

theorem solidLines_spliceApart (before block after : Text) :
    solidLines (spliceApart before block after) =
      solidLines before ++ (solidLines block ++ solidLines after) := by
  rw [spliceApart_eq, solidLines_append (terminated_headApart before),
    solidLines_append_detached (detached_tailApart after), solidLines_headApart, solidLines_tailApart]

theorem exciseAll_of_find?_eq_none {tag : Tag} {t : Text} (h : Excerpt.find? tag t = none) :
    exciseAll tag t = t := by
  rw [exciseAll]
  split
  · rfl
  · next h' => rw [h] at h'; cases h'

theorem exciseAll_of_find?_eq_some {tag : Tag} {t : Text} {e : Excerpt} (h : Excerpt.find? tag t = some e) :
    exciseAll tag t = exciseAll tag (excise e) := by
  rw [exciseAll]
  split
  · next h' => rw [h] at h'; cases h'
  · next h' => rw [h] at h'; cases h'; rfl

theorem exciseAll_of_not_isIn {tag : Tag} {t : Text} (h : ¬ isIn tag t) : exciseAll tag t = t := by
  rw [isIn, Bool.not_eq_true, Option.isSome_eq_false_iff, Option.isNone_iff_eq_none] at h
  exact exciseAll_of_find?_eq_none h

theorem solidLines_removeAll (tag : Tag) (t : Text) : solidLines (removeAll tag t) = solidLines (exciseAll tag t) := by
  unfold removeAll
  split
  · exact solidLines_foldBlankRuns _
  · next h => rw [exciseAll_of_not_isIn h]

/-- The lines down to an anchor and those below it. -/
theorem splitBelow?_eq_some {isAnchor : Text → Bool} : ∀ {ls above below : List Text},
    splitBelow? isAnchor ls = some (above, below) →
    ∃ lead l, above = lead ++ [l] ∧ ls = lead ++ l :: below ∧ isAnchor (anchorText l) ∧
      ∀ m ∈ lead, ¬ isAnchor (anchorText m)
  | [], _, _, h => by cases h
  | l :: ls, above, below, h => by
    rw [splitBelow?] at h
    split at h
    · next hl =>
      cases h
      exact ⟨[], l, rfl, rfl, hl, by simp⟩
    · next hl =>
      obtain ⟨⟨above, below⟩, hs, he⟩ := Option.map_eq_some_iff.1 h
      cases he
      obtain ⟨lead, m, rfl, rfl, hm, hn⟩ := splitBelow?_eq_some hs
      exact ⟨l :: lead, m, rfl, rfl, hm, List.forall_mem_cons.2 ⟨hl, hn⟩⟩

theorem splitBelow?_eq_none {isAnchor : Text → Bool} : ∀ {ls : List Text},
    splitBelow? isAnchor ls = none → ∀ l ∈ ls, ¬ isAnchor (anchorText l)
  | [], _ => by simp
  | l :: ls, h => by
    rw [splitBelow?] at h
    split at h
    · cases h
    · next hl =>
      exact List.forall_mem_cons.2 ⟨hl, splitBelow?_eq_none (Option.map_eq_none_iff.1 h)⟩

end Block

/-! ### Parts -/

instance (tag : Tag) (p : Part) : Decidable (p.Avoids tag) := inferInstanceAs (Decidable (_ = _))

/-- Parts hold no block of the tag, or there is a first one. -/
theorem Part.avoids_or_exists (tag : Tag) : ∀ ps : List Part, (∀ p ∈ ps, p.Avoids tag) ∨
    ∃ pre ls post, ps = pre ++ .block tag ls :: post ∧ ∀ p ∈ pre, p.Avoids tag
  | [] => .inl (by simp)
  | p :: ps => by
    by_cases hp : p.Avoids tag
    · rcases avoids_or_exists tag ps with h | ⟨pre, ls, post, rfl, h⟩
      · exact .inl (List.forall_mem_cons.2 ⟨hp, h⟩)
      · exact .inr ⟨p :: pre, ls, post, rfl, List.forall_mem_cons.2 ⟨hp, h⟩⟩
    · cases p with
      | source l => exact absurd rfl hp
      | block s ls =>
        by_cases hs : s = tag
        · exact .inr ⟨[], ls, ps, by rw [hs]; rfl, by simp⟩
        · exact absurd (if_neg hs) hp

/-- The lines of parts that are no blocks of the tag hold no begin marker of it. -/
theorem Part.not_infix_of_avoids {tag : Tag} {ps : List Part} (hv : ∀ p ∈ ps, p.Valid)
    (hp : ∀ p ∈ ps, p.Avoids tag) : ∀ l ∈ ps.flatMap Part.lines, ¬ tag.beginMarker <:+: l := by
  intro l hl hm
  obtain ⟨p, hmem, hl⟩ := List.mem_flatMap.1 hl
  have hm' : (Marker.opening tag).text <:+: l := hm
  cases p with
  | source k =>
    rw [Part.lines, List.mem_singleton] at hl
    exact hv _ hmem ⟨.opening tag, hl ▸ hm⟩
  | block s _ =>
    obtain ⟨indent, inner, indent', hi, hi', hin, rfl⟩ := hv _ hmem
    simp only [Part.lines, List.mem_cons, List.mem_append, List.not_mem_nil, or_false] at hl
    rcases hl with rfl | hl | rfl
    · cases Marker.eq_of_isInfix (n := .opening s) hi hm'
      simpa [Part.Avoids, Part.block?] using hp _ hmem
    · exact hin l hl ⟨.opening tag, hm⟩
    · cases Marker.eq_of_isInfix (n := .closing s) hi' hm'

namespace Text

namespace HasParts

variable {a b t : Text} {ps qs pre post : List Part} {tag : Tag} {ls : List Text}

theorem of_solidLines_eq (h : HasParts t ps) (e : solidLines a = solidLines t) : HasParts a ps :=
  ⟨h.1, e.trans h.2⟩

/-- A text with the solid lines of two others has the parts of both. -/
theorem append (ha : HasParts a ps) (hb : HasParts b qs) (e : solidLines t = solidLines a ++ solidLines b) :
    HasParts t (ps ++ qs) := by
  refine ⟨List.forall_mem_append.2 ⟨ha.1, hb.1⟩, ?_⟩
  rw [e, ha.2, hb.2, List.flatMap_append]

/-- A text with the solid lines of a block between those of two others. -/
theorem around {new : Text} (ha : HasParts a ps) (hb : HasParts b qs) (hn : HasParts new [.block tag ls])
    (e : solidLines t = solidLines a ++ (solidLines new ++ solidLines b)) :
    HasParts t (ps ++ .block tag ls :: qs) := by
  have hnb : HasParts (new ++ '\n' :: b) (.block tag ls :: qs) :=
    hn.append hb (solidLines_append_newline new b)
  exact ha.append hnb (by rw [e, solidLines_append_newline])

theorem lacks_marker (h : HasParts t ps) (hp : ∀ p ∈ ps, p.Avoids tag) : ¬ tag.beginMarker <:+: t := by
  refine (Marker.infix_iff_solidLines (.opening tag)).not.2 ?_
  rw [h.2]
  exact fun ⟨l, hl, hm⟩ => Part.not_infix_of_avoids h.1 hp l hl hm

theorem find?_eq_none (h : HasParts t ps) (hp : ∀ p ∈ ps, p.Avoids tag) : Excerpt.find? tag t = none :=
  Excerpt.find?_eq_none (h.lacks_marker hp)

/-- The first block of a tag among the parts is the one that is found. -/
theorem exists_find? (h : HasParts t (pre ++ .block tag ls :: post)) (hp : ∀ p ∈ pre, p.Avoids tag) :
    ∃ e indent, Excerpt.find? tag t = some e ∧ IsIndentation indent ∧
      e.Spans (pre.flatMap Part.lines) indent (post.flatMap Part.lines) := by
  obtain ⟨hv, hs⟩ := h
  rw [List.forall_mem_append, List.forall_mem_cons] at hv
  obtain ⟨hpre, ⟨indent, inner, indent', hi, hi', hin, rfl⟩, -⟩ := hv
  simp only [List.flatMap_append, List.flatMap_cons, Part.lines, List.cons_append, List.append_assoc,
    List.nil_append] at hs
  obtain ⟨e, he, hsp⟩ := Excerpt.exists_find?_eq hs hi hi' (Part.not_infix_of_avoids hpre hp)
    fun l hl hm => hin l hl ⟨.closing tag, hm⟩
  exact ⟨e, indent, he, hi, hsp⟩

theorem isIn_iff (h : HasParts t ps) : Block.isIn tag t ↔ ∃ p ∈ ps, ¬ p.Avoids tag := by
  rcases Part.avoids_or_exists tag ps with hp | ⟨pre, ls, post, rfl, hp⟩
  · rw [Block.isIn, h.find?_eq_none hp]
    simpa using hp
  · obtain ⟨e, indent, he, -⟩ := h.exists_find? hp
    rw [Block.isIn, he]
    simpa using ⟨.block tag ls, by simp, by simp [Part.Avoids, Part.block?]⟩

theorem find?_eq_none_iff (h : HasParts t ps) : Excerpt.find? tag t = none ↔ ∀ p ∈ ps, p.Avoids tag := by
  refine ⟨fun hn p hp => ?_, h.find?_eq_none⟩
  by_contra ha
  have hin := h.isIn_iff.2 ⟨p, hp, ha⟩
  rw [Block.isIn, hn] at hin
  cases hin

/-- Begin markers stand in blocks. -/
theorem not_infix_iff (h : HasParts t ps) : ¬ tag.beginMarker <:+: t ↔ ∀ p ∈ ps, p.Avoids tag :=
  ⟨fun hm => h.find?_eq_none_iff.1 (Excerpt.find?_eq_none hm), h.lacks_marker⟩

theorem split (h : HasParts t (ps ++ qs)) : (∀ p ∈ ps, p.Valid) ∧ ∀ p ∈ qs, p.Valid :=
  List.forall_mem_append.1 h.1

/-- What is found is a block among the parts, the first of its tag. -/
theorem exists_of_find? {e : Excerpt} (h : HasParts t ps) (he : Excerpt.find? tag t = some e) :
    ∃ pre ls post indent, ps = pre ++ .block tag ls :: post ∧ IsIndentation indent ∧
      (∀ p ∈ pre, p.Avoids tag) ∧ HasParts e.before pre ∧ HasParts e.after post ∧
      e.Spans (pre.flatMap Part.lines) indent (post.flatMap Part.lines) := by
  rcases Part.avoids_or_exists tag ps with hp | ⟨pre, ls, post, rfl, hp⟩
  · rw [h.find?_eq_none hp] at he
    cases he
  · obtain ⟨e', indent, he', hi, hsp⟩ := h.exists_find? hp
    cases he.symm.trans he'
    exact ⟨pre, ls, post, indent, rfl, hi, hp, ⟨h.split.1, hsp.above⟩,
      ⟨(List.forall_mem_cons.1 h.split.2).2, hsp.below⟩, hsp⟩

/-- The text of a block among the parts. -/
theorem text_of_spans {e : Excerpt} {indent : Text} (h : HasParts t (pre ++ .block tag ls :: post)) (hw : e.whole = t)
    (hsp : e.Spans (pre.flatMap Part.lines) indent (post.flatMap Part.lines)) : HasParts e.text [.block tag ls] := by
  refine ⟨List.forall_mem_singleton.2 (h.1 _ (by simp)), ?_⟩
  have hs : solidLines t = solidLines e.before ++ (solidLines e.text ++ solidLines e.after) := by
    rw [← hw, Excerpt.whole, List.append_assoc, solidLines_append hsp.before, solidLines_append_detached hsp.after]
  rw [h.2, hsp.above, hsp.below, List.flatMap_append, List.flatMap_cons] at hs
  simpa using (List.append_cancel_right (List.append_cancel_left hs)).symm

/-- What is left without the blocks of a tag are the other parts. -/
theorem exciseAll (h : HasParts t ps) : HasParts (Block.exciseAll tag t) (ps.filter (·.Avoids tag)) := by
  fun_induction Block.exciseAll tag t generalizing ps with
  | case1 t hn =>
    rcases Part.avoids_or_exists tag ps with hp | ⟨pre, ls, post, rfl, hp⟩
    · rwa [List.filter_eq_self.2 (by simpa using hp)]
    · obtain ⟨e, indent, he, -⟩ := h.exists_find? hp
      rw [hn] at he
      cases he
  | case2 t e he ih =>
    obtain ⟨pre, ls, post, indent, rfl, -, -, hb, ha, hsp⟩ := h.exists_of_find? he
    have := ih (hb.append ha (Block.solidLines_excise hsp))
    simpa [List.filter_cons, Part.Avoids, Part.block?] using this

theorem removeAll (h : HasParts t ps) : HasParts (Block.removeAll tag t) (ps.filter (·.Avoids tag)) :=
  h.exciseAll.of_solidLines_eq (Block.solidLines_removeAll tag t)

end HasParts

/-- A well-marked text holds a block of a tag or no begin marker of it. -/
theorem WellMarked.not_infix_or_isIn {t : Text} (h : WellMarked t) (tag : Tag) :
    ¬ tag.beginMarker <:+: t ∨ Block.isIn tag t := by
  rw [h.hasParts.not_infix_iff, ← h.hasParts.find?_eq_none_iff, Block.isIn, Option.isSome_iff_ne_none]
  exact Decidable.em _

end Text
end Marginalia
