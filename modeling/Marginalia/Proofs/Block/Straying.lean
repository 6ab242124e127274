/-
# A begin marker without an end

Where no end marker follows the first begin marker of a tag, the text holds no
block of the tag; the marker is a stray one. A block of the tag that is put
below the line of the stray marker closes it: what is found then reaches from
the stray marker to the end of the new block, and with the new block the line
of the stray marker is taken out (`Block.exists_solidLines_removeAll_eq`).

Key theorems: `Excerpt.find?_append_eq_none`, `Block.exists_solidLines_removeAll_eq`,
`Block.exists_stray_line`.
-/
import Marginalia.Proofs.Block.Excision

namespace Marginalia

open Text Block

namespace Excerpt

variable {tag : Tag} {t : Text}

/-- No block is found if no begin marker stands in the first of two texts and no end marker in the
second. -/
theorem find?_append_eq_none {a b : Text} (ha : ¬ tag.beginMarker <:+: a) (hb : ¬ tag.endMarker <:+: b) :
    find? tag (a ++ b) = none := by
  cases h : splitFirst? tag.beginMarker (a ++ b) with
  | none => rw [find?, h]
  | some p =>
    obtain ⟨lead, rest⟩ := p
    have hr : ¬ tag.endMarker <:+: rest := by
      rcases List.append_eq_append_iff.1 (splitFirst?_eq _ h) with ⟨m, rfl, -⟩ | ⟨m, -, rfl⟩
      · exact absurd ⟨lead, m, rfl⟩ ha
      · exact fun he => hb (he.trans (List.suffix_append m rest).isInfix)
    rw [find?, h]
    simp only [splitFirst?_eq_none_iff.2 hr]

/-- The same for lines. -/
theorem find?_eq_none_of_solidLines {ls ms : List Text} (ht : solidLines t = ls ++ ms)
    (hl : ∀ l ∈ ls, ¬ tag.beginMarker <:+: l) (hm : ∀ l ∈ ms, ¬ tag.endMarker <:+: l) :
    find? tag t = none := by
  have hb {a : Text} (ha : solidLines a = ls) : ¬ (Marker.opening tag).text <:+: a := by
    rw [Marker.infix_iff_solidLines, ha]
    exact fun ⟨l, h, h'⟩ => hl l h h'
  cases ms with
  | nil => exact find?_eq_none (hb (by rw [ht, List.append_nil]))
  | cons m ms =>
    obtain ⟨a, b, rfl, -, hd, ha, hs⟩ := exists_of_solidLines_eq ht
    refine find?_append_eq_none (hb ha) ?_
    show ¬ (Marker.closing tag).text <:+: m ++ b
    have hm0 : m ∈ solidLines (a ++ (m ++ b)) := by rw [ht]; simp
    rw [Marker.infix_iff_solidLines, solidLines_append_detached hd,
      solidLines_of_not_mem (mem_solidLines hm0).1 (mem_solidLines hm0).2, hs]
    exact fun ⟨l, h, h'⟩ => hm l h h'

/-- No end marker stands below a stray begin marker. -/
theorem not_infix_of_find?_eq_none {lead rest : Text} (hl : ¬ tag.beginMarker <:+: lead)
    (hn : find? tag (lead ++ (tag.beginMarker ++ rest)) = none) : ¬ tag.endMarker <:+: rest := by
  have h := splitFirst?_text (.opening tag) hl rest
  simp only [Marker.text] at h
  rw [find?, h] at hn
  simp only at hn
  split at hn
  · next hr => exact splitFirst?_eq_none_iff.1 hr
  · cases hn

end Excerpt

namespace Block

variable {tag : Tag} {t : Text}

/-- Newlines are dropped from the end of the second text alone, if the first does not end with one. -/
theorem dropEndNewlines_append {a : Text} (ha : ∀ c, a.getLast? = some c → c ≠ '\n') (b : Text) :
    dropEndNewlines (a ++ b) = a ++ dropEndNewlines b := by
  have hd : a.reverse.dropWhile isNewline = a.reverse := by
    cases h : a.reverse with
    | nil => rfl
    | cons c cs =>
      have hc := ha c (by rw [← List.head?_reverse, h, List.head?_cons])
      simp [isNewline, hc]
  simp only [dropEndNewlines, dropEndWhile, List.reverse_append, List.dropWhile_append]
  split
  · next h => rw [List.isEmpty_iff.1 h, hd, List.reverse_nil, List.append_nil, List.reverse_reverse]
  · rw [List.reverse_append, List.reverse_reverse]

/-- What is left below a block that was followed by its line end and a line end more starts with a
line end, or what is above the block ends with one. -/
theorem terminated_or_detached (a : Text) {rest : Text} (h : Detached rest) :
    Terminated a ∨ Detached (dropSeparator a ('\n' :: rest)) := by
  simp only [dropSeparator]
  split
  · next hc =>
    refine .inl (hc.imp_right fun hs => ?_)
    obtain ⟨r, hr⟩ := Option.isSome_iff_exists.1 hs
    rw [← List.head?_reverse, ← after?_eq hr]
    rfl
  · exact .inr h

/-- The lines of a frame down to its end marker. -/
theorem frame_eq_paragraph (tag : Tag) (cs : List Text) :
    frame tag [] cs = paragraph (tag.beginMarker :: cs) ++ tag.endMarker := by
  have h := @frame_append_newline tag [] cs []
  rw [framed_nil, ← List.cons_append, paragraph_append, List.append_nil, paragraph_cons tag.endMarker,
    paragraph_nil, ← List.append_assoc] at h
  exact List.append_cancel_right h

/-- Below the line of a stray begin marker a block of its tag closes the marker, and is taken out
together with the line. -/
theorem exists_solidLines_removeAll_eq {lead rest below : Text} {cs : List Text} (hc : CommentLines cs)
    (hl : ¬ tag.beginMarker <:+: lead) (hr : ¬ tag.endMarker <:+: rest) (hb : ¬ tag.endMarker <:+: below) :
    ∃ ls, (∀ l ∈ ls, ¬ tag.beginMarker <:+: l) ∧
      solidLines (removeAll tag (spliceApart (lead ++ (tag.beginMarker ++ rest)) (frame tag [] cs) below)) =
        ls ++ solidLines below := by
  have hmark : ∀ c, (lead ++ tag.beginMarker).getLast? = some c → c ≠ '\n' := by
    intro c hc h
    refine Marker.newline_not_mem_text (.opening tag) ?_
    rw [List.getLast?_append_of_ne_nil _ tag.beginMarker_ne_nil] at hc
    exact h ▸ List.mem_of_getLast? hc
  have hhead : dropEndNewlines (lead ++ (tag.beginMarker ++ rest)) =
      lead ++ (tag.beginMarker ++ dropEndNewlines rest) := by
    rw [← List.append_assoc, dropEndNewlines_append hmark, List.append_assoc]
  -- what stands between the stray marker and the end marker of the block
  let inner := dropEndNewlines rest ++ '\n' :: '\n' :: paragraph (tag.beginMarker :: cs)
  let tail := if dropNewlines below = [] then ['\n'] else '\n' :: '\n' :: dropNewlines below
  have hX : spliceApart (lead ++ (tag.beginMarker ++ rest)) (frame tag [] cs) below =
      lead ++ (tag.beginMarker ++ (inner ++ (tag.endMarker ++ tail))) := by
    rw [spliceApart, hhead, if_neg (by simp [tag.beginMarker_ne_nil]), frame_eq_paragraph]
    simp only [inner, tail, List.append_assoc, List.cons_append, List.nil_append]
  have hin : ¬ (Marker.closing tag).text <:+: inner := by
    have hn := (Marker.closing tag).newline_not_mem_text
    rw [infix_append_newline hn, ← List.nil_append ('\n' :: paragraph _), infix_append_newline hn, not_or,
      not_or]
    refine ⟨fun h => ?_, fun h => (Marker.closing tag).text_ne_nil (List.infix_nil.1 h), ?_⟩
    · exact hr (h.trans ⟨[], takeEndWhile isNewline rest, dropEndWhile_append_takeEndWhile isNewline rest⟩)
    · rw [Marker.infix_iff_solidLines, solidLines_paragraph_of_ne_nil]
      · rintro ⟨l, hm, h⟩
        rcases List.mem_cons.1 hm with rfl | hm
        · cases Marker.eq_of_isInfix (n := .opening tag) IsIndentation.nil h
        · exact (hc l hm).2.2 ⟨.closing tag, h⟩
      · exact List.forall_mem_cons.2 ⟨Marker.newline_not_mem_text (.opening tag), fun l hm => (hc l hm).2.1⟩
      · refine List.forall_mem_cons.2 ⟨tag.beginMarker_ne_nil, fun l hm h => ?_⟩
        simpa [h] using (hc l hm).1
  have hf : Excerpt.find? tag (lead ++ (tag.beginMarker ++ (inner ++ (tag.endMarker ++ tail)))) =
      some ⟨(splitIndent lead).1, (splitIndent lead).2 ++ tag.beginMarker ++ inner ++ tag.endMarker, tail⟩ := by
    have h₁ := splitFirst?_text (.opening tag) hl (inner ++ (tag.endMarker ++ tail))
    have h₂ := splitFirst?_text (.closing tag) hin tail
    simp only [Marker.text] at h₁ h₂
    rw [Excerpt.find?, h₁]
    simp only [h₂]
  have htail : ∃ t, tail = '\n' :: t ∧ Detached t := by
    simp only [tail]
    split
    · exact ⟨[], rfl, detached_nil⟩
    · exact ⟨_, rfl, detached_newline_cons _⟩
  have hbelow : solidLines tail = solidLines below := by
    rw [← solidLines_dropNewlines below]
    simp only [tail]
    split
    · next h => rw [h]; rfl
    · simp
  have hsolid : ∀ a, solidLines (joinSeam a (dropSeparator a tail)) = solidLines a ++ solidLines below := by
    intro a
    obtain ⟨t, ht, hd⟩ := htail
    rw [(alike_joinSeam _ _).solidLines_eq, ← hbelow, ht,
      ← solidLines_dropSeparator a (detached_newline_cons t)]
    rcases terminated_or_detached a hd with h | h
    · rw [solidLines_append h]
    · rw [solidLines_append_detached h]
  have hnone : ∀ l ∈ solidLines (splitIndent lead).1, ¬ tag.beginMarker <:+: l := by
    intro l hm h
    have hp : tag.beginMarker <:+: (splitIndent lead).1 :=
      (Marker.infix_iff_solidLines (.opening tag)).2 ⟨l, hm, h⟩
    exact hl (hp.trans ⟨[], _, splitIndent_append lead⟩)
  refine ⟨_, hnone, ?_⟩
  rw [hX, solidLines_removeAll, exciseAll_of_find?_eq_some hf, exciseAll_of_find?_eq_none]
  · exact hsolid _
  · refine Excerpt.find?_eq_none_of_solidLines (hsolid _) hnone fun l hm h => hb ?_
    exact (Marker.infix_iff_solidLines (.closing tag)).2 ⟨l, hm, h⟩

/-- The test on lines that a begin marker passes. -/
def bears (tag : Tag) (l : Text) : Bool := decide (tag.beginMarker <:+: l)

theorem infix_anchorText_iff {l : Text} : tag.beginMarker <:+: anchorText l ↔ tag.beginMarker <:+: l := by
  have h := dropEndWhile_append_takeEndWhile (fun c => c == '\r' || c == '\n') l
  have hn : '\r' ∉ tag.beginMarker ∧ '\n' ∉ tag.beginMarker := by cases tag <;> decide
  constructor
  · exact fun hm => hm.trans ⟨[], _, h⟩
  · intro hm
    rw [← h] at hm
    refine infix_of_infix_append tag.beginMarker_ne_nil (fun c hc => ?_) hm
    have := List.mem_takeWhile_imp (List.mem_reverse.1 hc)
    rcases Bool.or_eq_true_iff.1 this with h | h
    · exact eq_of_beq h ▸ hn.1
    · exact eq_of_beq h ▸ hn.2

/-- The first line with a stray marker, where lines with the marker are anchors. -/
theorem exists_stray_line {isAnchor : Text → Bool} (ha : ∀ l, isAnchor l ↔ tag.beginMarker <:+: l)
    (hn : Excerpt.find? tag t = none) (hb : tag.beginMarker <:+: t) :
    ∃ above below lead rest, splitBelow? isAnchor (rawLines t) = some (above, below) ∧
      above.flatten = lead ++ (tag.beginMarker ++ rest) ∧ ¬ tag.beginMarker <:+: lead ∧
      ¬ tag.endMarker <:+: rest ∧ ¬ tag.endMarker <:+: below.flatten := by
  have hw : '\n' ∉ tag.beginMarker := Marker.newline_not_mem_text (.opening tag)
  have h0 := tag.beginMarker_ne_nil
  cases hs : splitBelow? isAnchor (rawLines t) with
  | none =>
    obtain ⟨l, hl, hm⟩ := (infix_iff_rawLines hw h0).1 hb
    exact absurd ((ha _).2 (infix_anchorText_iff.2 hm)) (splitBelow?_eq_none hs l hl)
  | some p =>
    obtain ⟨above, below⟩ := p
    obtain ⟨pre, l, rfl, ht, hl, hpre⟩ := splitBelow?_eq_some hs
    rw [ha, infix_anchorText_iff] at hl
    obtain ⟨⟨x, y⟩, hf⟩ := Option.ne_none_iff_exists'.1 (splitFirst?_eq_none_iff.not_left.2 hl)
    have hx := not_infix_of_splitFirst? h0 hf
    have hly : l = x ++ (tag.beginMarker ++ y) := by rw [← splitFirst?_eq _ hf, List.append_assoc]
    have htake : (rawLines t).take pre.length = pre := by rw [ht, List.take_left]
    have hlead : ¬ tag.beginMarker <:+: pre.flatten ++ x := by
      have hterm : Terminated pre.flatten := htake ▸ terminated_take t (by simp [ht])
      have hraw : rawLines pre.flatten = pre := by
        have := (rawLines_take_drop t pre.length).1
        rwa [htake] at this
      intro h
      refine (infix_append_of_terminated hw hterm h).elim (fun h => ?_) hx
      obtain ⟨m, hm, h⟩ := (infix_iff_rawLines hw h0).1 h
      rw [hraw] at hm
      exact hpre m hm ((ha _).2 (infix_anchorText_iff.2 h))
    have hrest : ¬ tag.endMarker <:+: y ++ below.flatten := by
      refine Excerpt.not_infix_of_find?_eq_none hlead ?_
      rw [← hn, ← rawLines_flatten t, ht, hly]
      simp
    refine ⟨_, below, pre.flatten ++ x, y, rfl, by simp [hly], hlead, fun h => hrest ?_, fun h => hrest ?_⟩
    · exact h.trans (List.prefix_append y _).isInfix
    · exact h.trans (List.suffix_append y _).isInfix

end Block
end Marginalia
