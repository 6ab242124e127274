/-
# Which block is found

What `Excerpt.find?` finds, told without the scan: the first begin marker of
the text opens the block, and the nearest end marker below it closes
it, and the indentation in front of the begin marker belongs to it if there is
nothing else on its line (`Excerpt.find?_eq_some_iff`). A text is sealed if it
starts with a begin marker and its first end marker ends it. Put at the start
of a line, below a text without a begin marker, it is what is found. A written
block is sealed exactly if no comment line of it holds the end marker
(`Block.sealed_render_iff`).

Key definitions: `Text.EndsIndented`, `Excerpt.IsFirst`, `Block.Sealed`.
Key theorems: `Excerpt.find?_eq_some_iff`, `Block.Sealed.find?_eq`, `Block.sealed_render_iff`.
-/
import Marginalia.Proofs.Block.Finding
import Marginalia.Proofs.Block.Framing

namespace Marginalia
namespace Text

/-- On the line on which the text ends there are spaces and tabs only. -/
def EndsIndented (t : Text) : Prop := ∃ above indent, Terminated above ∧ IsIndentation indent ∧ t = above ++ indent

theorem isIndentation_takeEndWhile (t : Text) : IsIndentation (takeEndWhile isIndent t) := fun _ hc =>
  List.mem_takeWhile_imp (List.mem_reverse.1 hc)

/-- Nothing is cut off from a line that holds more than its indentation. -/
theorem splitIndent_of_not_endsIndented {t : Text} (h : ¬ EndsIndented t) : splitIndent t = (t, []) := by
  have hsplit := dropEndWhile_append_takeEndWhile isIndent t
  have hindent := isIndentation_takeEndWhile t
  unfold splitIndent
  split
  · next he => exact absurd ⟨[], _, terminated_nil, hindent, he ▸ hsplit.symm⟩ h
  · next he =>
    split
    · next hl => exact absurd ⟨_, _, .inr hl, hindent, he ▸ hsplit.symm⟩ h
    · rfl

end Text

open Text

namespace Excerpt

variable {tag : Tag} {t indent inner : Text} {e : Excerpt}

/-- The excerpt is the first block of the tag in the text: its begin marker stands after `indent`, and
its end marker after `inner`. -/
structure IsFirst (tag : Tag) (t : Text) (e : Excerpt) (indent inner : Text) : Prop where
  /-- It is taken from the text. -/
  whole_eq : e.whole = t
  /-- It goes from the indentation to the end marker. -/
  text_eq : e.text = indent ++ (tag.beginMarker ++ (inner ++ tag.endMarker))
  /-- In front of the begin marker there are spaces and tabs only. -/
  isIndentation : IsIndentation indent
  /-- It starts with the line of the begin marker or, if there is more on that line, with the marker. -/
  start : Terminated e.before ∨ indent = [] ∧ ¬ EndsIndented e.before
  /-- No begin marker stands above it. -/
  first : ¬ tag.beginMarker <:+: e.before
  /-- No end marker stands between its markers. -/
  nearest : ¬ tag.endMarker <:+: inner

/-- A block starts with its indentation. -/
theorem IsFirst.indentOf_eq (h : e.IsFirst tag t indent inner) : indentOf e.text = indent := by
  obtain ⟨u, hu, -⟩ := Marker.exists_text_eq (.opening tag)
  have hu : tag.beginMarker = '#' :: u := hu
  rw [h.text_eq, hu, indentOf, List.cons_append, h.isIndentation.takeWhile_append]

theorem IsFirst.find?_eq (h : e.IsFirst tag t indent inner) : find? tag t = some e := by
  obtain ⟨before, text, after⟩ := e
  obtain ⟨rfl, rfl, hi, hs, hb, he⟩ := h
  simp only at hs hb
  have ht : whole ⟨before, indent ++ (tag.beginMarker ++ (inner ++ tag.endMarker)), after⟩ =
      before ++ (indent ++ (tag.beginMarker ++ (inner ++ (tag.endMarker ++ after)))) := by
    simp only [whole, List.append_assoc]
  rcases hs with hs | ⟨rfl, hs⟩
  · rw [ht, find?_append hs hi hb he]
    simp only [List.append_assoc]
  · have h₁ := splitFirst?_text (.opening tag) (a := before) hb (inner ++ (tag.endMarker ++ after))
    have h₂ := splitFirst?_text (.closing tag) (a := inner) he after
    simp only [Marker.text] at h₁ h₂
    rw [ht, find?, List.nil_append, h₁]
    simp only [h₂, splitIndent_of_not_endsIndented hs, List.nil_append, List.append_assoc]

/-- **What is found is the first block.** -/
theorem find?_eq_some_iff : find? tag t = some e ↔ ∃ indent inner, e.IsFirst tag t indent inner := by
  refine ⟨fun h => ?_, fun ⟨_, _, h⟩ => h.find?_eq⟩
  have hwhole := whole_find? h
  unfold find? at h
  split at h
  · cases h
  · next lead rest h₁ =>
    split at h
    · cases h
    · next inner after h₂ =>
      cases h
      have hfirst := not_infix_of_splitFirst? tag.beginMarker_ne_nil h₁
      have hnearest := not_infix_of_splitFirst? (Marker.text_ne_nil (.closing tag)) h₂
      by_cases hl : EndsIndented lead
      · obtain ⟨above, indent, ha, hi, rfl⟩ := hl
        refine ⟨indent, inner, hwhole, ?_, hi, .inl ?_, fun hb => hfirst (hb.trans ?_), hnearest⟩
        · simp only [splitIndent_append_indentation ha hi, List.append_assoc]
        · simpa only [splitIndent_append_indentation ha hi] using ha
        · simp only [splitIndent_append_indentation ha hi]
          exact (List.prefix_append above indent).isInfix
      · have hs := splitIndent_of_not_endsIndented hl
        refine ⟨[], inner, hwhole, ?_, .nil, .inr ⟨rfl, ?_⟩, ?_, hnearest⟩
        · simp only [hs, List.nil_append, List.append_assoc]
        · simpa only [hs] using hl
        · simpa only [hs] using hfirst

end Excerpt

namespace Block

variable {tag : Tag} {a c block : Text}

/-- The text starts with a begin marker of the tag and ends with its first end marker. -/
def Sealed (tag : Tag) (block : Text) : Prop :=
  ∃ inner, block = tag.beginMarker ++ (inner ++ tag.endMarker) ∧ ¬ tag.endMarker <:+: inner

/-- What is sealed is found at the start of a line. -/
theorem Sealed.find?_eq (h : Sealed tag block) (ha : Terminated a) (hb : ¬ tag.beginMarker <:+: a) (c : Text) :
    Excerpt.find? tag (a ++ (block ++ c)) = some ⟨a, block, c⟩ := by
  obtain ⟨inner, rfl, he⟩ := h
  refine Excerpt.find?_eq_some_iff.2 ⟨[], inner, ?_, rfl, .nil, .inl ha, hb, he⟩
  simp only [Excerpt.whole, List.append_assoc]

/-- What is found without indentation is sealed. -/
theorem sealed_of_find? {t : Text} {e : Excerpt} (h : Excerpt.find? tag t = some e)
    (hs : e.text.head? = some '#') : Sealed tag e.text := by
  obtain ⟨indent, inner, hf⟩ := Excerpt.find?_eq_some_iff.1 h
  refine ⟨inner, ?_, hf.nearest⟩
  have hi : indent = [] := by
    cases indent with
    | nil => rfl
    | cons c indent =>
      rw [hf.text_eq, List.cons_append, List.head?_cons, Option.some.injEq] at hs
      exact absurd (hs ▸ List.mem_cons_self) hf.isIndentation.sign_not_mem
  rw [hf.text_eq, hi, List.nil_append]

/-- Lines between the two markers are sealed exactly if the end marker stands in none of them. -/
theorem sealed_paragraph_iff {ls : List Text} :
    Sealed tag (tag.beginMarker ++ '\n' :: (paragraph ls ++ tag.endMarker)) ↔ ∀ l ∈ ls, ¬ tag.endMarker <:+: l := by
  have hn : '\n' ∉ tag.endMarker := Marker.newline_not_mem_text (.closing tag)
  have h0 : tag.endMarker ≠ [] := Marker.text_ne_nil (.closing tag)
  have hin : tag.endMarker <:+: '\n' :: paragraph ls ↔ ∃ l ∈ ls, tag.endMarker <:+: l := by
    rw [← infix_paragraph_iff hn h0]
    simpa [h0] using infix_append_newline hn (a := []) (b := paragraph ls)
  rw [← List.cons_append]
  constructor
  · rintro ⟨inner, he, hm⟩ l hl hl'
    obtain rfl := List.append_cancel_right (List.append_cancel_left he)
    exact hm (hin.2 ⟨l, hl, hl'⟩)
  · intro hl
    exact ⟨_, rfl, fun hm => (hin.1 hm).elim fun l h => hl l h.1 h.2⟩

theorem sealed_frame {cs : List Text} (h : CommentLines cs) : Sealed tag (frame tag [] cs) := by
  have hs := sealed_paragraph_iff.2 fun l hl hm => (h l hl).2.2 ⟨.closing tag, hm⟩
  simpa only [frame_eq, List.nil_append, List.map_id'] using hs

/-- A written block is sealed exactly if its end marker stands in no comment line. -/
theorem sealed_render_iff {b : Block} (h : b.lines ≠ []) :
    Sealed b.tag b.render ↔ ∀ l ∈ b.commentLines, ¬ b.tag.endMarker <:+: l := by
  rw [render_eq h, sealed_paragraph_iff]

end Block
end Marginalia
