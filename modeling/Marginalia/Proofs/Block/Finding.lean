/-
# Where blocks are found

What `Excerpt.find?` finds, in terms of characters (`Excerpt.find?_append`) and
in terms of lines (`Excerpt.exists_find?_eq`): if the first line with a begin
marker and the first line with an end marker below it consist of the markers,
what is found are the lines from the one to the other, and it is cut out at the
ends of lines.

Key definition: `Excerpt.Spans`.
Key theorems: `Excerpt.find?_append`, `Excerpt.exists_find?_eq`.
-/
import Marginalia.Proofs.Block.Marking

namespace Marginalia
namespace Text

/-- A marker is found again below a text that does not hold it. -/
theorem splitFirst?_text (m : Marker) {a : Text} (h : ¬ m.text <:+: a) (b : Text) :
    splitFirst? m.text (a ++ (m.text ++ b)) = some (a, b) := by
  obtain ⟨u, hu, hs, -⟩ := m.exists_text_eq
  rw [hu] at h ⊢
  exact splitFirst?_append hs h

theorem not_infix_append_indentation {m : Marker} {a indent : Text} (ha : Terminated a)
    (hi : IsIndentation indent) (h : ¬ m.text <:+: a) : ¬ m.text <:+: a ++ indent := by
  have hm : ¬ m.text <:+: indent := by
    obtain ⟨u, hu, -⟩ := m.exists_text_eq
    intro h'
    exact hi.sign_not_mem (h'.subset (hu ▸ List.mem_cons_self))
  exact fun h' => (infix_append_of_terminated m.newline_not_mem_text ha h').elim h hm

/-- The indentation of a line is cut off from what is above the line. -/
theorem splitIndent_append_indentation {a indent : Text} (ha : Terminated a) (hi : IsIndentation indent) :
    splitIndent (a ++ indent) = (a, indent) := by
  have hl : ∀ c, a.getLast? = some c → ¬ isIndent c := by
    intro c hc
    rcases ha with rfl | ha
    · cases hc
    · rw [ha] at hc
      cases hc
      decide
  obtain ⟨h₁, h₂⟩ := dropEndWhile_append hi hl
  unfold splitIndent
  rw [h₁, h₂]
  cases a with
  | nil => rfl
  | cons c cs =>
    rcases ha with h | ha
    · cases h
    · simp only [if_pos ha]

end Text

namespace Excerpt

open Text

variable {tag : Tag} {t : Text}

theorem find?_eq_none (h : ¬ tag.beginMarker <:+: t) : find? tag t = none := by
  rw [find?, splitFirst?_eq_none_iff.2 h]

/-- The stretch from a begin marker to an end marker is found if no begin marker stands above it
and no end marker in it. -/
theorem find?_append {a indent inner : Text} (ha : Terminated a) (hi : IsIndentation indent)
    (hb : ¬ tag.beginMarker <:+: a) (he : ¬ tag.endMarker <:+: inner) (b : Text) :
    find? tag (a ++ (indent ++ (tag.beginMarker ++ (inner ++ (tag.endMarker ++ b))))) =
      some ⟨a, indent ++ tag.beginMarker ++ inner ++ tag.endMarker, b⟩ := by
  have h₁ := splitFirst?_text (.opening tag) (not_infix_append_indentation (m := .opening tag) ha hi hb)
  have h₂ := splitFirst?_text (.closing tag) he b
  simp only [Marker.text] at h₁ h₂
  rw [find?, ← List.append_assoc, h₁]
  simp only [h₂, splitIndent_append_indentation ha hi]

/-- The stretch is cut out at the ends of lines: above it are the lines `ls`, below it the lines
`ms`, and it starts with the indentation. -/
structure Spans (e : Excerpt) (ls : List Text) (indent : Text) (ms : List Text) : Prop where
  /-- Above the stretch a line ends. -/
  before : Terminated e.before
  /-- Below the stretch a line starts. -/
  after : Detached e.after
  /-- The lines above. -/
  above : solidLines e.before = ls
  /-- The lines below. -/
  below : solidLines e.after = ms
  /-- The indentation of the stretch. -/
  indent : indentOf e.text = indent

/-- What is found in lines whose first begin marker, and the first end marker below it, are alone
on their lines. -/
theorem exists_find?_eq {ls inner ms : List Text} {indent indent' : Text}
    (ht : solidLines t = ls ++ (indent ++ tag.beginMarker) :: (inner ++ (indent' ++ tag.endMarker) :: ms))
    (hi : IsIndentation indent) (hi' : IsIndentation indent')
    (hb : ∀ l ∈ ls, ¬ tag.beginMarker <:+: l) (he : ∀ l ∈ inner, ¬ tag.endMarker <:+: l) :
    ∃ e, find? tag t = some e ∧ e.Spans ls indent ms := by
  obtain ⟨a, b, rfl, ha, -, hs, hs'⟩ := exists_of_solidLines_eq ht
  obtain ⟨a', b', rfl, ha', hd, hs'', hms⟩ := exists_of_solidLines_eq hs'
  have hb' : ¬ (Marker.opening tag).text <:+: a := by
    rw [Marker.infix_iff_solidLines, hs]
    exact fun ⟨l, hl, h⟩ => hb l hl h
  have he' : ¬ (Marker.closing tag).text <:+: a' := by
    rw [Marker.infix_iff_solidLines, hs'']
    exact fun ⟨l, hl, h⟩ => he l hl h
  have h := find?_append ha hi hb' (not_infix_append_indentation ha' hi' he') b'
  refine ⟨⟨a, _, b'⟩, by simpa only [List.append_assoc] using h, ha, hd, hs, hms, ?_⟩
  obtain ⟨u, hu, -⟩ := Marker.exists_text_eq (.opening tag)
  simp only [Marker.text] at hu
  simp only [hu, List.cons_append, indentOf, hi.takeWhile_append]

end Excerpt
end Marginalia
