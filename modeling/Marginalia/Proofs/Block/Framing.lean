/-
# The lines of written blocks

A written block is a frame: a begin and an end marker with comment lines
between them, all with one indentation. `Block.render` writes a frame without
indentation, and `Block.indentWith` indents a frame; what it takes away are the
carriage returns at the ends of the comment lines. A frame makes up a part of a
text.

Key definitions: `Text.paragraph`, `Block.CommentLines`, `Block.framed`, `Block.frame`.
Key theorems: `Text.rows_paragraph_append`, `Text.lines_joinLines`, `Block.render_eq_frame`,
`Block.indentWith_frame`, `Block.hasParts_frame`.
-/
import Marginalia.Block.Rewrite
import Marginalia.Proofs.Block.Marking
import Marginalia.Proofs.Text.Code

namespace Marginalia
namespace Text

/-- The text of lines, each of which is ended by a newline. -/
def paragraph (ls : List Text) : Text := ls.flatMap (· ++ ['\n'])

@[simp] theorem paragraph_nil : paragraph [] = [] := rfl

theorem paragraph_cons (l : Text) (ls : List Text) : paragraph (l :: ls) = l ++ '\n' :: paragraph ls := by
  simp [paragraph]

theorem paragraph_append (ls ms : List Text) : paragraph (ls ++ ms) = paragraph ls ++ paragraph ms := by
  simp [paragraph]

theorem terminated_paragraph : ∀ ls : List Text, Terminated (paragraph ls)
  | [] => terminated_nil
  | l :: ls => by rw [paragraph_cons, terminated_line_iff]; exact terminated_paragraph ls

/-- A word stands in lines, each of which is ended by a newline, if it stands in one of them. -/
theorem infix_paragraph_iff {word : Text} (hw : '\n' ∉ word) (h0 : word ≠ []) {ls : List Text} :
    word <:+: paragraph ls ↔ ∃ l ∈ ls, word <:+: l := by
  induction ls with
  | nil => simp [h0]
  | cons l ls ih => rw [paragraph_cons, infix_append_newline hw, ih, List.exists_mem_cons_iff]

theorem joinLines_cons_cons (l m : Text) (ls : List Text) :
    joinLines (l :: m :: ls) = l ++ '\n' :: joinLines (m :: ls) := by
  simp [joinLines, List.intercalate_cons_cons]

theorem joinLines_append_newline : ∀ {ls : List Text}, ls ≠ [] → joinLines ls ++ ['\n'] = paragraph ls
  | [], h => absurd rfl h
  | [l], _ => by simp [joinLines, paragraph]
  | l :: m :: ls, _ => by
    rw [joinLines_cons_cons, List.append_assoc, List.cons_append, joinLines_append_newline (by simp),
      paragraph_cons l]

theorem rows_paragraph_append {ls : List Text} (h : ∀ l ∈ ls, '\n' ∉ l) (t : Text) :
    rows (paragraph ls ++ t) = ls ++ rows t := by
  induction ls with
  | nil => rfl
  | cons l ls ih =>
    rw [List.forall_mem_cons] at h
    rw [paragraph_cons, List.append_assoc, List.cons_append, rows_line h.1, ih h.2, List.cons_append]

/-- Lines that are ended by newlines are read back. -/
theorem rows_paragraph {ls : List Text} (h : ∀ l ∈ ls, '\n' ∉ l) : rows (paragraph ls) = ls := by
  have hr := rows_paragraph_append h []
  rw [List.append_nil] at hr
  rw [hr]
  exact List.append_nil ls

theorem solidLines_paragraph {ls : List Text} (h : ∀ l ∈ ls, '\n' ∉ l) :
    solidLines (paragraph ls) = ls.filter (· ≠ []) := by
  rw [solidLines, rows_paragraph h]

theorem solidLines_paragraph_of_ne_nil {ls : List Text} (h : ∀ l ∈ ls, '\n' ∉ l) (h0 : ∀ l ∈ ls, l ≠ []) :
    solidLines (paragraph ls) = ls := by
  rw [solidLines_paragraph h]
  exact List.filter_eq_self.2 fun l hl => decide_eq_true (h0 l hl)

theorem solidLines_joinLines {ls : List Text} (h : ∀ l ∈ ls, '\n' ∉ l) :
    solidLines (joinLines ls) = ls.filter (· ≠ []) := by
  by_cases hl : ls = []
  · subst hl; rfl
  · rw [← solidLines_append_newlines (t := ['\n']) _ (by simp), joinLines_append_newline hl, solidLines_paragraph h]

theorem joinLines_rows {t : Text} (h : ¬ Terminated t) : joinLines (rows t) = t := by
  have h0 : rows t ≠ [] := by
    intro h0
    rw [rows, List.map_eq_nil_iff, rawLines_eq_nil_iff] at h0
    exact h (.inl h0)
  refine List.append_cancel_right (?_ : _ ++ ['\n'] = _ ++ ['\n'])
  rw [joinLines_append_newline h0]
  clear h0
  induction t using lineRec with
  | nil => exact absurd terminated_nil h
  | last r hr h0 => rw [rows_of_not_mem hr h0, paragraph_cons, paragraph_nil]
  | line r t hr ih =>
    rw [rows_line hr, paragraph_cons, ih fun ht => h (terminated_line_iff.2 ht), List.append_assoc, List.cons_append]

/-- Joined lines are read back if they end on one that is not empty. -/
theorem rows_joinLines {ls : List Text} {last : Text} (h : ∀ l ∈ ls, '\n' ∉ l) (hl : '\n' ∉ last) (h0 : last ≠ []) :
    ¬ Terminated (joinLines (ls ++ [last])) ∧ rows (joinLines (ls ++ [last])) = ls ++ [last] := by
  have he : joinLines (ls ++ [last]) = paragraph ls ++ last := by
    refine List.append_cancel_right (?_ : _ ++ ['\n'] = _ ++ ['\n'])
    rw [joinLines_append_newline (by simp), paragraph_append, paragraph_cons, paragraph_nil, List.append_assoc]
  rw [he, terminated_append_iff h0]
  exact ⟨not_terminated hl h0, by rw [rows_paragraph_append h, rows_of_not_mem hl h0]⟩

/-! ### Carriage returns -/

/-- The line without a carriage return at its end. -/
def dropReturn (l : Text) : Text := dropLineEnd (l ++ ['\n'])

theorem dropReturn_eq (l : Text) : dropReturn l = l ∨ dropReturn l ++ ['\r'] = l := by
  rcases List.eq_nil_or_concat l with rfl | ⟨l, c, rfl⟩
  · exact .inl rfl
  · by_cases hc : c = '\r'
    · subst hc; exact .inr (by simp [dropReturn, dropLineEnd])
    · refine .inl ?_
      simp only [dropReturn, dropLineEnd, List.concat_eq_append, List.reverse_append,
        List.reverse_cons, List.reverse_nil, List.nil_append, List.cons_append]
      split
      · next h => cases h; exact absurd rfl hc
      · next h => cases h; simp
      · next h => exact absurd rfl (h _)

theorem dropReturn_of_getLast? {l : Text} (h : l.getLast? ≠ some '\r') : dropReturn l = l := by
  rcases dropReturn_eq l with h' | h'
  · exact h'
  · exact absurd (h' ▸ by simp) h

/-- A comment sign at the start of a line stays there. -/
theorem head?_dropReturn {l : Text} (h : l.head? = some '#') : (dropReturn l).head? = some '#' := by
  obtain ⟨u, rfl⟩ := List.head?_eq_some_iff.1 h
  rcases dropReturn_eq ('#' :: u) with h' | h'
  · rw [h', List.head?_cons]
  · cases hd : dropReturn ('#' :: u) with
    | nil => rw [hd] at h'; cases h'
    | cons c v =>
      rw [hd, List.cons_append, List.cons.injEq] at h'
      rw [h'.1, List.head?_cons]

theorem dropReturn_isPrefix (l : Text) : dropReturn l <+: l := by
  rcases dropReturn_eq l with h | h
  · rw [h]
  · exact ⟨_, h⟩

theorem dropLineEnd_of_not_mem {l : Text} (h : '\n' ∉ l) : dropLineEnd l = l := by
  unfold dropLineEnd
  split
  · next h' => exact absurd (List.mem_reverse.1 (h' ▸ List.mem_cons_self)) h
  · next h' => exact absurd (List.mem_reverse.1 (h' ▸ List.mem_cons_self)) h
  · rfl

theorem lines_line {r : Text} (h : '\n' ∉ r) (t : Text) :
    lines (r ++ '\n' :: t) = dropReturn r :: lines t := by
  simp only [lines, rawLines_line h, List.map_cons, dropReturn]

/-- The lines are the rows, but for carriage returns at their ends. -/
theorem lines_eq_rows {t : Text} (h : '\r' ∉ t) : lines t = rows t := by
  induction t using lineRec with
  | nil => rfl
  | last r hr h0 =>
    rw [lines, rawLines_of_not_mem hr h0, rows_of_not_mem hr h0, List.map_singleton, dropLineEnd_of_not_mem hr]
  | line r t hr ih =>
    rw [List.mem_append, List.mem_cons, not_or, not_or] at h
    rw [lines_line hr, rows_line hr, ih h.2.2, dropReturn_of_getLast? fun hl => h.1 (List.mem_of_getLast? hl)]

/-- Joined lines are read back, but for the carriage returns in front of newlines. -/
theorem lines_joinLines {last : Text} (h' : '\n' ∉ last) (h0 : last ≠ []) :
    ∀ {ls : List Text}, (∀ l ∈ ls, '\n' ∉ l) →
      lines (joinLines (ls ++ [last])) = ls.map dropReturn ++ [last]
  | [], _ => by
    simp [joinLines, lines, rawLines_of_not_mem h' h0, dropLineEnd_of_not_mem h']
  | l :: ls, h => by
    rw [List.forall_mem_cons] at h
    have ih := lines_joinLines h' h0 h.2
    cases ls with
    | nil =>
      rw [List.nil_append] at ih
      simp only [List.cons_append, List.nil_append, joinLines_cons_cons, lines_line h.1, ih,
        List.map_cons, List.map_nil]
    | cons m ls =>
      rw [List.cons_append] at ih
      simp only [List.cons_append, joinLines_cons_cons, lines_line h.1, ih, List.map_cons]

theorem subset_of_mem_lines {t l : Text} (h : l ∈ lines t) : l ⊆ t := by
  induction t using lineRec with
  | nil => cases h
  | last r hr h0 =>
    rw [lines, rawLines_of_not_mem hr h0, List.map_singleton, List.mem_singleton,
      dropLineEnd_of_not_mem hr] at h
    rw [h]
    exact List.Subset.refl r
  | line r t hr ih =>
    rw [lines_line hr, List.mem_cons] at h
    rcases h with rfl | h
    · exact List.Subset.trans (dropReturn_isPrefix r).subset (List.subset_append_left _ _)
    · exact List.Subset.trans (ih h) fun c hc => List.mem_append_right _ (List.mem_cons_of_mem _ hc)

/-- The lines of a text hold no newline. -/
theorem not_mem_of_mem_lines {t l : Text} (h : l ∈ lines t) : '\n' ∉ l := by
  induction t using lineRec with
  | nil => cases h
  | last r hr h0 =>
    rw [lines, rawLines_of_not_mem hr h0, List.map_singleton, List.mem_singleton,
      dropLineEnd_of_not_mem hr] at h
    rwa [h]
  | line r t hr ih =>
    rw [lines_line hr, List.mem_cons] at h
    rcases h with rfl | h
    · exact fun hm => hr ((dropReturn_isPrefix r).subset hm)
    · exact ih h

end Text

namespace Block

open Text

/-- Comment lines without markers, as they stand in blocks. -/
def CommentLines (ls : List Text) : Prop := ∀ l ∈ ls, l.head? = some '#' ∧ '\n' ∉ l ∧ ¬ HoldsMarker l

/-- The lines of a block between its markers, all with one indentation. -/
def framed (tag : Tag) (indent : Text) (ls : List Text) : List Text :=
  (indent ++ tag.beginMarker) :: (ls.map (indent ++ ·) ++ [indent ++ tag.endMarker])

/-- The text of a block, without a final newline. -/
def frame (tag : Tag) (indent : Text) (ls : List Text) : Text := joinLines (framed tag indent ls)

theorem CommentLines.dropReturn {ls : List Text} (h : CommentLines ls) :
    CommentLines (ls.map Text.dropReturn) := by
  intro l' hl'
  obtain ⟨l, hl, rfl⟩ := List.mem_map.1 hl'
  obtain ⟨hs, hn, hm⟩ := h l hl
  exact ⟨head?_dropReturn hs, fun hm => hn ((dropReturn_isPrefix l).subset hm), fun ⟨m, h⟩ =>
    hm ⟨m, h.trans (dropReturn_isPrefix l).isInfix⟩⟩

theorem map_dropReturn_of_getLast? {ls : List Text} (h : ∀ l ∈ ls, l.getLast? ≠ some '\r') :
    ls.map Text.dropReturn = ls := by
  induction ls with
  | nil => rfl
  | cons l ls ih =>
    rw [List.forall_mem_cons] at h
    rw [List.map_cons, dropReturn_of_getLast? h.1, ih h.2]

section

variable {tag : Tag} {indent : Text} {ls : List Text}

theorem framed_ne_nil : framed tag indent ls ≠ [] := by simp [framed]

theorem frame_append_newline (t : Text) :
    frame tag indent ls ++ '\n' :: t = paragraph (framed tag indent ls) ++ t := by
  rw [← joinLines_append_newline framed_ne_nil]
  simp [frame]

/-- The text of a block from marker to marker. -/
theorem frame_eq : frame tag indent ls = indent ++ (tag.beginMarker ++ ('\n' ::
    (paragraph (ls.map (indent ++ ·)) ++ (indent ++ tag.endMarker)))) := by
  refine List.append_cancel_right (?_ : _ ++ ['\n'] = _ ++ ['\n'])
  rw [frame_append_newline, framed, paragraph_cons, paragraph_append, paragraph_cons]
  simp

/-- The lines of a block are one-line texts with a comment sign each. -/
theorem exists_of_mem_framed (hi : IsIndentation indent) (h : CommentLines ls) {l : Text}
    (hl : l ∈ framed tag indent ls) : ∃ u, l = indent ++ '#' :: u ∧ '\n' ∉ l := by
  have hm : ∀ m : Marker, ∃ u, indent ++ m.text = indent ++ '#' :: u ∧ '\n' ∉ indent ++ m.text := by
    intro m
    obtain ⟨u, hu, -, hn⟩ := m.exists_text_eq
    exact ⟨u, by rw [hu], by simp [hi.newline_not_mem, hn]⟩
  simp only [framed, List.mem_cons, List.mem_append, List.mem_map, List.not_mem_nil, or_false] at hl
  rcases hl with rfl | ⟨l, hl, rfl⟩ | rfl
  · exact hm (.opening tag)
  · obtain ⟨hs, hn, -⟩ := h l hl
    obtain ⟨u, rfl⟩ := List.head?_eq_some_iff.1 hs
    exact ⟨u, rfl, by simpa [hi.newline_not_mem] using hn⟩
  · exact hm (.closing tag)

/-- The lines of a block are no code. -/
theorem isNote_of_mem_framed (hi : IsIndentation indent) (h : CommentLines ls) :
    ∀ l ∈ framed tag indent ls, isNote l = true := by
  intro l hl
  obtain ⟨u, rfl, -⟩ := exists_of_mem_framed hi h hl
  exact isNote_comment hi u

theorem filter_framed (hi : IsIndentation indent) (h : CommentLines ls) :
    (framed tag indent ls).filter (!isNote ·) = [] :=
  List.filter_eq_nil_iff.2 fun l hl => by simp [isNote_of_mem_framed hi h l hl]

theorem newline_not_mem_framed (hi : IsIndentation indent) (h : CommentLines ls) :
    ∀ l ∈ framed tag indent ls, '\n' ∉ l := by
  intro l hl
  obtain ⟨_, -, hn⟩ := exists_of_mem_framed hi h hl
  exact hn

theorem ne_nil_of_mem_framed (hi : IsIndentation indent) (h : CommentLines ls) :
    ∀ l ∈ framed tag indent ls, l ≠ [] := by
  intro l hl
  obtain ⟨u, rfl, -⟩ := exists_of_mem_framed hi h hl
  simp

theorem solidLines_frame (hi : IsIndentation indent) (h : CommentLines ls) :
    solidLines (frame tag indent ls) = framed tag indent ls := by
  rw [frame, solidLines_joinLines (newline_not_mem_framed hi h)]
  exact List.filter_eq_self.2 fun l hl => decide_eq_true (ne_nil_of_mem_framed hi h l hl)

theorem rows_frame (hi : IsIndentation indent) (h : CommentLines ls) :
    rows (frame tag indent ls) = framed tag indent ls := by
  have hn : ∀ l ∈ framed tag indent ls, '\n' ∉ l := newline_not_mem_framed hi h
  have h0 : ∀ l ∈ framed tag indent ls, l ≠ [] := ne_nil_of_mem_framed hi h
  rw [framed, List.forall_mem_cons, List.forall_mem_append, List.forall_mem_singleton] at hn h0
  rw [frame, framed, ← List.cons_append]
  exact (rows_joinLines (List.forall_mem_cons.2 ⟨hn.1, hn.2.1⟩) hn.2.2 h0.2.2).2

/-- Indentation in front of a line brings no marker into it. -/
theorem not_holdsMarker_indent (hi : IsIndentation indent) {l : Text} (h : ¬ HoldsMarker l) :
    ¬ HoldsMarker (indent ++ l) := by
  rintro ⟨m, hm⟩
  obtain ⟨u, hu, -⟩ := m.exists_text_eq
  rw [hu] at hm
  exact h ⟨m, hu ▸ infix_of_first_not_mem hi.sign_not_mem hm⟩

theorem valid_framed (hi : IsIndentation indent) (h : CommentLines ls) :
    (Part.block tag (framed tag indent ls)).Valid := by
  refine ⟨indent, ls.map (indent ++ ·), indent, hi, hi, fun l' hl' => ?_, rfl⟩
  obtain ⟨l, hl, rfl⟩ := List.mem_map.1 hl'
  exact not_holdsMarker_indent hi (h l hl).2.2

/-- The lines, none of which holds a newline, are those of a block of the tag: its markers are at the ends,
and there are no others. -/
def Enclosed (tag : Tag) (ls : List Text) : Prop := (Part.block tag ls).Valid ∧ ∀ l ∈ ls, '\n' ∉ l

theorem enclosed_framed (hi : IsIndentation indent) (h : CommentLines ls) : Enclosed tag (framed tag indent ls) :=
  ⟨valid_framed hi h, newline_not_mem_framed hi h⟩

theorem Enclosed.ne_nil (h : Enclosed tag ls) : ls ≠ [] := by
  obtain ⟨⟨indent, inner, indent', -, -, -, rfl⟩, -⟩ := h
  exact List.cons_ne_nil _ _

theorem Enclosed.exists_begin (h : Enclosed tag ls) : ∃ l ∈ ls, tag.beginMarker <:+: l := by
  obtain ⟨⟨indent, inner, indent', -, -, -, rfl⟩, -⟩ := h
  exact ⟨_, List.mem_cons_self, (List.suffix_append indent _).isInfix⟩

/-- A block does not start with an empty line. -/
theorem Enclosed.head_ne_nil (h : Enclosed tag ls) : ∀ l ∈ ls.head?, '\n' ∉ l ∧ l ≠ [] := by
  obtain ⟨⟨indent, inner, indent', -, -, -, rfl⟩, hn⟩ := h
  rintro l hl
  obtain rfl : indent ++ tag.beginMarker = l := Option.some.inj hl
  exact ⟨hn _ List.mem_cons_self, by simp [tag.beginMarker_ne_nil]⟩

theorem hasParts_frame (hi : IsIndentation indent) (h : CommentLines ls) :
    HasParts (frame tag indent ls) [.block tag (framed tag indent ls)] := by
  refine ⟨by simpa using valid_framed hi h, ?_⟩
  rw [solidLines_frame hi h]
  simp [Part.lines]

theorem framed_nil : framed tag [] ls = tag.beginMarker :: (ls ++ [tag.endMarker]) := by
  simp only [framed, List.nil_append, List.map_id']

theorem lines_frame (h : ∀ l ∈ ls, '\n' ∉ l) :
    Text.lines (frame tag [] ls) = tag.beginMarker :: (ls.map Text.dropReturn ++ [tag.endMarker]) := by
  have hr : tag.beginMarker.getLast? ≠ some '\r' := by cases tag <;> decide
  have hb : '\n' ∉ tag.beginMarker := Marker.newline_not_mem_text (.opening tag)
  have he : '\n' ∉ tag.endMarker := Marker.newline_not_mem_text (.closing tag)
  rw [frame, framed_nil, ← List.cons_append, lines_joinLines he (Marker.text_ne_nil (.closing tag)),
    List.map_cons, dropReturn_of_getLast? hr, List.cons_append]
  exact List.forall_mem_cons.2 ⟨hb, h⟩

/-- Indenting a block of comments is writing it with the indentation. -/
theorem indentWith_frame_of_head? (h : ∀ l ∈ ls, l.head? = some '#' ∧ '\n' ∉ l) :
    indentWith indent (frame tag [] ls) = frame tag indent (ls.map Text.dropReturn) := by
  have he : tag.endMarker ≠ [] := Marker.text_ne_nil (.closing tag)
  have hm : (ls.map Text.dropReturn).map (fun l => if l = [] then [] else indent ++ l) =
      (ls.map Text.dropReturn).map (indent ++ ·) := by
    refine List.map_congr_left fun l' hl' => if_neg ?_
    obtain ⟨l, hl, rfl⟩ := List.mem_map.1 hl'
    obtain ⟨u, hu⟩ := List.head?_eq_some_iff.1 (head?_dropReturn (h l hl).1)
    simp [hu]
  rw [indentWith, lines_frame fun l hl => (h l hl).2, List.map_cons, List.map_append, hm, List.map_singleton,
    if_neg tag.beginMarker_ne_nil, if_neg he, frame, framed]

theorem indentWith_frame (h : CommentLines ls) :
    indentWith indent (frame tag [] ls) = frame tag indent (ls.map Text.dropReturn) :=
  indentWith_frame_of_head? fun l hl => ⟨(h l hl).1, (h l hl).2.1⟩

/-- A block is indented as its begin marker is. -/
theorem indentOf_frame (hi : IsIndentation indent) : indentOf (frame tag indent ls) = indent := by
  obtain ⟨u, hu, -, -⟩ := (Marker.opening tag).exists_text_eq
  have hu : tag.beginMarker = '#' :: u := hu
  rw [frame_eq, hu, indentOf, List.cons_append, hi.takeWhile_append]

theorem frame_ne_nil : frame tag indent ls ≠ [] := by
  intro h
  have := congrArg List.length (@frame_append_newline tag indent ls [])
  rw [h, framed, paragraph_cons] at this
  have := List.length_pos_iff.2 tag.beginMarker_ne_nil
  simp only [List.length_append, List.length_cons, List.length_nil] at *
  omega

end

/-- The comment lines of a block. -/
def commentLines (b : Block) : List Text := b.lines.map commentLine

theorem render_eq_frame {b : Block} (h : b.lines ≠ []) : b.render = frame b.tag [] b.commentLines := by
  rw [render, if_neg h, frame, framed_nil, commentLines, List.cons_append]

/-- A payload has no lines exactly if it is blank. -/
theorem lines_ofText_eq_nil_iff {tag : Tag} {payload : Text} :
    (ofText tag payload).lines = [] ↔ payload.all isBlank := by
  rw [Block.ofText]
  split
  · next h => simp [h]
  · next h =>
    refine ⟨fun hl => absurd ?_ h, fun h' => absurd h' h⟩
    rw [Text.lines, List.map_eq_nil_iff, rawLines_eq_nil_iff] at hl
    have hwhole := dropEndWhile_append_takeEndWhile isNewline payload
    rw [← dropEndNewlines, hl, List.nil_append] at hwhole
    rw [← hwhole, List.all_eq_true]
    intro c hc
    rw [newlines_takeEndWhile payload c hc]
    rfl

theorem newline_not_mem_lines_ofText {tag : Tag} {payload l : Text}
    (h : l ∈ (ofText tag payload).lines) : '\n' ∉ l := by
  simp only [Block.ofText] at h
  split at h
  · cases h
  · exact not_mem_of_mem_lines h

theorem newline_not_mem_commentLine {l : Text} (h : '\n' ∉ l) : '\n' ∉ commentLine l := by
  unfold commentLine
  split
  · simp [Tag.commentSign]
  · simpa [Tag.commentSign] using h

/-- The text of a written block from marker to marker. -/
theorem render_eq {b : Block} (h : b.lines ≠ []) :
    b.render = b.tag.beginMarker ++ '\n' :: (paragraph b.commentLines ++ b.tag.endMarker) := by
  rw [render_eq_frame h, frame_eq]
  simp only [List.nil_append, List.map_id']

theorem head?_render {b : Block} (h : b.lines ≠ []) : b.render.head? = some '#' := by
  obtain ⟨u, hu, -⟩ := Marker.exists_text_eq (.opening b.tag)
  have hu : b.tag.beginMarker = '#' :: u := hu
  rw [render_eq h, hu]
  rfl

/-- The lines of a written block. -/
theorem rows_render {b : Block} (h : b.lines ≠ []) (hn : ∀ l ∈ b.lines, '\n' ∉ l) :
    rows b.render = b.tag.beginMarker :: (b.commentLines ++ [b.tag.endMarker]) := by
  have hb : '\n' ∉ b.tag.beginMarker := Marker.newline_not_mem_text (.opening b.tag)
  have he : '\n' ∉ b.tag.endMarker := Marker.newline_not_mem_text (.closing b.tag)
  have hc : ∀ l ∈ b.commentLines, '\n' ∉ l := List.forall_mem_map.2 fun l hl => newline_not_mem_commentLine (hn l hl)
  rw [render_eq h, rows_line hb, rows_paragraph_append hc, rows_of_not_mem he (Marker.text_ne_nil (.closing b.tag))]

theorem render_eq_nil_iff {b : Block} : b.render = [] ↔ b.lines = [] := by
  refine ⟨fun h => ?_, fun h => by rw [render, if_pos h]⟩
  by_contra h'
  rw [render_eq_frame h'] at h
  exact frame_ne_nil h

end Block
end Marginalia
