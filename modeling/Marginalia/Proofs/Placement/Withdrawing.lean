/-
# Batches taken out again

A batch of blocks of one tag is put into a text that holds no begin marker of
the tag, and the blocks of the tag are removed. What is left is the text as it
was, with its blank runs folded (`removeAll_insertAll`), but for two things: a
block that was put below a last line without a newline leaves the newline
behind, and blocks at the top leave one blank line below the leading directives.

Key definition: `Placement.remainder`.
Key theorems: `Placement.exists_rows_render`, `Placement.removeAll_interleave`,
`Placement.removeAll_insertAll`.
-/
import Marginalia.Proofs.Placement.Interleaving
import Marginalia.Proofs.Placement.Patching

namespace Marginalia

namespace Text

/-- The lines of a text made of whole lines are its rows without carriage returns at their ends. -/
theorem lines_of_terminated {t : Text} (h : Terminated t) : lines t = (rows t).map dropReturn := by
  induction t using lineRec with
  | nil => rfl
  | last r hr h0 => exact absurd h (not_terminated hr h0)
  | line r t hr ih => rw [lines_line hr, rows_line hr, ih (terminated_line_iff.1 h), List.map_cons]

/-- A marker that stands in a row stands in the text. -/
theorem not_holdsMarker_of_mem {t l : Text} (h : ∀ m : Marker, ¬ m.text <:+: t) (hl : l ∈ rows t) :
    ¬ HoldsMarker l := by
  rintro ⟨m, hm⟩
  by_cases h0 : l = []
  · exact not_holdsMarker_nil ⟨m, h0 ▸ hm⟩
  · exact h m (m.infix_iff_solidLines.2 ⟨l, List.mem_filter.2 ⟨hl, decide_eq_true h0⟩, hm⟩)

theorem not_holdsMarker_dropReturn {l : Text} (h : ¬ HoldsMarker l) : ¬ HoldsMarker (dropReturn l) :=
  fun ⟨m, hm⟩ => h ⟨m, hm.trans (dropReturn_isPrefix l).isInfix⟩

end Text

namespace Placement

open Text Block

/-! ### The lines of blocks -/

section

variable {tag : Tag} {indent : Text} {b : Block}

/-- The lines of a written block, with and without carriage returns at their ends. -/
theorem exists_rows_render (h0 : b.lines ≠ []) (h : ∀ l ∈ b.lines, ¬ HoldsMarker (commentLine l)) :
    ∃ inner, (∀ l ∈ inner, ¬ HoldsMarker l) ∧ rows b.render = b.tag.beginMarker :: (inner ++ [b.tag.endMarker]) ∧
      Text.lines b.render = b.tag.beginMarker :: (inner.map dropReturn ++ [b.tag.endMarker]) := by
  have hb : '\n' ∉ b.tag.beginMarker := Marker.newline_not_mem_text (.opening b.tag)
  have he : '\n' ∉ b.tag.endMarker := Marker.newline_not_mem_text (.closing b.tag)
  have he0 : b.tag.endMarker ≠ [] := Marker.text_ne_nil (.closing b.tag)
  have hr : b.tag.beginMarker.getLast? ≠ some '\r' := by cases b.tag <;> decide
  have hj := render_eq h0
  have ht := terminated_paragraph b.commentLines
  refine ⟨rows (paragraph b.commentLines), fun l hl => not_holdsMarker_of_mem (fun m hm => ?_) hl, ?_, ?_⟩
  · obtain ⟨l', hl', hm⟩ := (infix_paragraph_iff m.newline_not_mem_text m.text_ne_nil).1 hm
    obtain ⟨l, hl, rfl⟩ := List.mem_map.1 hl'
    exact h l hl ⟨m, hm⟩
  · rw [hj, rows_line hb, rows_append ht, rows_of_not_mem he he0]
  · have hend : Text.lines b.tag.endMarker = [b.tag.endMarker] := by
      rw [Text.lines, rawLines_of_not_mem he he0, List.map_singleton, dropLineEnd_of_not_mem he]
    rw [hj, lines_line hb, dropReturn_of_getLast? hr, ← lines_of_terminated ht, Text.lines, rawLines_append ht,
      List.map_append, ← Text.lines, ← Text.lines, hend]

/-- The lines of a block at its place are those of a block. -/
theorem enclosed_rows_indented (hi : IsIndentation indent) (h0 : b.lines ≠ [])
    (h : ∀ l ∈ b.lines, ¬ HoldsMarker (commentLine l)) : Enclosed b.tag (rows (indented indent b.render)) := by
  refine ⟨?_, fun l hl => not_mem_of_mem_rows hl⟩
  obtain ⟨inner, hm, hrows, hlines⟩ := exists_rows_render h0 h
  unfold indented
  split
  · exact ⟨[], inner, [], .nil, .nil, hm, hrows⟩
  · have hc : ¬ Terminated b.render := (isComment_render b (render_eq_nil_iff.not.2 h0)).2
    have he0 : b.tag.endMarker ≠ [] := Marker.text_ne_nil (.closing b.tag)
    refine ⟨indent, (inner.map dropReturn).map (indentLine indent), indent, hi, hi, fun l' hl' => ?_, ?_⟩
    · obtain ⟨l, hl, rfl⟩ := List.mem_map.1 hl'
      obtain ⟨u, hu, rfl⟩ := List.mem_map.1 hl
      unfold indentLine
      split
      · exact not_holdsMarker_nil
      · exact not_holdsMarker_indent hi (not_holdsMarker_dropReturn (hm u hu))
    · rw [(rows_indentWith hi hc).2, hlines, List.map_cons, List.map_append, List.map_singleton, indentLine,
        if_neg b.tag.beginMarker_ne_nil, indentLine, if_neg he0]

end

/-! ### What is put in at once, taken out again -/

section

variable {tag : Tag} {pos : Position} {g : Nat → List Text} {a t x : Text}

/-- What is put in beside a line is in the text. -/
theorem paragraph_infix_interleave {i : Nat} (hi : i < (rawLines t).length) :
    paragraph (g i) <:+: interleave pos g t := by
  induction t using lineRec generalizing g i with
  | nil => exact absurd hi (Nat.not_lt_zero i)
  | last r hr hr0 =>
    obtain rfl : i = 0 := by simpa [rawLines_of_not_mem hr hr0] using hi
    by_cases hp : pos = .after
    · subst hp
      rw [interleave_below_last hr hr0]
      split
      · next h => rw [h]; exact List.nil_infix
      · exact ⟨r ++ ['\n'], [], by simp⟩
    · rw [interleave_above_last hp hr hr0]
      exact (List.prefix_append _ _).isInfix
  | line r t hr ih =>
    rw [rawLines_line hr, List.length_cons] at hi
    by_cases hp : pos = .after
    · subst hp
      rw [interleave_below hr]
      cases i with
      | zero => exact ⟨r ++ ['\n'], interleave .after (fun i => g (i + 1)) t, by simp⟩
      | succ i => exact (ih (g := fun i => g (i + 1)) (by omega)).trans ⟨r ++ '\n' :: paragraph (g 0), [], by simp⟩
    · rw [interleave_above hp hr]
      cases i with
      | zero => exact (List.prefix_append _ _).isInfix
      | succ i => exact (ih (g := fun i => g (i + 1)) (by omega)).trans ⟨paragraph (g 0) ++ (r ++ ['\n']), [], by simp⟩

/-- Without its blocks a text has its blank runs folded. -/
theorem removeAll_of_alike (hm : tag.beginMarker <:+: x) (hx : Alike (exciseAll tag x) t)
    (ht : ¬ tag.beginMarker <:+: t) : removeAll tag x = foldBlankRuns t := by
  have hin : isIn tag x = true := by
    by_contra hno
    rw [exciseAll_of_not_isIn hno] at hx
    have hm : (Marker.opening tag).text <:+: x := hm
    rw [Marker.infix_iff_solidLines, hx.solidLines_eq, ← Marker.infix_iff_solidLines] at hm
    exact ht hm
  rw [removeAll, if_pos hin, hx]

end

/-! ### Batches -/

/-- What is left of a text into which blocks were put, before its blank runs are folded. -/
def remainder (pos : Position) (t : Text) (order : List (Declaration × Request)) : Text :=
  match pos with
  | .top => topHead (Directive.splitHeader t).1 ++ dropNewlines (Directive.splitHeader t).2
  | .before => t
  | .after => if ¬ Terminated t ∧ ∃ x ∈ order, x.1.endLine = (rawLines t).length then t ++ ['\n'] else t

section

variable {tag : Tag} {pos : Position} {t : Text} {order : List (Declaration × Request)}

/-- The block is written for the tag, and none of its payload lines becomes one with a marker. -/
def IsRender (tag : Tag) (block : Text) : Prop :=
  ∃ b : Block, b.tag = tag ∧ b.lines ≠ [] ∧ (∀ l ∈ b.lines, ¬ HoldsMarker (commentLine l)) ∧ block = b.render

theorem IsRender.isComment {block : Text} (h : IsRender tag block) : IsComment block := by
  obtain ⟨b, -, h0, -, rfl⟩ := h
  exact isComment_render b (render_eq_nil_iff.not.2 h0)

theorem IsRender.ne_nil {block : Text} (h : IsRender tag block) : block ≠ [] := by
  rintro rfl
  cases h.isComment.1

theorem IsRender.isBlock {block : Text} (h : IsRender tag block) : IsBlock tag block := by
  have hc := h.isComment
  obtain ⟨b, rfl, h0, hm, rfl⟩ := h
  obtain ⟨inner, hin, hrows, -⟩ := exists_rows_render h0 hm
  refine ⟨inner ++ [b.tag.endMarker], ⟨⟨[], inner, [], .nil, .nil, hin, rfl⟩, ?_⟩, ?_⟩
  · rw [← hrows]
    exact fun l hl => not_mem_of_mem_rows hl
  · rw [← hrows, joinLines_rows hc.2]

theorem IsRender.enclosed {x : Declaration × Request} (h : IsRender tag x.2.block) : Enclosed tag (linesAt t x) := by
  obtain ⟨b, rfl, h0, hm, he⟩ := h
  rw [linesAt, he]
  exact enclosed_rows_indented (isIndentation_indentAt _ _) h0 hm

theorem areBlocks_linesBeside (hb : ∀ x ∈ order, IsRender tag x.2.block) (n : Nat) :
    AreBlocks tag (linesBeside pos t order n) := by
  refine ⟨_, fun b hm => ?_, List.flatMap_def⟩
  obtain ⟨x, hx, rfl⟩ := List.mem_map.1 hm
  exact (hb x (List.mem_filter.1 (List.mem_reverse.1 hx)).1).enclosed

theorem linesBeside_ne_nil_iff (hb : ∀ x ∈ order, IsRender tag x.2.block) {n : Nat} :
    linesBeside pos t order n ≠ [] ↔ ∃ x ∈ order, anchorLine pos x.1 = n := by
  constructor
  · intro h
    obtain ⟨l, hl⟩ := List.exists_mem_of_ne_nil _ h
    obtain ⟨x, hx, -⟩ := List.mem_flatMap.1 hl
    obtain ⟨hx, hn⟩ := List.mem_filter.1 (List.mem_reverse.1 hx)
    exact ⟨x, hx, of_decide_eq_true hn⟩
  · rintro ⟨x, hx, hn⟩ h
    have hm : x ∈ (order.filter fun x => anchorLine pos x.1 = n).reverse :=
      List.mem_reverse.2 (List.mem_filter.2 ⟨hx, decide_eq_true hn⟩)
    exact (hb x hx).enclosed.ne_nil (List.flatMap_eq_nil_iff.1 h x hm)

/-- Beside classes, what is left is the text and the newline that is left behind. -/
theorem remainder_eq (hp : pos ≠ .top) (hb : ∀ x ∈ order, IsRender tag x.2.block) :
    remainder pos t order = t ++ lastNewline pos (fun i => linesBeside pos t order (i + 1)) t := by
  cases pos with
  | top => exact absurd rfl hp
  | before => simp [remainder, lastNewline]
  | after =>
    let g (i : Nat) : List Text := linesBeside .after t order (i + 1)
    have hiff : (¬ Terminated t ∧ ∃ x ∈ order, x.1.endLine = (rawLines t).length) ↔
        (Position.after = .after ∧ ¬ Terminated t ∧ g ((rawLines t).length - 1) ≠ []) := by
      have hlen (h : ¬ Terminated t) : (rawLines t).length - 1 + 1 = (rawLines t).length :=
        Nat.sub_add_cancel (List.length_pos_iff.2 fun h' => h (.inl (rawLines_eq_nil_iff.1 h')))
      constructor
      · rintro ⟨h, hx⟩
        exact ⟨rfl, h, (linesBeside_ne_nil_iff hb).2 (by rwa [hlen h])⟩
      · rintro ⟨-, h, hg⟩
        have hx := (linesBeside_ne_nil_iff hb).1 hg
        rw [hlen h] at hx
        exact ⟨h, hx⟩
    simp only [remainder, lastNewline, hiff]
    split
    · rfl
    · rw [List.append_nil]

/-- A block beside a class puts a begin marker into the text. -/
theorem beginMarker_infix_interleave (hb : ∀ x ∈ order, IsRender tag x.2.block) {x : Declaration × Request}
    (hx : x ∈ order) (h : 1 ≤ anchorLine pos x.1 ∧ anchorLine pos x.1 ≤ (rawLines t).length) :
    tag.beginMarker <:+: interleave pos (fun i => linesBeside pos t order (i + 1)) t := by
  have hi : anchorLine pos x.1 - 1 < (rawLines t).length := by omega
  refine List.IsInfix.trans ?_ (paragraph_infix_interleave hi)
  obtain ⟨l, hl, hm⟩ := (hb x hx).enclosed.exists_begin
  refine (infix_paragraph_iff (Marker.newline_not_mem_text (.opening tag)) tag.beginMarker_ne_nil).2 ⟨l, ?_, hm⟩
  refine List.mem_flatMap.2 ⟨x, List.mem_reverse.2 (List.mem_filter.2 ⟨hx, decide_eq_true ?_⟩), hl⟩
  exact (Nat.sub_add_cancel h.1).symm

/-- Blocks beside classes are taken out. -/
theorem removeAll_interleave (hp : pos ≠ .top) (ht : ¬ tag.beginMarker <:+: t)
    (hb : ∀ x ∈ order, IsRender tag x.2.block) (h0 : order ≠ [])
    (hd : ∀ x ∈ order, 1 ≤ x.1.line ∧ x.1.endLine ≤ (rawLines t).length ∧ (rows t).getD (x.1.line - 1) [] ≠ []) :
    removeAll tag (interleave pos (fun i => linesBeside pos t order (i + 1)) t) =
      foldBlankRuns (remainder pos t order) := by
  let g (i : Nat) : List Text := linesBeside pos t order (i + 1)
  have hkeyword : ∀ i, g i ≠ [] → pos ≠ .after → (rows t).getD i [] ≠ [] := fun i hi ha => by
    obtain ⟨x, hx, hn⟩ := (linesBeside_ne_nil_iff hb).1 hi
    have hline := (hd x hx).2.2
    cases pos with
    | top => exact absurd rfl hp
    | before => rwa [show x.1.line = i + 1 from hn, Nat.add_sub_cancel] at hline
    | after => exact absurd rfl ha
  have hmarker : tag.beginMarker <:+: interleave pos g t := by
    obtain ⟨x, hx⟩ := List.exists_mem_of_ne_nil _ h0
    obtain ⟨hl, he, -⟩ := hd x hx
    obtain ⟨hle, hlt⟩ := anchorLine_bounds pos ⟨hl, he⟩
    exact beginMarker_infix_interleave hb hx ⟨Nat.le_trans hl hle, hlt⟩
  rw [remainder_eq hp hb]
  refine removeAll_of_alike hmarker ?_ ?_
  · exact exciseAll_interleave (fun i => areBlocks_linesBeside hb (i + 1)) hkeyword ht
  · have hm : ¬ (Marker.opening tag).text <:+: t := ht
    rwa [Marker.infix_iff_solidLines, ← solidLines_append_lastNewline g, ← Marker.infix_iff_solidLines] at hm

/-- Blocks at the top are taken out. -/
theorem removeAll_foldl_atTop {bs : List Text} (ht : ¬ tag.beginMarker <:+: t) (hb : ∀ b ∈ bs, IsBlock tag b)
    (h0 : bs ≠ []) : removeAll tag (bs.foldl atTop t) = foldBlankRuns (remainder .top t order) := by
  obtain ⟨hs, c, hh, hc, hhead, hrest, hsolid, -, hfold⟩ := exists_foldl_atTop_eq t
  have hm : ¬ (Marker.opening tag).text <:+: headed hs ++ c := by
    rwa [Marker.infix_iff_solidLines, hsolid, ← Marker.infix_iff_solidLines]
  have hb' : ∀ b ∈ bs.reverse, IsBlock tag b := fun b h => hb b (List.mem_reverse.1 h)
  rw [remainder, ← hhead, ← hrest, hfold (fun b h => (hb b h).opens) h0]
  refine removeAll_of_alike ?_ (by rw [exciseAll_stack hh hb' hc hm]; exact Alike.refl _) hm
  obtain ⟨b, bs', hbs⟩ := List.exists_cons_of_ne_nil (List.reverse_ne_nil_iff.2 h0)
  obtain ⟨u, hu⟩ := (hb' b (by simp [hbs])).exists_stackOn_eq (stack bs' c)
  rw [hbs, stack, List.foldr_cons, ← stack, hu]
  exact ⟨headed hs, '\n' :: u, by simp⟩

/-- **A batch of blocks of one tag that is put in and taken out leaves the text**, which holds no begin marker
of the tag, with its blank runs folded. Blocks below a last line without a newline leave a newline there, and
blocks at the top one blank line between the leading directives and the rest of the text. -/
theorem removeAll_insertAll (pos : Position) {index : Index} {rs : List Request} (ht : ¬ tag.beginMarker <:+: t)
    (hd : ∀ d ∈ index.classes, 1 ≤ d.line ∧ d.endLine ≤ (rawLines t).length ∧ (rows t).getD (d.line - 1) [] ≠ [])
    (hb : ∀ r ∈ rs, IsRender tag r.block) (hr : ∃ r ∈ rs, (index.resolve? r.name).isSome) :
    removeAll tag (insertAll pos index t rs).text = foldBlankRuns (remainder pos t (resolved index rs)) := by
  have hm {x : Declaration × Request} (hx : x ∈ resolved index rs) : x.1 ∈ index.classes ∧ x.2 ∈ rs := mem_resolved hx
  have h0 : resolved index rs ≠ [] := by
    obtain ⟨r, hr, hs⟩ := hr
    obtain ⟨d, hd⟩ := Option.isSome_iff_exists.1 hs
    exact List.ne_nil_of_mem (List.mem_filterMap.2 ⟨r, hr, by rw [hd]; rfl⟩)
  by_cases hp : pos = .top
  · subst hp
    have hm' {x : Declaration × Request} (hx : x ∈ bottomUp .top (resolved index rs)) : IsRender tag x.2.block :=
      hb x.2 (hm (List.mem_mergeSort.1 hx)).2
    rw [insertAll, placeAll_top fun x hx => (hm' hx).ne_nil]
    refine removeAll_foldl_atTop ht (fun b hb => ?_) fun h => h0 ?_
    · obtain ⟨x, hx, rfl⟩ := List.mem_map.1 hb
      exact (hm' hx).isBlock
    · rw [List.map_eq_nil_iff] at h
      exact List.Perm.nil_eq (h ▸ List.mergeSort_perm _ _) |>.symm
  · rw [text_insertAll hp (fun d h => ⟨(hd d h).1, (hd d h).2.1⟩) fun r hr => .inr (hb r hr).isComment]
    exact removeAll_interleave hp ht (fun x hx => hb x.2 (hm hx).2) h0 fun x hx => hd x.1 (hm hx).1

/-- A class in another one, with blank runs and without a newline at the end. -/
def gappedClasses : Text := "class Shop\n\n\n\n  class Item\n  end\n\n\nend".toList

/-- Requests for both classes. -/
def gappedRequests : List Request :=
  ["Shop", "Item", "Shop"].map fun name => { name := name, block := (Block.mk .schema ["id".toList, []]).render }

theorem removeAll_insertAll_classes :
    let index := Index.ofSource gappedClasses
    ¬ Tag.schema.beginMarker <:+: gappedClasses ∧
      (∀ d ∈ index.classes, 1 ≤ d.line ∧ d.endLine ≤ (rawLines gappedClasses).length ∧
        (rows gappedClasses).getD (d.line - 1) [] ≠ []) ∧
      (∀ r ∈ gappedRequests, IsRender .schema r.block) ∧ (∃ r ∈ gappedRequests, (index.resolve? r.name).isSome) ∧
      removeAll .schema (insertAll .after index gappedClasses gappedRequests).text =
        "class Shop\n\n  class Item\n  end\n\nend\n".toList := by
  intro index
  have ht : ¬ Tag.schema.beginMarker <:+: gappedClasses := by decide
  have hd : ∀ d ∈ index.classes, 1 ≤ d.line ∧ d.endLine ≤ (rawLines gappedClasses).length ∧
      (rows gappedClasses).getD (d.line - 1) [] ≠ [] := by decide
  have hb : ∀ r ∈ gappedRequests, IsRender .schema r.block := fun r hm => by
    obtain ⟨name, -, rfl⟩ := List.mem_map.1 hm
    exact ⟨Block.mk .schema ["id".toList, []], rfl, by decide, by decide, rfl⟩
  have hr : ∃ r ∈ gappedRequests, (index.resolve? r.name).isSome := by decide
  exact ⟨ht, hd, hb, hr, (removeAll_insertAll .after ht hd hb hr).trans (by decide)⟩

end
end Placement
end Marginalia
