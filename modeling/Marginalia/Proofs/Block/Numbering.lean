/-
# The number of blocks

`Block.count` counts the places where a begin marker stands. As no marker holds
a newline, a text has as many of them as its solid lines have together
(`Block.count_eq_countIn`), a block has one, and a well-marked text has one for
each of its blocks (`Block.count_eq_length_blocks`). Where a block is put in at
a seam the number stays, but that it is one at least (`Block.Seam.count_eq`).

Key definition: `Block.countIn`.
Key theorems: `Text.occurrences_append_newline`, `Block.count_eq_countIn`, `Block.count_eq_length_blocks`,
`Block.Seam.count_eq`.
-/
import Marginalia.Proofs.Block.Spacing

namespace Marginalia

namespace Text

variable {word : Text}

theorem prefix_append_newline_iff (hw : '\n' ∉ word) {a b : Text} : word <+: a ++ '\n' :: b ↔ word <+: a := by
  refine ⟨fun h => ?_, fun h => h.trans (List.prefix_append a _)⟩
  rcases List.prefix_or_prefix_of_prefix h (List.prefix_append a _) with h' | ⟨u, rfl⟩
  · exact h'
  · rw [List.prefix_append_right_inj] at h
    cases u with
    | nil => rw [List.append_nil]
    | cons c u =>
      rw [List.cons_prefix_cons] at h
      exact absurd (h.1 ▸ List.mem_append_right a List.mem_cons_self) hw

/-- In two texts with a newline between them a word stands as often as in both together. -/
theorem occurrences_append_newline (hw : '\n' ∉ word) (h0 : word ≠ []) (b : Text) : ∀ a : Text,
    occurrences word (a ++ '\n' :: b) = occurrences word a + occurrences word b
  | [] => by
    have hn : after? word ('\n' :: b) = none := by
      rw [after?_eq_none_iff, ← List.nil_append ('\n' :: b), prefix_append_newline_iff hw, List.prefix_nil]
      exact h0
    simp [occurrences, hn, h0]
  | c :: a => by
    have hc : (after? word (c :: (a ++ '\n' :: b))).isSome = (after? word (c :: a)).isSome := by
      rw [Bool.eq_iff_iff, Option.isSome_iff_ne_none, Option.isSome_iff_ne_none, ne_eq, ne_eq, after?_eq_none_iff,
        after?_eq_none_iff, ← List.cons_append, prefix_append_newline_iff hw]
    rw [List.cons_append, occurrences, occurrences, hc, occurrences_append_newline hw h0 b a, Nat.add_assoc]

end Text

open Text

namespace Block

variable {tag s : Tag} {t : Text} {ls : List Text} {p : Part}

theorem count_eq_zero_iff : count tag t = 0 ↔ ¬ tag.beginMarker <:+: t := by
  obtain ⟨u, hu, -, -⟩ := (Marker.opening tag).exists_text_eq
  have hu : tag.beginMarker = '#' :: u := hu
  rw [count, hu]
  exact occurrences_eq_zero_iff

@[simp] theorem count_nil (tag : Tag) : count tag [] = 0 := count_eq_zero_iff.2 (by simp [tag.beginMarker_ne_nil])

theorem count_append_marker (a b : Text) :
    count tag (a ++ (tag.beginMarker ++ b)) = count tag a + 1 + count tag b := by
  obtain ⟨u, hu, hs, -⟩ := (Marker.opening tag).exists_text_eq
  have hu : tag.beginMarker = '#' :: u := hu
  rw [count, count, count, hu]
  exact occurrences_append hs b a

/-- A text with one begin marker has none around its block. -/
theorem not_infix_of_count_eq_one {e : Excerpt} (he : Excerpt.find? tag t = some e) (h : count tag t = 1) :
    ¬ tag.beginMarker <:+: e.before ∧ ¬ tag.beginMarker <:+: e.after := by
  obtain ⟨indent, inner, -, htext, -, -, hb, -⟩ := Excerpt.find?_eq_some_iff.1 he
  refine ⟨hb, fun ha => ?_⟩
  have hwhole : t = (e.before ++ indent) ++ (tag.beginMarker ++ (inner ++ tag.endMarker ++ e.after)) := by
    rw [← Excerpt.whole_find? he, Excerpt.whole, htext]
    simp only [List.append_assoc]
  rw [hwhole, count_append_marker] at h
  have h0 : count tag (inner ++ tag.endMarker ++ e.after) = 0 := by omega
  exact count_eq_zero_iff.1 h0 (ha.trans (List.suffix_append _ _).isInfix)

/-! ### Line by line -/

/-- The number of begin markers in the lines. -/
def countIn (tag : Tag) : List Text → Nat
  | [] => 0
  | l :: ls => count tag l + countIn tag ls

@[simp] theorem countIn_nil : countIn tag [] = 0 := rfl

@[simp] theorem countIn_cons (l : Text) (ls : List Text) : countIn tag (l :: ls) = count tag l + countIn tag ls := rfl

@[simp] theorem countIn_append (ms : List Text) : ∀ ls : List Text,
    countIn tag (ls ++ ms) = countIn tag ls + countIn tag ms
  | [] => (Nat.zero_add _).symm
  | l :: ls => by rw [List.cons_append, countIn_cons, countIn_cons, countIn_append ms ls, Nat.add_assoc]

/-- A text has the begin markers of its lines. -/
theorem count_eq_countIn (tag : Tag) (t : Text) : count tag t = countIn tag (solidLines t) := by
  induction t using lineRec with
  | nil => exact count_nil tag
  | last r hr h0 => simp [solidLines_of_not_mem hr h0]
  | line r t hr ih =>
    have hn : '\n' ∉ tag.beginMarker := Marker.newline_not_mem_text (.opening tag)
    have hadd : count tag (r ++ '\n' :: t) = count tag r + count tag t :=
      occurrences_append_newline hn tag.beginMarker_ne_nil t r
    rw [hadd, ih, solidLines_line hr, countIn_append]
    by_cases h0 : r = [] <;> simp [h0]

theorem countIn_eq_zero : ∀ {ls : List Text}, (∀ l ∈ ls, ¬ HoldsMarker l) → countIn tag ls = 0
  | [], _ => rfl
  | l :: ls, h => by
    rw [List.forall_mem_cons] at h
    rw [countIn_cons, countIn_eq_zero h.2, Nat.add_zero, count_eq_zero_iff]
    exact fun hm => h.1 ⟨.opening tag, hm⟩

theorem count_indent_begin {indent : Text} (hi : IsIndentation indent) :
    count tag (indent ++ s.beginMarker) = if s = tag then 1 else 0 := by
  split
  · next hs =>
    subst hs
    have hindent : count s indent = 0 :=
      count_eq_zero_iff.2 fun hm => hi.sign_not_mem (hm.subset List.mem_cons_self)
    rw [← List.append_nil s.beginMarker, count_append_marker, hindent, count_nil]
  · next hs =>
    refine count_eq_zero_iff.2 fun hm => hs ?_
    cases Marker.eq_of_isInfix (m := .opening tag) (n := .opening s) hi hm
    rfl

/-- A block has the begin marker of its tag and no other. -/
theorem countIn_block (h : (Part.block s ls).Valid) : countIn tag ls = if s = tag then 1 else 0 := by
  obtain ⟨indent, inner, indent', hi, hi', hm, rfl⟩ := h
  have hend : count tag (indent' ++ s.endMarker) = 0 := count_eq_zero_iff.2 fun hm => by
    cases Marker.eq_of_isInfix (m := .opening tag) (n := .closing s) hi' hm
  simp [countIn_eq_zero hm, hend, count_indent_begin hi]

theorem countIn_lines (h : p.Valid) : countIn tag p.lines = (p.block? tag).toList.length := by
  cases p with
  | source l => exact countIn_eq_zero (List.forall_mem_singleton.2 h)
  | block s ls =>
    rw [Part.lines, countIn_block h, Part.block?]
    split <;> rfl

theorem countIn_flatMap_lines : ∀ {ps : List Part}, (∀ p ∈ ps, p.Valid) →
    countIn tag (ps.flatMap Part.lines) = (ps.filterMap (Part.block? tag)).length
  | [], _ => rfl
  | p :: ps, h => by
    rw [List.forall_mem_cons] at h
    rw [List.flatMap_cons, countIn_append, countIn_lines h.1, countIn_flatMap_lines h.2, List.filterMap_cons]
    cases p.block? tag with
    | none => simp
    | some ls => simp [Nat.add_comm]

/-- In a well-marked text the begin markers of a tag are those of its blocks. -/
theorem count_eq_length_blocks (h : WellMarked t) (tag : Tag) : count tag t = (blocks tag t).length := by
  rw [count_eq_countIn, h.hasParts.2, countIn_flatMap_lines h.hasParts.1, blocks]

/-! ### At a seam -/

/-- A text that holds one block and two texts around it has the begin markers of both and one more. -/
theorem count_eq_of_solidLines {a c : Text} (h : solidLines t = solidLines a ++ (ls ++ solidLines c))
    (hl : (Part.block tag ls).Valid) : count tag t = count tag a + (1 + count tag c) := by
  rw [count_eq_countIn, h, countIn_append, countIn_append, countIn_block hl, if_pos rfl, ← count_eq_countIn,
    ← count_eq_countIn]

/-- Putting in a block leaves as many blocks of the tag as before, one at least. -/
theorem Seam.count_eq {isAnchor : Text → Bool} {above below : Text} {cs : List Text} (h : WellMarked t)
    (hs : Seam tag isAnchor t above below) (hc : CommentLines cs) :
    count tag (spliceApart above (frame tag [] cs) below) = max 1 (count tag t) := by
  have hnew : count tag (spliceApart above (frame tag [] cs) below) = count tag above + (1 + count tag below) :=
    count_eq_of_solidLines (by rw [solidLines_spliceApart, solidLines_frame .nil hc]) (valid_framed .nil hc)
  cases hs with
  | @block e found =>
    obtain ⟨pre, ls, post, indent, hparts, -, -, ha, hb, -⟩ := h.hasParts.exists_of_find? found
    have hsolid : solidLines t = solidLines e.before ++ (ls ++ solidLines e.after) := by
      rw [h.hasParts.2, hparts, ha.2, hb.2, List.flatMap_append, List.flatMap_cons]
      rfl
    have hvalid : (Part.block tag ls).Valid := h.hasParts.1 _ (by simp [hparts])
    have hold := count_eq_of_solidLines hsolid hvalid
    omega
  | @anchor lead rest l absent lines passes first =>
    have hfresh : ¬ tag.beginMarker <:+: t := h.hasParts.not_infix_iff.2 (h.hasParts.find?_eq_none_iff.1 absent)
    have hold := count_eq_zero_iff.2 hfresh
    rw [eq_append_of_rawLines lines] at hfresh
    have habove := count_eq_zero_iff.2 fun hm => hfresh (hm.trans (List.prefix_append _ _).isInfix)
    have hbelow := count_eq_zero_iff.2 fun hm => hfresh (hm.trans (List.suffix_append _ _).isInfix)
    omega

end Block
end Marginalia
