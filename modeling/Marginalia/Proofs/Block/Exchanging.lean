/-
# Blocks exchanged in place

A block is exchanged for a new one, each line of which gets the indentation of
the old one. Nothing around it changes, and the new block is found where the old
one was (`Block.replace?_exchanges`): the splice makes no begin marker above the
block, as none was there, and no end marker inside it, as indentation goes in
front of lines and a marker starts with a comment sign (`exists_indentRows_append`).
So a further exchange does not see what was there before the last one.

Key definition: `Block.indentRows`.
Key theorems: `Block.Sealed.exists_indentRows_eq`, `Block.replace?_exchanges`.
-/
import Marginalia.Proofs.Block.Locating

namespace Marginalia

namespace Text

theorem joinLines_cons {l : Text} {ls : List Text} (h : ls ≠ []) : joinLines (l :: ls) = l ++ '\n' :: joinLines ls := by
  obtain ⟨m, ls, rfl⟩ := List.exists_cons_of_ne_nil h
  exact joinLines_cons_cons l m ls

theorem rows_ne_nil {t : Text} (h : t ≠ []) : rows t ≠ [] := by
  rwa [rows, Ne, List.map_eq_nil_iff, rawLines_eq_nil_iff]

end Text

namespace Block

open Text

variable {tag : Tag} {indent r t u block : Text} {b : Block}

/-- The text with the indentation in front of each of its lines; an empty line stays empty. -/
def indentRows (indent t : Text) : Text :=
  joinLines ((rows t).map fun l => if l = [] then [] else indent ++ l)

theorem indentWith_eq_indentRows (h : '\r' ∉ t) : indentWith indent t = indentRows indent t := by
  rw [indentWith, indentRows, lines_eq_rows h]

theorem indentRows_of_not_mem (hr : '\n' ∉ r) (h0 : r ≠ []) : indentRows indent r = indent ++ r := by
  rw [indentRows, rows_of_not_mem hr h0, List.map_singleton, if_neg h0]
  exact List.append_nil _

theorem indentRows_line (hr : '\n' ∉ r) (h0 : t ≠ []) :
    indentRows indent (r ++ '\n' :: t) = (if r = [] then [] else indent ++ r) ++ '\n' :: indentRows indent t := by
  rw [indentRows, rows_line hr, List.map_cons, joinLines_cons (List.map_eq_nil_iff.not.2 (rows_ne_nil h0)), indentRows]

/-! ### Indentation makes no marker

`'#' :: u` stands for the end marker, with which the text ends. -/

/-- In front of the word with which a text ends, indentation brings it in nowhere else. -/
theorem exists_indentRows_append (hi : IsIndentation indent) (hu : '\n' ∉ '#' :: u) (m : Text) :
    ∃ m', indentRows indent (m ++ '#' :: u) = m' ++ '#' :: u ∧ ('#' :: u <:+: m' → '#' :: u <:+: m) := by
  induction m using lineRec with
  | nil =>
    refine ⟨indent, indentRows_of_not_mem hu (List.cons_ne_nil _ _), fun h => ?_⟩
    exact absurd (h.subset List.mem_cons_self) hi.sign_not_mem
  | last r hr h0 =>
    refine ⟨indent ++ r, ?_, infix_of_first_not_mem hi.sign_not_mem⟩
    rw [indentRows_of_not_mem (by simp_all) (by simp), List.append_assoc]
  | line r t hr ih =>
    obtain ⟨t', ht, hm⟩ := ih
    refine ⟨(if r = [] then [] else indent ++ r) ++ '\n' :: t', ?_, fun h => ?_⟩
    · rw [List.append_assoc, List.cons_append, indentRows_line hr (by simp), ht, List.append_assoc, List.cons_append]
    · rw [infix_append_newline hu] at h ⊢
      refine h.imp (fun h => ?_) hm
      split at h
      · exact h.trans List.nil_infix
      · exact infix_of_first_not_mem hi.sign_not_mem h

/-- The same below a line that starts with a begin marker. -/
theorem exists_indentRows_append_append (hi : IsIndentation indent) (hu : '\n' ∉ '#' :: u) (hr : '\n' ∉ r) (h0 : r ≠ [])
    (m : Text) : ∃ m', indentRows indent (r ++ (m ++ '#' :: u)) = indent ++ (r ++ (m' ++ '#' :: u)) ∧
      ('#' :: u <:+: m' → '#' :: u <:+: m) := by
  cases m using lineRec with
  | nil => exact ⟨[], by rw [List.nil_append, indentRows_of_not_mem (by simp_all) (by simp)], id⟩
  | last hs => exact ⟨m, by rw [indentRows_of_not_mem (by simp_all) (by simp [h0])], id⟩
  | line s t hs _ =>
    obtain ⟨t', ht, hm⟩ := exists_indentRows_append hi hu t
    refine ⟨s ++ '\n' :: t', ?_, fun h => ?_⟩
    · rw [List.append_assoc, List.cons_append, ← List.append_assoc r, indentRows_line (by simp_all) (by simp), ht,
        if_neg (by simp [h0])]
      simp only [List.append_assoc, List.cons_append]
    · rw [infix_append_newline hu] at h ⊢
      exact h.imp_right hm

/-- A sealed block with indentation is an indented begin marker, down to the first end marker. -/
theorem Sealed.exists_indentRows_eq (h : Sealed tag block) (hi : IsIndentation indent) :
    ∃ inner, indentRows indent block = indent ++ (tag.beginMarker ++ (inner ++ tag.endMarker)) ∧
      ¬ tag.endMarker <:+: inner := by
  obtain ⟨inner, rfl, he⟩ := h
  obtain ⟨u, hu, -, hn⟩ := Marker.exists_text_eq (.closing tag)
  have hu : tag.endMarker = '#' :: u := hu
  have hn : '\n' ∉ tag.endMarker := hn
  rw [hu] at he hn ⊢
  obtain ⟨inner', hm, hin⟩ := exists_indentRows_append_append hi hn (Marker.newline_not_mem_text (.opening tag))
    tag.beginMarker_ne_nil inner
  exact ⟨inner', hm, fun h => he (hin h)⟩

/-! ### Exchanges -/

theorem return_not_mem_render (h : ∀ l ∈ b.lines, '\r' ∉ l) : '\r' ∉ b.render := by
  by_cases h0 : b.lines = []
  · rw [render_eq_nil_iff.2 h0]
    exact List.not_mem_nil
  · have hb : '\r' ∉ b.tag.beginMarker := by cases b.tag <;> decide
    have he : '\r' ∉ b.tag.endMarker := by cases b.tag <;> decide
    rw [render_eq h0]
    simp only [List.mem_append, List.mem_cons, not_or]
    refine ⟨hb, by decide, fun hm => ?_, he⟩
    obtain ⟨l', hl', hm⟩ := List.mem_flatMap.1 hm
    obtain ⟨l, hl, rfl⟩ := List.mem_map.1 hl'
    unfold commentLine at hm
    split at hm
    · simp [Tag.commentSign] at hm
    · simp [Tag.commentSign, h l hl] at hm

/-- **An exchange in place is local, and the last one counts.** The first block of a text, from the
start of its line if there is nothing but indentation in front of it, is exchanged for a block whose
comment lines do not hold the end marker. What stands before and after it stays, the new block with the
indentation of the old one in front of its lines is found in its place, and a further exchange gives
what it would have given in the first text. -/
theorem replace?_exchanges {e : Excerpt} (he : Excerpt.find? b.tag t = some e) (h0 : b.lines ≠ [])
    (hs : ∀ l ∈ b.commentLines, ¬ b.tag.endMarker <:+: l) (hr : ∀ l ∈ b.lines, '\r' ∉ l) :
    ∃ indent inner, e.IsFirst b.tag t indent inner ∧
      replace? b.tag b.render t = some (e.before ++ indentRows indent b.render ++ e.after) ∧
      Excerpt.find? b.tag (e.before ++ indentRows indent b.render ++ e.after) =
        some ⟨e.before, indentRows indent b.render, e.after⟩ ∧
      ∀ new, replace? b.tag new (e.before ++ indentRows indent b.render ++ e.after) = replace? b.tag new t := by
  obtain ⟨indent, inner, hf⟩ := Excerpt.find?_eq_some_iff.1 he
  obtain ⟨inner', htext, hin⟩ := ((sealed_render_iff h0).2 hs).exists_indentRows_eq hf.isIndentation
  have hnew : Excerpt.IsFirst b.tag (e.before ++ indentRows indent b.render ++ e.after)
      ⟨e.before, indentRows indent b.render, e.after⟩ indent inner' :=
    ⟨rfl, htext, hf.isIndentation, hf.start, hf.first, hin⟩
  refine ⟨indent, inner, hf, ?_, hnew.find?_eq, fun new => ?_⟩
  · rw [replace?, he, Option.map_some, hf.indentOf_eq, indentWith_eq_indentRows (return_not_mem_render hr)]
  · rw [replace?, replace?, hnew.find?_eq, he, Option.map_some, Option.map_some, hnew.indentOf_eq, hf.indentOf_eq]

/-- An indented block of routes, with code behind its end marker. -/
def drawnRoutes : Excerpt where
  before := "draw do\n".toList
  text := " # --- BEGIN annotate:routes ---\n # root\n # --- END annotate:routes ---".toList
  after := " and\nend\n".toList

/-- A block of routes with an empty line. -/
def newRoutes : Block where
  tag := .routes
  lines := ["root".toList, [], "users".toList]

/-- The text with the new routes. -/
def redrawnRoutes : Text := ("draw do\n # --- BEGIN annotate:routes ---\n # root\n #\n # users\n" ++
  " # --- END annotate:routes --- and\nend\n").toList

/-- The new routes stand where the old ones stood. -/
theorem replace?_exchanges_newRoutes : Excerpt.find? .routes drawnRoutes.whole = some drawnRoutes ∧
    replace? .routes newRoutes.render drawnRoutes.whole = some redrawnRoutes ∧
    ∀ new, replace? .routes new redrawnRoutes = replace? .routes new drawnRoutes.whole := by
  -- the texts are spelled out, as a literal is decoded anew wherever it is compared
  have hfind : Excerpt.find? newRoutes.tag drawnRoutes.whole = some drawnRoutes := by
    unfold drawnRoutes
    repeat rewrite [String.toList_ofList]
    decide
  obtain ⟨indent, inner, hf, hx, -, hlast⟩ := replace?_exchanges hfind (by decide) (by decide) (by decide)
  have hindent : indentOf drawnRoutes.text = " ".toList := by
    unfold drawnRoutes
    repeat rewrite [String.toList_ofList]
    decide
  have htext : drawnRoutes.before ++ indentRows indent newRoutes.render ++ drawnRoutes.after = redrawnRoutes := by
    rw [← hf.indentOf_eq, hindent]
    unfold drawnRoutes newRoutes redrawnRoutes
    repeat rewrite [String.toList_append]
    repeat rewrite [String.toList_ofList]
    decide
  rw [htext] at hx hlast
  exact ⟨hfind, hx, hlast⟩

end Block
end Marginalia
