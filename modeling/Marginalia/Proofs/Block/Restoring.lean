/-
# Blocks taken out again

A block that was put between two lines is found where it was put, and taking it
out restores the text, but for folded blank runs. As the texts in question are
known up to folded blank runs only, so is where a block is found in them
(`Excerpt.exists_find?_of_alike`), and what is left when it is taken out
(`Block.exists_exciseAll_eq`).

Key theorems: `Excerpt.find?_foldBlankRuns`, `Excerpt.exists_find?_of_alike`,
`Block.exists_exciseAll_eq`.
-/
import Marginalia.Proofs.Block.Excision
import Marginalia.Proofs.Block.Locating

namespace Marginalia

open Text

namespace Excerpt

open foldBlankRuns (go)

variable {tag : Tag} {t : Text} {e : Excerpt}

theorem not_infix_go {m : Marker} {a : Text} (h : ¬ m.text <:+: a) (run : Nat) : ¬ m.text <:+: go run a := by
  rwa [m.infix_iff_solidLines, solidLines_go, ← m.infix_iff_solidLines]

/-- What is found below a line is found there when blank runs are folded, whatever was kept before. -/
theorem find?_go (h : find? tag t = some e) (ht : Terminated e.before) (run : Nat) :
    find? tag (go run t) = some ⟨go run e.before, foldBlankRuns e.text, go 0 e.after⟩ := by
  obtain ⟨indent, inner, -, he, hi, -, hb, hin⟩ := find?_eq_some_iff.1 h
  have hbn : '\n' ∉ indent ++ tag.beginMarker := by
    rw [List.mem_append]
    exact fun hm => hm.elim hi.newline_not_mem (Marker.newline_not_mem_text (.opening tag))
  have hb0 : indent ++ tag.beginMarker ≠ [] := by simp [tag.beginMarker_ne_nil]
  have hen : '\n' ∉ tag.endMarker := Marker.newline_not_mem_text (.closing tag)
  have he0 : tag.endMarker ≠ [] := Marker.text_ne_nil (.closing tag)
  have hb' : ¬ (Marker.opening tag).text <:+: go run e.before := not_infix_go (m := .opening tag) hb run
  have hin' : ¬ (Marker.closing tag).text <:+: go 0 inner := not_infix_go (m := .closing tag) hin 0
  -- the markers are kept, and below each of them folding starts anew
  have htext (run : Nat) (c : Text) : go run (e.text ++ c) =
      indent ++ (tag.beginMarker ++ (go 0 inner ++ (tag.endMarker ++ go 0 c))) := by
    rw [he]
    simp only [List.append_assoc]
    rw [← List.append_assoc indent, go_append_of_not_mem hbn hb0, go_append, go_append_of_not_mem hen he0,
      List.append_assoc]
  have hfold : foldBlankRuns e.text = indent ++ (tag.beginMarker ++ (go 0 inner ++ tag.endMarker)) := by
    have hnil := htext 0 []
    rwa [List.append_nil, go, List.append_nil] at hnil
  refine find?_eq_some_iff.2 ⟨indent, go 0 inner, ?_, hfold, hi, .inl (ht.go run), hb', hin'⟩
  rw [← whole_find? h]
  simp only [whole, List.append_assoc]
  rw [go_append, htext, hfold]
  simp only [List.append_assoc]

theorem find?_foldBlankRuns (h : find? tag t = some e) (ht : Terminated e.before) :
    find? tag (foldBlankRuns t) = some ⟨foldBlankRuns e.before, foldBlankRuns e.text, go 0 e.after⟩ :=
  find?_go h ht 0

/-- A block is found below lines without a begin marker. -/
theorem find?_joinLines {a : Text} {ls : List Text} (ha : Terminated a) (hb : ¬ tag.beginMarker <:+: a)
    (hl : Block.Enclosed tag ls) (c : Text) :
    find? tag (a ++ (joinLines ls ++ c)) = some ⟨a, joinLines ls, c⟩ := by
  obtain ⟨⟨indent, inner, indent', hi, hi', hm, rfl⟩, hn⟩ := hl
  have hn' : ∀ l ∈ inner, '\n' ∉ l := fun l hl => hn l (by simp [hl])
  have hin : ¬ (Marker.closing tag).text <:+: '\n' :: paragraph inner ++ indent' := by
    refine not_infix_append_indentation ((terminated_append_newline []).append (terminated_paragraph _)) hi' ?_
    rw [Marker.infix_iff_solidLines, solidLines_newline_cons, solidLines_paragraph hn']
    exact fun ⟨l, h, hc⟩ => hm l (List.mem_filter.1 h).1 ⟨.closing tag, hc⟩
  have hj : joinLines ((indent ++ tag.beginMarker) :: (inner ++ [indent' ++ tag.endMarker])) =
      indent ++ tag.beginMarker ++ ('\n' :: paragraph inner ++ indent') ++ tag.endMarker := by
    refine List.append_cancel_right (?_ : _ ++ ['\n'] = _ ++ ['\n'])
    rw [joinLines_append_newline (List.cons_ne_nil _ _), paragraph_cons, paragraph_append, paragraph_cons]
    simp
  have h := find?_append ha hi hb hin c
  rw [hj]
  simpa only [List.append_assoc] using h

/-- A frame is found below lines without a begin marker. -/
theorem find?_frame {a indent : Text} {cs : List Text} (ha : Terminated a) (hb : ¬ tag.beginMarker <:+: a)
    (hi : IsIndentation indent) (hc : Block.CommentLines cs) (c : Text) :
    find? tag (a ++ (Block.frame tag indent cs ++ c)) = some ⟨a, Block.frame tag indent cs, c⟩ :=
  find?_joinLines ha hb (Block.enclosed_framed hi hc) c

/-- In a text that is alike it is found in a place that is alike. -/
theorem exists_find?_of_alike {a c : Text} {ls : List Text} (ht : Alike t (a ++ (joinLines ls ++ c)))
    (ha : Terminated a) (hb : ¬ tag.beginMarker <:+: a) (hl : Block.Enclosed tag ls) (hd : Detached c) :
    ∃ e, find? tag t = some e ∧ Alike e.before a ∧ Alike e.after c ∧ Terminated e.before := by
  have hf' := find?_foldBlankRuns (find?_joinLines ha hb hl c) ha
  obtain ⟨⟨indent, inner, indent', hi, hi', hm, rfl⟩, hn⟩ := hl
  have hbegin : indent ++ tag.beginMarker ≠ [] := by simp [tag.beginMarker_ne_nil]
  have hend : indent' ++ tag.endMarker ≠ [] := by simp [show tag.endMarker ≠ [] from Marker.text_ne_nil (.closing tag)]
  have hs : solidLines t = solidLines a ++ (indent ++ tag.beginMarker) ::
      (inner.filter (· ≠ []) ++ (indent' ++ tag.endMarker) :: solidLines c) := by
    rw [ht.solidLines_eq, solidLines_append ha, solidLines_append_detached hd, solidLines_joinLines hn]
    simp [hbegin, hend]
  obtain ⟨e, he, hsp⟩ := exists_find?_eq hs hi hi'
    (fun l hl h => hb ((Marker.opening tag).infix_iff_solidLines.2 ⟨l, hl, h⟩))
    (fun l hl h => hm l (List.mem_filter.1 hl).1 ⟨.closing tag, h⟩)
  have hf := find?_foldBlankRuns he hsp.before
  have heq := hf.symm.trans ((congrArg (find? tag) ht).trans hf')
  simp only [Option.some.injEq, Excerpt.mk.injEq] at heq
  exact ⟨e, he, heq.1, heq.2.2, hsp.before⟩

end Excerpt

namespace Block

open foldBlankRuns (go)

variable {tag : Tag} {t : Text}

/-- Texts that are alike below a newline stay alike when the newline is taken away, below a line or
where no newline follows. -/
theorem go_eq_of_alike_newline {c d : Text} {run : Nat} (h : Alike ('\n' :: c) ('\n' :: d))
    (hr : 1 ≤ run ∨ d.head? ≠ some '\n') : go run c = go run d := by
  have h₁ : go 1 c = go 1 d := (List.cons.inj h).2
  rcases Nat.eq_zero_or_pos run with rfl | hpos
  · have hd := hr.resolve_left (Nat.not_succ_le_zero 0)
    have hc : c.head? ≠ some '\n' := by
      intro hc
      obtain ⟨c, rfl⟩ := List.head?_eq_some_iff.1 hc
      have hh := congrArg List.head? h₁
      rw [head?_go hd, go, if_pos rfl, if_neg (by omega), List.head?_cons] at hh
      exact hd hh.symm
    rw [← go_of_head? hc 1, ← go_of_head? hd 1, h₁]
  · rw [← go_go c hpos, ← go_go d hpos, h₁]

/-- A block takes its line end along, and below an empty line or at the top one newline more. -/
theorem dropSeparator_newline (a d : Text) : dropSeparator a ('\n' :: d) = d ∨
    ∃ d', d = '\n' :: d' ∧ (a = [] ∨ (after? ['\n', '\n'] a.reverse).isSome) ∧
      dropSeparator a ('\n' :: d) = d' := by
  unfold dropSeparator
  simp only
  split
  · next hsep =>
    split
    · next d' => exact .inr ⟨d', rfl, hsep, rfl⟩
    · exact .inl rfl
  · exact .inl rfl

/-- What is left when a block is taken out from between two texts, if no newlines stand at the top of
the file. -/
theorem alike_excise {e : Excerpt} {a c : Text} (ht : Terminated e.before) (ha : Alike e.before a)
    (hc : Alike e.after ('\n' :: c)) (h0 : a = [] → c.head? ≠ some '\n') : Alike (excise e) (a ++ c) := by
  obtain ⟨d, hd⟩ : ∃ d, e.after = '\n' :: d := by
    cases h : e.after with
    | nil =>
      rw [h] at hc
      cases hc
    | cons x d =>
      by_cases hx : x = '\n'
      · exact ⟨d, by rw [hx]⟩
      · rw [h, Alike, foldBlankRuns, foldBlankRuns, go, if_neg hx] at hc
        exact absurd (List.cons.inj hc).1 hx
  rw [hd] at hc
  have hrun : 1 ≤ endRun 0 e.before ∨ c.head? ≠ some '\n' := by
    by_cases hb : e.before = []
    · refine .inr (h0 ?_)
      rw [hb] at ha
      cases a with
      | nil => rfl
      | cons x a =>
        rw [Alike, foldBlankRuns, foldBlankRuns, go, go] at ha
        split at ha <;> cases ha
    · exact .inl (one_le_endRun ht (.inl hb))
  have hkeep : Alike (e.before ++ d) (a ++ c) := by
    rw [Alike, foldBlankRuns_append, foldBlankRuns_append, ha, ← ha.endRun_eq, go_eq_of_alike_newline hc hrun]
  refine (alike_joinSeam _ _).trans ?_
  rw [hd]
  rcases dropSeparator_newline e.before d with he | ⟨d', rfl, hsep, he⟩
  · rwa [he]
  · -- a second newline goes as well, below an empty line
    rw [he]
    rcases hsep with hb | hb
    · exfalso
      rw [hb] at hrun
      have hc' := hrun.resolve_left (by simp [endRun])
      have hg : go 0 ('\n' :: d') = go 0 c := go_eq_of_alike_newline hc (.inr hc')
      have hh := congrArg List.head? hg
      rw [head?_go hc', go, if_pos rfl, if_neg (by omega), List.head?_cons] at hh
      exact hc' hh.symm
    · obtain ⟨r, hr⟩ := Option.isSome_iff_exists.1 hb
      have hr : e.before = r.reverse ++ ['\n', '\n'] := by
        rw [← List.reverse_reverse e.before, ← after?_eq hr, List.reverse_append]
        rfl
      have h2 : 2 ≤ endRun 0 e.before := hr ▸ two_le_endRun _ 0
      refine Alike.trans ?_ hkeep
      rw [Alike, foldBlankRuns_append, foldBlankRuns_append, go_newline_of_le h2]

/-- Taking out a block that stands between two texts leaves a text that is like them. -/
theorem exists_exciseAll_eq {a c : Text} {ls : List Text} (ht : Alike t (a ++ (joinLines ls ++ '\n' :: c)))
    (ha : Terminated a) (hb : ¬ tag.beginMarker <:+: a) (hl : Enclosed tag ls)
    (h0 : a = [] → c.head? ≠ some '\n') : ∃ t', exciseAll tag t = exciseAll tag t' ∧ Alike t' (a ++ c) := by
  obtain ⟨e, he, hea, hec, het⟩ := Excerpt.exists_find?_of_alike ht ha hb hl (detached_newline_cons c)
  exact ⟨excise e, exciseAll_of_find?_eq_some he, alike_excise het hea hec h0⟩

/-- A text that has less lines without the blocks of a tag has some. -/
theorem isIn_of_length_lt (h : (solidLines (exciseAll tag t)).length < (solidLines t).length) :
    isIn tag t = true := by
  by_contra hno
  rw [exciseAll_of_not_isIn hno] at h
  exact Nat.lt_irrefl _ h

end Block
end Marginalia
