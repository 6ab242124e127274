/-
# Removal from converted texts

Converted, a text has a carriage return in front of each newline (`Text.crlf`). It holds
the blocks that it held before (`Excerpt.find?_crlf`), but removal goes by newlines. A
line end now starts with a carriage return, so the block does not take it along, and
as no two newlines stand together, there is no separator to take and nothing to fold. What is
left are the lines around the blocks and an empty line in the place of each
block (`Block.removeAll_crlf`).

Without conversion a block takes its line end along. So where no blank lines are folded, removal and
conversion can be exchanged exactly if no block has a line end (`Block.removeAll_crlf_iff`).

Key definitions: `Text.crlf`, `Block.hollow`.
Key theorems: `Excerpt.find?_crlf`, `Block.removeAll_crlf`, `Block.length_exciseAll_le`,
`Block.removeAll_crlf_iff`.
-/
import Marginalia.Proofs.Block.Commuting

namespace Marginalia
namespace Text

open foldBlankRuns (go)

variable {c : Char} {r t word : Text}

/-- The text with a carriage return in front of each newline. -/
def crlf (t : Text) : Text := t.flatMap fun c => if c = '\n' then ['\r', '\n'] else [c]

@[simp] theorem crlf_nil : crlf [] = [] := rfl

@[simp] theorem crlf_newline_cons (t : Text) : crlf ('\n' :: t) = '\r' :: '\n' :: crlf t := rfl

theorem crlf_cons_of_ne (h : c ≠ '\n') (t : Text) : crlf (c :: t) = c :: crlf t := by
  simp [crlf, h]

@[simp] theorem crlf_append (a b : Text) : crlf (a ++ b) = crlf a ++ crlf b := List.flatMap_append

theorem crlf_of_not_mem (h : '\n' ∉ r) : crlf r = r := by
  induction r with
  | nil => rfl
  | cons c r ih =>
    rw [List.mem_cons, not_or] at h
    rw [crlf_cons_of_ne (Ne.symm h.1), ih h.2]

theorem head?_crlf (t : Text) : (crlf t).head? ≠ some '\n' := by
  cases t with
  | nil => simp
  | cons c t =>
    by_cases hc : c = '\n'
    · simp [hc]
    · simp [crlf_cons_of_ne hc, hc]

/-- Conversion can be undone. -/
theorem crlf_inj : ∀ {t u : Text}, crlf t = crlf u ↔ t = u
  | [], [] => by simp
  | [], c :: u => by by_cases hc : c = '\n' <;> simp [hc, crlf_cons_of_ne]
  | c :: t, [] => by by_cases hc : c = '\n' <;> simp [hc, crlf_cons_of_ne]
  | c :: t, d :: u => by
    have ih := crlf_inj (t := t) (u := u)
    -- what follows a carriage return tells whether it was put in
    have hreturn (v w : Text) : '\n' :: crlf v ≠ crlf w := fun he => head?_crlf w (by rw [← he, List.head?_cons])
    by_cases hc : c = '\n' <;> by_cases hd : d = '\n'
    · simp [hc, hd, ih]
    · simp only [hc, crlf_newline_cons, crlf_cons_of_ne hd, List.cons.injEq, hreturn, and_false, Ne.symm hd, false_and]
    · simp only [hd, crlf_newline_cons, crlf_cons_of_ne hc, List.cons.injEq, (hreturn u t).symm, and_false, hc,
        false_and]
    · simp [crlf_cons_of_ne hc, crlf_cons_of_ne hd, ih]

/-- A word of one line stands in the lines in which it stood. -/
theorem infix_crlf_iff (hn : '\n' ∉ word) (hr : '\r' ∉ word) (h0 : word ≠ []) : word <:+: crlf t ↔ word <:+: t := by
  induction t using lineRec with
  | nil => rfl
  | last r h _ => rw [crlf_of_not_mem h]
  | line r t h ih =>
    have hline : crlf (r ++ '\n' :: t) = (r ++ ['\r']) ++ '\n' :: crlf t := by
      rw [crlf_append, crlf_of_not_mem h, crlf_newline_cons, List.append_assoc, List.singleton_append]
    have hreturn : word <:+: r ++ ['\r'] ↔ word <:+: r := by
      constructor
      · intro hin
        exact infix_of_infix_append h0 (by simpa using hr) hin
      · exact fun hin => hin.trans (List.prefix_append r _).isInfix
    rw [hline, infix_append_newline hn, infix_append_newline hn, hreturn, ih]

theorem Terminated.crlf (h : Terminated t) : Terminated (crlf t) := by
  by_cases h0 : t = []
  · rw [h0]
    exact terminated_nil
  · obtain ⟨r, rfl⟩ := h.exists_eq h0
    rw [crlf_append]
    exact .inr (by simp)

/-! ### Newlines of converted texts -/

/-- Of the newlines at the end only the last one has no carriage return in front of it. -/
theorem trailingNewlines_crlf_le (t : Text) : trailingNewlines (crlf t) ≤ 1 := by
  rcases List.eq_nil_or_concat t with rfl | ⟨t, c, rfl⟩
  · exact Nat.zero_le 1
  · by_cases hc : c = '\n'
    · simp [hc, trailingNewlines, takeEndWhile, isNewline]
    · simp [trailingNewlines, takeEndWhile, isNewline, crlf_cons_of_ne hc, hc]

theorem foldBlankRuns_crlf (t : Text) : foldBlankRuns (crlf t) = crlf t := by
  rw [foldBlankRuns]
  induction t with
  | nil => rfl
  | cons c t ih =>
    by_cases hc : c = '\n'
    · have hgo : go 0 ('\r' :: '\n' :: crlf t) = '\r' :: '\n' :: go 1 (crlf t) := rfl
      rw [hc, crlf_newline_cons, hgo, go_of_head? (head?_crlf t), ih]
    · rw [crlf_cons_of_ne hc, go, if_neg hc, ih]

/-- With the newlines kept before it, a text without three newlines together is folded. -/
theorem go_eq_self_of_not_infix : ∀ {t : Text} {run : Nat}, ¬ List.replicate 3 '\n' <:+: List.replicate run '\n' ++ t →
    go run t = t
  | [], _, _ => rfl
  | c :: t, run, h => by
    rw [go]
    by_cases hc : c = '\n'
    · subst hc
      have hmore : List.replicate run '\n' ++ '\n' :: t = List.replicate (run + 1) '\n' ++ t := by
        rw [List.replicate_succ', List.append_assoc, List.singleton_append]
      have hrun : ¬ 2 ≤ run := by
        intro hle
        have hthree : List.replicate (run + 1) '\n' = List.replicate 3 '\n' ++ List.replicate (run - 2) '\n' := by
          rw [List.replicate_append_replicate]
          congr 1
          omega
        rw [hmore, hthree, List.append_assoc] at h
        exact h (List.prefix_append _ _).isInfix
      rw [if_pos rfl, if_neg hrun, go_eq_self_of_not_infix (hmore ▸ h)]
    · have hrest : ¬ List.replicate 3 '\n' <:+: List.replicate 0 '\n' ++ t := fun hin =>
        h (hin.trans (List.IsSuffix.isInfix ⟨List.replicate run '\n' ++ [c], by simp⟩))
      rw [if_neg hc, go_eq_self_of_not_infix hrest]

theorem foldBlankRuns_of_not_infix (h : ¬ List.replicate 3 '\n' <:+: t) : foldBlankRuns t = t :=
  go_eq_self_of_not_infix (show ¬ List.replicate 3 '\n' <:+: List.replicate 0 '\n' ++ t from h)

theorem Detached.dropNewlines_tail (h : Detached t) : dropNewlines t.tail = dropNewlines t := by
  by_cases h0 : t = []
  · rw [h0, List.tail_nil]
  · obtain ⟨r, rfl⟩ := h.exists_eq h0
    rfl

end Text

/-- The converted excerpt. -/
def Excerpt.crlf (e : Excerpt) : Excerpt := ⟨Text.crlf e.before, Text.crlf e.text, Text.crlf e.after⟩

open Text Excerpt

variable {tag : Tag} {a t y : Text} {e : Excerpt}

theorem Marker.infix_crlf_iff (m : Marker) : m.text <:+: Text.crlf t ↔ m.text <:+: t := by
  have hreturn : '\r' ∉ m.text := by
    have hall : ∀ m ∈ Marker.all, '\r' ∉ m.text := by decide
    exact hall m m.mem_all
  exact Text.infix_crlf_iff m.newline_not_mem_text hreturn m.text_ne_nil

theorem Marker.crlf_text (m : Marker) : Text.crlf m.text = m.text := crlf_of_not_mem m.newline_not_mem_text

/-- A block that stands on lines of its own is found again, converted. -/
theorem Excerpt.IsFirst.crlf {indent inner : Text} (h : e.IsFirst tag t indent inner) (hb : Terminated e.before) :
    e.crlf.IsFirst tag (Text.crlf t) indent (Text.crlf inner) where
  whole_eq := by
    rw [← h.whole_eq, whole, whole, crlf_append, crlf_append]
    rfl
  text_eq := by
    have hbegin : Text.crlf tag.beginMarker = tag.beginMarker := Marker.crlf_text (.opening tag)
    have hend : Text.crlf tag.endMarker = tag.endMarker := Marker.crlf_text (.closing tag)
    simp only [Excerpt.crlf, h.text_eq, crlf_append, crlf_of_not_mem h.isIndentation.newline_not_mem, hbegin, hend]
  isIndentation := h.isIndentation
  start := .inl hb.crlf
  first := (Marker.infix_crlf_iff (.opening tag)).not.2 h.first
  nearest := (Marker.infix_crlf_iff (.closing tag)).not.2 h.nearest

/-- In a converted text the converted blocks are found. -/
theorem Excerpt.find?_crlf (h : WellMarked t) : find? tag (Text.crlf t) = (find? tag t).map Excerpt.crlf := by
  cases he : find? tag t with
  | none =>
    have hlack : ¬ tag.beginMarker <:+: t := h.hasParts.not_infix_iff.2 (h.hasParts.find?_eq_none_iff.1 he)
    exact find?_eq_none ((Marker.infix_crlf_iff (.opening tag)).not.2 hlack)
  | some e =>
    obtain ⟨indent, inner, hf⟩ := find?_eq_some_iff.1 he
    exact (hf.crlf (around_of_find? h he).1).find?_eq

namespace Block

/-! ### The text around the blocks -/

theorem length_after_lt_length (h : find? tag t = some e) : e.after.length < t.length := by
  have hpos : 0 < e.text.length := List.length_pos_iff.2 (text_ne_nil h)
  have hwhole := congrArg List.length (whole_find? h)
  simp only [whole, List.length_append] at hwhole
  omega

/-- The text without the blocks of the tag; their line ends stay. -/
def hollow (tag : Tag) (t : Text) : Text :=
  match _h : find? tag t with
  | none => t
  | some e => e.before ++ hollow tag e.after
termination_by t.length
decreasing_by exact length_after_lt_length _h

theorem hollow_of_none (h : find? tag t = none) : hollow tag t = t := by
  rw [hollow]
  split
  · rfl
  · next h' => rw [h] at h'; cases h'

theorem hollow_of_some (h : find? tag t = some e) : hollow tag t = e.before ++ hollow tag e.after := by
  rw [hollow]
  split
  · next h' => rw [h] at h'; cases h'
  · next h' => rw [h] at h'; cases h'; rfl

@[simp] theorem hollow_nil (tag : Tag) : hollow tag [] = [] :=
  hollow_of_none (find?_eq_none (by simp [tag.beginMarker_ne_nil]))

/-- Whole lines without a begin marker are kept. -/
theorem hollow_append (h : WellMarked t) (ha : Terminated a) (hb : ¬ tag.beginMarker <:+: a) :
    hollow tag (a ++ t) = a ++ hollow tag t := by
  have hfind := find?_below h ha hb
  cases he : find? tag t with
  | none =>
    rw [he, Option.map_none] at hfind
    rw [hollow_of_none hfind, hollow_of_none he]
  | some e =>
    rw [he, Option.map_some] at hfind
    rw [hollow_of_some hfind, hollow_of_some he, List.append_assoc]

theorem wellMarked_after (h : WellMarked t) (he : find? tag t = some e) : WellMarked e.after := by
  obtain ⟨_, _, _, _, -, -, -, -, ha, -⟩ := h.hasParts.exists_of_find? he
  exact ha.wellMarked

/-! ### Removal from a converted text -/

/-- A block is taken out of a converted text without its line end. -/
theorem excise_crlf (e : Excerpt) : excise e.crlf = crlf (e.before ++ e.after) := by
  have hafter : dropSeparator (crlf e.before) (crlf e.after) = crlf e.after := by
    unfold dropSeparator
    split
    · next he => exact absurd (by rw [he, List.head?_cons]) (head?_crlf e.after)
    · rfl
  have hseam : trailingNewlines (crlf e.before) + leadingNewlines (crlf e.after) ≤ 2 := by
    have hend := trailingNewlines_crlf_le e.before
    have hstart := leadingNewlines_of_head? (head?_crlf e.after)
    omega
  rw [excise, Excerpt.crlf, hafter, joinSeam, if_pos hseam, crlf_append]

/-- Below lines without a begin marker, the blocks of a converted text are taken out and nothing else. -/
theorem exciseAll_crlf (hy : WellMarked y) (ha : WellMarked a) (ht : Terminated a) (hb : ¬ tag.beginMarker <:+: a) :
    exciseAll tag (crlf (a ++ y)) = crlf (a ++ hollow tag y) := by
  fun_induction hollow tag y generalizing a with
  | case1 y hn =>
    have hfind : find? tag (crlf (a ++ y)) = none := by
      rw [find?_crlf (ha.append ht hy), find?_below hy ht hb, hn, Option.map_none, Option.map_none]
    exact exciseAll_of_find?_eq_none hfind
  | case2 y e he ih =>
    obtain ⟨hbefore, -, hwell, -⟩ := around_of_find? hy he
    have hbelow : find? tag (a ++ y) = some { e with before := a ++ e.before } := by
      rw [find?_below hy ht hb, he, Option.map_some]
    have hfind : find? tag (crlf (a ++ y)) = some (Excerpt.crlf { e with before := a ++ e.before }) := by
      rw [find?_crlf (ha.append ht hy), hbelow, Option.map_some]
    have hfirst : ¬ tag.beginMarker <:+: a ++ e.before := by
      obtain ⟨_, _, hf⟩ := find?_eq_some_iff.1 hbelow
      exact hf.first
    calc exciseAll tag (crlf (a ++ y))
        = exciseAll tag (crlf (a ++ e.before ++ e.after)) := by rw [exciseAll_of_find?_eq_some hfind, excise_crlf]
      _ = crlf (a ++ e.before ++ hollow tag e.after) :=
          ih (wellMarked_after hy he) (ha.append ht hwell) (ht.append hbefore) hfirst
      _ = crlf (a ++ (e.before ++ hollow tag e.after)) := by rw [List.append_assoc]

/-- **Removal from a converted text.** The blocks go, and all that is around them stays. -/
theorem removeAll_crlf (h : WellMarked t) (tag : Tag) : removeAll tag (crlf t) = crlf (hollow tag t) := by
  have hall : exciseAll tag (crlf t) = crlf (hollow tag t) :=
    exciseAll_crlf (a := []) h (by decide) terminated_nil (by simp [tag.beginMarker_ne_nil])
  unfold removeAll
  split
  · rw [hall, foldBlankRuns_crlf]
  · next hin => rw [← hall, exciseAll_of_not_isIn hin]

/-! ### Removal without conversion -/

/-- What is put together ends, but for newlines, with what was put below. -/
theorem exists_joinSeam_eq {b : Text} (hb : Terminated b) (c : Text) : ∃ lead, joinSeam b c = lead ++ dropNewlines c ∧
    Terminated lead ∧ solidLines lead = solidLines b ∧ lead.length ≤ b.length + leadingNewlines c := by
  have hnewlines := newlines_takeWhile c
  unfold joinSeam
  split
  · refine ⟨b ++ c.takeWhile isNewline, ?_, hb.append (terminated_of_newlines hnewlines),
      solidLines_append_newlines b hnewlines, ?_⟩
    · rw [List.append_assoc, dropNewlines, List.takeWhile_append_dropWhile]
    · rw [List.length_append, leadingNewlines]
  · next hseam =>
    refine ⟨dropEndNewlines b ++ List.replicate 2 '\n', rfl, .inr (by simp), ?_, ?_⟩
    · rw [solidLines_append_newlines _ (by simp), solidLines_dropEndNewlines]
    · have hlen := length_dropEndWhile_add isNewline b
      rw [← trailingNewlines, ← dropEndNewlines] at hlen
      rw [List.length_append, List.length_replicate]
      omega

/-- Of the newlines below a block its line end goes, and it may be one more. -/
theorem leadingNewlines_dropSeparator_le (b : Text) {c : Text} (hc : Detached c) :
    dropNewlines (dropSeparator b c) = dropNewlines c ∧
      leadingNewlines (dropSeparator b c) ≤ leadingNewlines c.tail := by
  by_cases h0 : c = []
  · rw [h0]
    exact ⟨rfl, Nat.le_refl _⟩
  · obtain ⟨d, rfl⟩ := hc.exists_eq h0
    rw [List.tail_cons]
    rcases dropSeparator_newline b d with hd | ⟨d', rfl, -, hd⟩
    · rw [hd]
      exact ⟨rfl, Nat.le_refl _⟩
    · rw [hd, leadingNewlines_newline_cons]
      exact ⟨rfl, Nat.le_succ _⟩

/-- Above what follows a block and its newlines, no more is left than stood above the block and below its line end. -/
theorem exists_excise_eq {b x c : Text} (hb : Terminated b) (hc : Detached c) : ∃ lead,
    excise ⟨b, x, c⟩ = lead ++ dropNewlines c ∧ Terminated lead ∧ solidLines lead = solidLines b ∧
      lead.length ≤ b.length + leadingNewlines c.tail := by
  obtain ⟨hdrop, hcount⟩ := leadingNewlines_dropSeparator_le b hc
  obtain ⟨lead, hlead, hterm, hsolid, hlen⟩ := exists_joinSeam_eq hb (dropSeparator b c)
  refine ⟨lead, ?_, hterm, hsolid, by omega⟩
  rw [excise, hlead, hdrop]

theorem wellMarked_dropNewlines (h : WellMarked t) : WellMarked (dropNewlines t) :=
  (h.hasParts.of_solidLines_eq (solidLines_dropNewlines t)).wellMarked

/-- Newlines on top of the text are kept. -/
theorem bare_eq_newlines_append (h : WellMarked t) (tag : Tag) :
    bare tag t = t.takeWhile isNewline ++ bare tag (dropNewlines t) := by
  have hnewlines := newlines_takeWhile t
  have hlack : ¬ (Marker.opening tag).text <:+: t.takeWhile isNewline := by
    rw [Marker.infix_iff_solidLines, solidLines_of_newlines hnewlines]
    simp
  calc bare tag t = bare tag (t.takeWhile isNewline ++ dropNewlines t) := by
        rw [dropNewlines, List.takeWhile_append_dropWhile]
    _ = t.takeWhile isNewline ++ bare tag (dropNewlines t) :=
        bare_append (wellMarked_dropNewlines h) (terminated_of_newlines hnewlines) hlack

/-- **Removal takes the line ends.** Below lines without a begin marker no more is left than the text without
the blocks and their line ends. -/
theorem length_exciseAll_le (hy : WellMarked y) (ht : Terminated a) (hb : ¬ tag.beginMarker <:+: a) :
    (exciseAll tag (a ++ y)).length ≤ a.length + (bare tag y).length := by
  induction hn : y.length using Nat.strongRecOn generalizing a y with
  | ind n ih =>
    cases he : find? tag y with
    | none =>
      have hfind : find? tag (a ++ y) = none := by rw [find?_below hy ht hb, he, Option.map_none]
      rw [exciseAll_of_find?_eq_none hfind, bare_of_none he, List.length_append]
    | some e =>
      obtain ⟨hbefore, hafter, -, hbelow⟩ := around_of_find? hy he
      have hfind : find? tag (a ++ y) = some { e with before := a ++ e.before } := by
        rw [find?_below hy ht hb, he, Option.map_some]
      obtain ⟨lead, hexcise, hterm, hsolid, hlen⟩ :=
        exists_excise_eq (x := e.text) (ht.append hbefore) hafter
      have hfirst : ¬ (Marker.opening tag).text <:+: lead := by
        obtain ⟨_, _, hf⟩ := find?_eq_some_iff.1 hfind
        rw [Marker.infix_iff_solidLines, hsolid, ← Marker.infix_iff_solidLines]
        exact hf.first
      have hshort : (dropNewlines e.after).length < n := by
        have hle : (dropNewlines e.after).length ≤ e.after.length := (List.dropWhile_suffix _).length_le
        have hlt := length_after_lt_length he
        omega
      have hbare := congrArg List.length (bare_eq_newlines_append hbelow tag)
      rw [List.length_append, hafter.dropNewlines_tail, ← leadingNewlines] at hbare
      rw [List.length_append] at hlen
      calc (exciseAll tag (a ++ y)).length
          = (exciseAll tag (lead ++ dropNewlines e.after)).length := by
            rw [exciseAll_of_find?_eq_some hfind, hexcise]
        _ ≤ lead.length + (bare tag (dropNewlines e.after)).length :=
            ih _ hshort (wellMarked_dropNewlines (wellMarked_after hy he)) hterm hfirst rfl
        _ ≤ a.length + (e.before ++ bare tag e.after.tail).length := by
            rw [List.length_append]
            omega
        _ = a.length + (bare tag y).length := by rw [bare_of_some he]

/-- Below a block its line end stays. -/
theorem hollow_after (h : WellMarked t) (he : find? tag t = some e) (h0 : e.after ≠ []) :
    hollow tag e.after = '\n' :: hollow tag e.after.tail := by
  obtain ⟨-, hafter, -, hbelow⟩ := around_of_find? h he
  obtain ⟨c, hc⟩ := hafter.exists_eq h0
  have hlack : ¬ tag.beginMarker <:+: ['\n'] := by cases tag <;> decide
  rw [hc, List.tail_cons] at hbelow ⊢
  exact hollow_append hbelow (terminated_append_newline []) hlack

theorem length_bare_le (h : WellMarked t) : (bare tag t).length ≤ (hollow tag t).length := by
  fun_induction bare tag t with
  | case1 t hn => rw [hollow_of_none hn]
  | case2 t e he ih =>
    have hrest := ih (around_of_find? h he).2.2.2
    rw [hollow_of_some he, List.length_append, List.length_append]
    by_cases h0 : e.after = []
    · simp [h0]
    · rw [hollow_after h he h0, List.length_cons]
      omega

/-- A line end makes a difference. -/
theorem length_bare_lt (h : WellMarked t) (he : find? tag t = some e) (h0 : e.after ≠ []) :
    (bare tag t).length < (hollow tag t).length := by
  have hrest : (bare tag e.after.tail).length ≤ (hollow tag e.after.tail).length :=
    length_bare_le (around_of_find? h he).2.2.2
  rw [bare_of_some he, hollow_of_some he, hollow_after h he h0, List.length_append, List.length_append,
    List.length_cons]
  omega

theorem length_removeAll_le (h : WellMarked t) (tag : Tag) : (removeAll tag t).length ≤ (bare tag t).length := by
  have hall : (exciseAll tag t).length ≤ ([] : Text).length + (bare tag t).length :=
    length_exciseAll_le (a := []) h terminated_nil (by simp [tag.beginMarker_ne_nil])
  rw [List.length_nil, Nat.zero_add] at hall
  unfold removeAll
  split
  · exact Nat.le_trans (foldBlankRuns_sublist _).length_le hall
  · next hin => rwa [exciseAll_of_not_isIn hin] at hall

/-- A block that ends the text goes with nothing else. -/
theorem removeAll_of_last {above block : Text} (h : WellMarked t) (hrun : ¬ List.replicate 3 '\n' <:+: t)
    (he : find? tag t = some ⟨above, block, []⟩) : removeAll tag t = above := by
  obtain ⟨lead, hexcise, -, hsolid, -⟩ := exists_excise_eq (x := block) (around_of_find? h he).1 detached_nil
  obtain ⟨_, _, hf⟩ := find?_eq_some_iff.1 he
  have hlack : ¬ (Marker.opening tag).text <:+: excise ⟨above, block, []⟩ := by
    rw [Marker.infix_iff_solidLines, hexcise, dropNewlines, List.dropWhile_nil, List.append_nil, hsolid,
      ← Marker.infix_iff_solidLines]
    exact hf.first
  have habove : above <+: t := by
    rw [← whole_find? he, whole, List.append_assoc]
    exact List.prefix_append _ _
  have hin : isIn tag t := by rw [isIn, he, Option.isSome_some]
  calc removeAll tag t = foldBlankRuns (exciseAll tag t) := by rw [removeAll, if_pos hin]
    _ = foldBlankRuns (excise ⟨above, block, []⟩) := by
        rw [exciseAll_of_find?_eq_some he, exciseAll_of_find?_eq_none (find?_eq_none hlack)]
    _ = foldBlankRuns (above ++ []) := alike_joinSeam above []
    _ = above := by
        rw [List.append_nil]
        exact foldBlankRuns_of_not_infix fun hm => hrun (hm.trans habove.isInfix)

/-- In a text without three newlines together, the blocks go with nothing else exactly if none has a line end. -/
theorem hollow_eq_removeAll_iff (h : WellMarked t) (hrun : ¬ List.replicate 3 '\n' <:+: t) :
    hollow tag t = removeAll tag t ↔ ∀ e, find? tag t = some e → e.after = [] := by
  constructor
  · intro heq e he
    by_contra h0
    have hle := length_removeAll_le h tag
    have hlt := length_bare_lt h he h0
    rw [heq] at hlt
    omega
  · intro hends
    cases he : find? tag t with
    | none => rw [hollow_of_none he, removeAll_of_not_isIn (by rw [isIn, he, Option.isSome_none])]
    | some e =>
      obtain ⟨above, block, below⟩ := e
      obtain rfl : below = [] := hends _ he
      rw [hollow_of_some he, hollow_nil, List.append_nil, removeAll_of_last h hrun he]

/-- **Removal and conversion.** From a converted text removal takes the blocks and nothing else. Where no three
newlines stand together, it comes to the same to remove first exactly if no block has a line end. -/
theorem removeAll_crlf_iff (h : WellMarked t) (hrun : ¬ List.replicate 3 '\n' <:+: t) (tag : Tag) :
    removeAll tag (crlf t) = crlf (hollow tag t) ∧
      (removeAll tag (crlf t) = crlf (removeAll tag t) ↔ ∀ e, find? tag t = some e → e.after = []) := by
  refine ⟨removeAll_crlf h tag, ?_⟩
  rw [removeAll_crlf h, crlf_inj]
  exact hollow_eq_removeAll_iff h hrun

/-- A block above a class. -/
def headed : Text := render ⟨.schema, ["id".toList]⟩ ++ "\nclass User\nend\n".toList

theorem find?_headed : find? .schema headed =
    some ⟨[], render ⟨.schema, ["id".toList]⟩, "\nclass User\nend\n".toList⟩ := by
  -- the text is spelled out, as a literal is decoded anew wherever it is compared
  unfold headed
  repeat rewrite [String.toList_ofList]
  decide

theorem wellMarked_headed : WellMarked headed := by
  unfold headed
  repeat rewrite [String.toList_ofList]
  decide

theorem not_infix_headed : ¬ List.replicate 3 '\n' <:+: headed := by
  unfold headed
  repeat rewrite [String.toList_ofList]
  decide +kernel

/-- The line end of the block stays, as an empty line at the top. -/
theorem removeAll_crlf_iff_headed :
    WellMarked headed ∧ ¬ List.replicate 3 '\n' <:+: headed ∧
      removeAll .schema (crlf headed) = "\r\nclass User\r\nend\r\n".toList ∧
      removeAll .schema (crlf headed) ≠ crlf (removeAll .schema headed) := by
  obtain ⟨heq, hiff⟩ := removeAll_crlf_iff wellMarked_headed not_infix_headed .schema
  refine ⟨wellMarked_headed, not_infix_headed, ?_, fun hsame => ?_⟩
  · rw [heq, hollow_of_some find?_headed, hollow_of_none (by decide)]
    decide
  · cases hiff.1 hsame _ find?_headed

/-- Carriage returns show in what removal leaves. -/
theorem removeAll_conversion_shows : ¬ ∀ t : Text, WellMarked t → '\r' ∉ t → ¬ List.replicate 3 '\n' <:+: t →
    ∀ tag : Tag, removeAll tag (crlf t) = crlf (removeAll tag t) := by
  intro h
  have hsame := h headed wellMarked_headed (by decide) not_infix_headed .schema
  rw [removeAll_crlf wellMarked_headed, crlf_inj, hollow_eq_removeAll_iff wellMarked_headed not_infix_headed] at hsame
  cases hsame _ find?_headed

end Block
end Marginalia
