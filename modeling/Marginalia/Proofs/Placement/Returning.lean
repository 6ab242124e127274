/-
# Batches put in again

A batch of blocks of one tag is put into a text without begin markers of the
tag, taken out and put in again. Beside classes the blocks come back to the code
lines at which they were, since the lines to be put in are told by code lines
(`text_insertAll_eq_weave`) and folding blank runs moves none of these
(`alike_weave_foldBlankRuns`). At the top they come back unless a directive stood
below empty lines there: a block above it takes the empty lines along, and once
it is taken out the directive is a leading one
(`insertAll_removeAll_insertAll_iff`).

Key theorems: `Placement.text_insertAll_eq_weave`, `Placement.alike_weave_foldBlankRuns`,
`Placement.alike_insertAll_beside`, `Placement.alike_insertAll_top_iff`,
`Placement.insertAll_removeAll_insertAll_iff`.
-/
import Marginalia.Proofs.Placement.Withdrawing

namespace Marginalia
namespace Placement

open Text Block

/-! ### What is put in, told by code lines -/

section

variable {pos : Position} {f g h : Nat → List Text} {t : Text} {ls : List Text}

/-- What stands beside code lines only is spread over them. -/
theorem spread_codeIndex_self (hf : ∀ k, f k ≠ [] → ∃ i, codeIndex ls i = k ∧ k < ls.length) :
    spread (fun i => f (codeIndex ls i)) ls = f := by
  induction ls generalizing f with
  | nil =>
    funext k
    by_contra hk
    obtain ⟨-, -, hlt⟩ := hf k (Ne.symm hk)
    exact Nat.not_lt_zero k hlt
  | cons l ls ih =>
    have hbelow : ∀ k, f (k + 1) ≠ [] → ∃ i, codeIndex ls i = k ∧ k < ls.length := by
      intro k hk
      obtain ⟨i, hi, hlt⟩ := hf (k + 1) hk
      cases hn : isNote l with
      | true => exact ⟨i, by rw [codeIndex_cons_note hn] at hi; omega, Nat.lt_of_succ_lt_succ hlt⟩
      | false =>
        cases i with
        | zero => rw [codeIndex_cons_zero hn] at hi; omega
        | succ i => exact ⟨i, by rw [codeIndex_cons_succ hn] at hi; omega, Nat.lt_of_succ_lt_succ hlt⟩
    have hrest := ih (f := fun k => f (k + 1)) hbelow
    funext k
    cases hn : isNote l with
    | true =>
      have hs := spread_note (fun i => f (codeIndex (l :: ls) i)) ls hn
      cases k with
      | zero =>
        rw [hs.1]
        by_contra h0
        obtain ⟨i, hi, -⟩ := hf 0 (Ne.symm h0)
        rw [codeIndex_cons_note hn] at hi
        exact Nat.succ_ne_zero _ hi
      | succ k =>
        refine (congrFun hs.2 k).trans ?_
        simp only [codeIndex_cons_note hn]
        exact congrFun hrest k
    | false =>
      have hs := spread_code (fun i => f (codeIndex (l :: ls) i)) ls hn
      cases k with
      | zero => exact hs.1.trans (by rw [codeIndex_cons_zero hn])
      | succ k =>
        refine (congrFun hs.2 k).trans ?_
        simp only [codeIndex_cons_succ hn]
        exact congrFun hrest k

/-- What is woven in is told by the code lines that are there. -/
theorem weave_congr (hgh : ∀ i < (codeLines t).length, g i = h i) : weave pos g t = weave pos h t := by
  induction t using lineRec generalizing g h with
  | nil => rfl
  | last r hr h0 =>
    cases hn : isNote r with
    | true => rw [weave_note_last hr h0 hn, weave_note_last hr h0 hn]
    | false =>
      have hzero : g 0 = h 0 := hgh 0 (by simp [codeLines_last hr h0, hn])
      by_cases hp : pos = .after
      · subst hp
        rw [weave_below_last hr hn, weave_below_last hr hn, hzero]
      · rw [weave_above_last hp hr hn, weave_above_last hp hr hn, hzero]
  | line r t hr ih =>
    cases hn : isNote r with
    | true =>
      rw [codeLines_note hr hn] at hgh
      rw [weave_note hr hn, weave_note hr hn, ih hgh]
    | false =>
      rw [codeLines_code hr hn, List.length_cons] at hgh
      have hzero : g 0 = h 0 := hgh 0 (Nat.succ_pos _)
      have hrest := ih (g := fun i => g (i + 1)) (h := fun i => h (i + 1)) fun i hi => hgh (i + 1) (Nat.succ_lt_succ hi)
      by_cases hp : pos = .after
      · subst hp
        rw [weave_below hr hn, weave_below hr hn, hzero, hrest]
      · rw [weave_above hp hr hn, weave_above hp hr hn, hzero, hrest]

end

section

variable {pos : Position} {t u : Text} {x y : Declaration × Request} {order order' : List (Declaration × Request)}
  {i : Nat}

/-- The line beside which a block goes is that of a code line. -/
theorem exists_anchorLine_eq (h : ∃ i j, x.1.Sits t i j) (pos : Position) :
    ∃ i < (codeLines t).length, anchorLine pos x.1 = lineOf t i := by
  obtain ⟨i, j, hs⟩ := h
  cases pos with
  | after => exact ⟨j, hs.stop_lt, hs.endLine⟩
  | top | before => exact ⟨i, hs.start_lt, hs.line⟩

/-- Classes that start and end on code lines are on lines of the text that are not empty. -/
theorem bounds_of_sits {d : Declaration} (h : ∃ i j, d.Sits t i j) :
    1 ≤ d.line ∧ d.endLine ≤ (rawLines t).length ∧ (rows t).getD (d.line - 1) [] ≠ [] := by
  obtain ⟨i, j, hs⟩ := h
  refine ⟨hs.line ▸ Nat.succ_pos _, hs.endLine ▸ codeIndex_lt_length hs.stop_lt, ?_⟩
  have hlt := hs.start_lt
  have hcode : (codeLines t)[i] ∈ codeLines t := List.getElem_mem hlt
  have hn : isNote (codeLines t)[i] = false := by simpa using (List.mem_filter.1 hcode).2
  rw [hs.line, lineOf, Nat.add_sub_cancel, List.getD_eq_getElem?_getD, getElem?_codeIndex hlt,
    List.getElem?_eq_getElem hlt, Option.getD_some]
  exact ne_nil_of_not_isNote hn

/-- Blocks beside classes that start and end on code lines are spread over these. -/
theorem spread_linesBeside (ho : ∀ x ∈ order, ∃ i j, x.1.Sits t i j) (pos : Position) :
    spread (fun i => linesBeside pos t order (lineOf t i)) (rawLines t) = fun k => linesBeside pos t order (k + 1) := by
  refine spread_codeIndex_self (f := fun k => linesBeside pos t order (k + 1)) fun k hk => ?_
  obtain ⟨l, hl⟩ := List.exists_mem_of_ne_nil _ hk
  obtain ⟨x, hx, -⟩ := List.mem_flatMap.1 hl
  obtain ⟨hx, hn⟩ := List.mem_filter.1 (List.mem_reverse.1 hx)
  obtain ⟨i, hi, ha⟩ := exists_anchorLine_eq (ho x hx) pos
  have hk : codeIndex (rawLines t) i = k := Nat.succ.inj (ha.symm.trans (of_decide_eq_true hn))
  exact ⟨i, hk, hk ▸ codeIndex_lt_length hi⟩

/-- A batch whose classes start and end on code lines is woven in. -/
theorem text_insertAll_eq_weave {index : Index} {rs : List Request} (hp : pos ≠ .top)
    (hd : ∀ d ∈ index.classes, ∃ i j, d.Sits t i j) (hb : ∀ r ∈ rs, r.block = [] ∨ IsComment r.block) :
    (insertAll pos index t rs).text =
      weave pos (fun i => linesBeside pos t (resolved index rs) (lineOf t i)) t := by
  have hbounds : ∀ d ∈ index.classes, 1 ≤ d.line ∧ d.endLine ≤ (rawLines t).length := fun d h =>
    ⟨(bounds_of_sits (hd d h)).1, (bounds_of_sits (hd d h)).2.1⟩
  rw [weave_eq_interleave, spread_linesBeside (fun x hx => hd x.1 (mem_resolved hx).1), text_insertAll hp hbounds hb]

theorem lineOf_eq_iff {j : Nat} (hi : i < (codeLines t).length) (hj : j < (codeLines t).length) :
    lineOf t i = lineOf t j ↔ i = j := by
  rw [Nat.le_antisymm_iff, lineOf_le_iff hi hj, lineOf_le_iff hj hi, ← Nat.le_antisymm_iff]

/-- A block goes beside the same code line of both texts. -/
theorem anchorLine_eq_iff (h : x.1.Follows t u y.1) (hi : i < (codeLines t).length) (hi' : i < (codeLines u).length) :
    anchorLine pos y.1 = lineOf u i ↔ anchorLine pos x.1 = lineOf t i := by
  obtain ⟨j, k, hx, hy⟩ := h.lines
  cases pos with
  | after =>
    simp only [anchorLine, hx.endLine, hy.endLine]
    rw [lineOf_eq_iff hx.stop_lt hi, lineOf_eq_iff hy.stop_lt hi']
  | top | before =>
    simp only [anchorLine, hx.line, hy.line]
    rw [lineOf_eq_iff hx.start_lt hi, lineOf_eq_iff hy.start_lt hi']

/-- A block is indented alike in two texts with the same code lines. -/
theorem linesAt_follows (h : Keeps₂ t u x y) (hu : codeLines u = codeLines t) : linesAt u y = linesAt t x := by
  obtain ⟨j, k, hx, hy⟩ := h.1.lines
  have hindent : indentAt (rawLines u) y.1.line = indentAt (rawLines t) x.1.line := by
    rw [hx.line, hy.line, indentAt, indentAt, lineOf, lineOf, Nat.add_sub_cancel, Nat.add_sub_cancel,
      indentOf_codeIndex hx.start_lt, indentOf_codeIndex hy.start_lt, hu]
  rw [linesAt, linesAt, hindent, h.2]

/-- The same lines are put in beside a code line of both texts. -/
theorem linesBeside_follows (h : List.Forall₂ (Keeps₂ t u) order order') (hu : codeLines u = codeLines t)
    (hi : i < (codeLines t).length) :
    linesBeside pos u order' (lineOf u i) = linesBeside pos t order (lineOf t i) := by
  induction h with
  | nil => rfl
  | cons hxy _ ih =>
    rw [linesBeside_cons, linesBeside_cons, ih, linesAt_follows hxy hu]
    simp only [anchorLine_eq_iff hxy.1 hi (hu.symm ▸ hi)]

end

/-! ### Folding below what is woven in -/

section

open foldBlankRuns (go)

variable {pos : Position} {g : Nat → List Text} {a t : Text} {run : Nat}

/-- One more newline below two is folded. -/
theorem alike_append_newline_cons (h : 2 ≤ endRun 0 a) (b : Text) : Alike (a ++ '\n' :: b) (a ++ b) := by
  rw [Alike, foldBlankRuns_append, foldBlankRuns_append, go, if_pos rfl, if_pos h]

theorem endRun_append_newline (a : Text) : endRun 0 (a ++ ['\n']) = if 2 ≤ endRun 0 a then endRun 0 a else endRun 0 a + 1 := by
  rw [endRun_append]
  rfl

/-- Below a text at whose end at least as many newlines are kept, it does not matter whether blank runs are
folded before lines are woven in. -/
theorem alike_append_weave (h : run ≤ endRun 0 a) (g : Nat → List Text) (t : Text) :
    Alike (a ++ weave pos g (go run t)) (a ++ weave pos g t) := by
  induction t using lineRec generalizing g run a with
  | nil => exact .refl _
  | last r hr h0 =>
    rw [go_of_not_mem hr]
    exact .refl _
  | line r t hr ih =>
    have hone (b : Text) : 1 ≤ endRun 0 (b ++ ['\n']) := one_le_endRun (terminated_append_newline b) (by simp)
    by_cases h0 : r = []
    · subst h0
      have hw (t : Text) : weave pos g ('\n' :: t) = '\n' :: weave pos g t := weave_note (by simp) isNote_nil
      rw [List.nil_append, hw, go, if_pos rfl]
      by_cases hrun : 2 ≤ run
      · rw [if_pos hrun]
        exact (ih h g).trans (alike_append_newline_cons (Nat.le_trans hrun h) _).symm
      · have hle : run + 1 ≤ endRun 0 (a ++ ['\n']) := by
          rw [endRun_append_newline]
          split <;> omega
        rw [if_neg hrun, hw]
        simpa using ih hle g
    · rw [go_line hr h0]
      cases hn : isNote r with
      | true =>
        rw [weave_note hr hn, weave_note hr hn]
        have hline : 1 ≤ endRun 0 (a ++ r ++ ['\n']) := hone _
        simpa using ih hline g
      | false =>
        by_cases hp : pos = .after
        · subst hp
          rw [weave_below hr hn, weave_below hr hn]
          have hline : 1 ≤ endRun 0 (a ++ r ++ '\n' :: paragraph (g 0)) := by
            refine one_le_endRun ?_ (by simp)
            rw [terminated_append_iff (by simp)]
            exact (terminated_append_newline []).append (terminated_paragraph _)
          simpa using ih hline fun i => g (i + 1)
        · rw [weave_above hp hr hn, weave_above hp hr hn]
          have hline : 1 ≤ endRun 0 (a ++ paragraph (g 0) ++ r ++ ['\n']) := hone _
          simpa using ih hline fun i => g (i + 1)

/-- It does not matter whether blank runs are folded before lines are woven in, if they are folded after. -/
theorem alike_weave_foldBlankRuns (g : Nat → List Text) (t : Text) :
    Alike (weave pos g (foldBlankRuns t)) (weave pos g t) := alike_append_weave (a := []) (Nat.le_refl 0) g t

end

/-! ### Beside classes -/

section

variable {tag : Tag} {pos : Position} {parse : Text → Index} {t : Text} {rs : List Request}

/-- Classes of a steady reader start and end on code lines. -/
theorem sits_of_steady (hs : Index.Steady parse t) : ∀ d ∈ (parse t).classes, ∃ i j, d.Sits t i j := by
  intro d hd
  have hself := hs t t rfl rfl
  rw [List.forall₂_same] at hself
  obtain ⟨i, j, hij, -⟩ := (hself d hd).lines
  exact ⟨i, j, hij⟩

/-- A name that stands for a class is one of those found. -/
theorem resolved_ne_nil {index : Index} (h : ∃ r ∈ rs, (index.resolve? r.name).isSome) : resolved index rs ≠ [] := by
  obtain ⟨r, hr, hs⟩ := h
  obtain ⟨d, hd⟩ := Option.isSome_iff_exists.1 hs
  exact List.ne_nil_of_mem (List.mem_filterMap.2 ⟨r, hr, by rw [hd]; rfl⟩)

/-- A batch beside classes that is taken out and put in again leaves the text with the batch, but for folded
blank runs. -/
theorem alike_insertAll_beside (hp : pos ≠ .top) (hs : Index.Steady parse t) (ht : ¬ tag.beginMarker <:+: t)
    (hb : ∀ r ∈ rs, IsRender tag r.block) (hr : ∃ r ∈ rs, ((parse t).resolve? r.name).isSome) :
    let removed := removeAll tag (insertAll pos (parse t) t rs).text
    Alike (insertAll pos (parse removed) removed rs).text (insertAll pos (parse t) t rs).text := by
  intro removed
  have hcomment : ∀ r ∈ rs, r.block = [] ∨ IsComment r.block := fun r hm => .inr (hb r hm).isComment
  let order := resolved (parse t) rs
  have hblocks : ∀ x ∈ order, IsRender tag x.2.block := fun x hx => hb x.2 (mem_resolved hx).2
  let g (i : Nat) : List Text := linesBeside pos t order (lineOf t i)
  have hfirst : (insertAll pos (parse t) t rs).text = weave pos g t :=
    text_insertAll_eq_weave hp (sits_of_steady hs) hcomment
  -- what is left is the text with its blank runs folded, and perhaps a newline more at its end
  let rest := t ++ lastNewline pos (spread g (rawLines t)) t
  have hspread : spread g (rawLines t) = fun i => linesBeside pos t order (i + 1) :=
    spread_linesBeside (fun x hx => sits_of_steady hs x.1 (mem_resolved hx).1) pos
  have hremoved : removed = foldBlankRuns rest := by
    have hrest : remainder pos t order = rest := by rw [remainder_eq hp hblocks, ← hspread]
    have hbounds {d : Declaration} (h : d ∈ (parse t).classes) := bounds_of_sits (sits_of_steady hs d h)
    show removeAll tag (insertAll pos (parse t) t rs).text = foldBlankRuns rest
    rw [← hrest, text_insertAll hp (fun d h => ⟨(hbounds h).1, (hbounds h).2.1⟩) hcomment]
    exact removeAll_interleave hp ht hblocks (resolved_ne_nil hr) fun x hx => hbounds (mem_resolved hx).1
  have hcode : codeLines removed = codeLines t := by
    refine codeLines_eq_of_solidLines ?_
    rw [hremoved, solidLines_foldBlankRuns]
    exact solidLines_append_lastNewline _ t
  have hfollows : List.Forall₂ (Keeps₂ t removed) order (resolved (parse removed) rs) :=
    forall₂_resolved (hs t removed rfl hcode) rs
  have hsecond : (insertAll pos (parse removed) removed rs).text = weave pos g removed := by
    rw [text_insertAll_eq_weave hp (sits_of_steady (hs.of_codeLines hcode)) hcomment]
    exact weave_congr fun i hi => linesBeside_follows hfollows hcode (hcode ▸ hi)
  rw [hsecond, hfirst, hremoved, ← weave_append_lastNewline g t]
  exact alike_weave_foldBlankRuns g rest

end

/-! ### At the top -/

section

open Directive
open foldBlankRuns (go)

variable {tag : Tag} {hs bs : List Text} {c d r t : Text}

/-- A text starts with a directive, not below empty lines, exactly if it does with its blank runs folded. -/
theorem headerLength_foldBlankRuns_iff (hn : t.head? ≠ some '\n') :
    headerLength (foldBlankRuns t) = 0 ↔ headerLength t = 0 := by
  induction t using lineRec with
  | nil => rfl
  | last r hr h0 => rw [foldBlankRuns, go_of_not_mem hr]
  | line r t hr _ =>
    have h0 : r ≠ [] := by
      rintro rfl
      exact hn rfl
    rw [foldBlankRuns, go_line hr h0, headerLength_line hr, headerLength_line hr]
    split <;> simp

/-- Leading directives are split off. -/
theorem splitHeader_fst_ne_nil (h : headerLength t ≠ 0) : (splitHeader t).1 ≠ [] := by
  obtain ⟨hs, c, -, hc, ⟨he, rfl⟩ | ⟨-, he, -, hn⟩⟩ := exists_splitHeader_eq t
  · rw [he]
    intro h0
    rw [show paragraph hs = [] from h0, List.nil_append] at h
    exact h hc
  · rw [he]
    exact fun h0 => hn (.inl h0)

/-- Blocks on like texts are alike. -/
theorem alike_stack (h : Alike c d) (h0 : c = [] ↔ d = []) (bs : List Text) : Alike (stack bs c) (stack bs d) := by
  induction bs with
  | nil => exact h
  | cons b bs ih =>
    have hnil : stack bs c = [] ↔ stack bs d = [] := by
      cases bs with
      | nil => exact h0
      | cons b bs => simp [stack, stackOn]
    show Alike (stackOn b (stack bs c)) (stackOn b (stack bs d))
    by_cases hc : stack bs c = []
    · rw [hc, hnil.1 hc]
      exact .refl _
    · simp only [stackOn, if_neg hc, if_neg (hnil.not.1 hc)]
      exact (Alike.refl b).append ((Alike.refl ['\n']).append ((Alike.refl ['\n']).append ih))

theorem foldBlankRuns_eq_nil_iff (h : t.head? ≠ some '\n') : t = [] ↔ foldBlankRuns t = [] := by
  rw [← List.head?_eq_none_iff, ← List.head?_eq_none_iff, foldBlankRuns, head?_go h]

/-- Like texts that start with lines that are not empty start with the same line. -/
theorem eq_of_alike_lines {r' : Text} (hr : '\n' ∉ r) (hr' : '\n' ∉ r') (h0 : r ≠ []) (h0' : r' ≠ [])
    (h : Alike (r ++ '\n' :: c) (r' ++ '\n' :: d)) : r = r' := by
  rw [Alike, foldBlankRuns, foldBlankRuns, go_line hr h0, go_line hr' h0'] at h
  have hline := congrArg (List.takeWhile (!isNewline ·)) h
  rwa [takeWhile_of_not_mem hr, takeWhile_of_not_mem hr'] at hline

/-- Blocks below a leading directive are not alike to blocks that start the text. -/
theorem not_alike_stack (hh : ∀ r ∈ hs, IsHead r) (h0 : hs ≠ []) (hb : ∀ b ∈ bs, IsBlock tag b) (hbs : bs ≠ []) :
    ¬ Alike (headed hs ++ d) (stack bs c) := by
  intro h
  obtain ⟨r, hs, rfl⟩ := List.exists_cons_of_ne_nil h0
  obtain ⟨b, bs, rfl⟩ := List.exists_cons_of_ne_nil hbs
  have hr := hh r List.mem_cons_self
  obtain ⟨u, hu⟩ := (hb b List.mem_cons_self).exists_stackOn_eq (stack bs c)
  have hfirst : headed (r :: hs) ++ d = r ++ '\n' :: (paragraph hs ++ ['\n'] ++ d) := by
    rw [headed, if_neg (List.cons_ne_nil r hs), paragraph_cons]
    simp
  have hsecond : stack (b :: bs) c = tag.beginMarker ++ '\n' :: u := hu
  rw [hfirst, hsecond] at h
  have hline := eq_of_alike_lines hr.1 (Marker.newline_not_mem_text (.opening tag)) hr.ne_nil tag.beginMarker_ne_nil h
  have hmarker : isDirective (Marker.opening tag).text = false := not_isDirective_marker .nil (.opening tag)
  have hdir : isDirective r = true := by rw [← isDirective_dropReturn, hr.2]
  rw [hline, hmarker] at hdir
  cases hdir

/-- Blocks at the top that are taken out and put there again leave a text that is alike exactly if no directive
stands below empty lines at the top. -/
theorem alike_foldl_atTop_iff (ht : ¬ tag.beginMarker <:+: t) (hb : ∀ b ∈ bs, IsBlock tag b) (h0 : bs ≠ []) :
    Alike (bs.foldl atTop (removeAll tag (bs.foldl atTop t))) (bs.foldl atTop t) ↔ Clear t := by
  obtain ⟨hs, c, hh, hc, hhead, hrest, -, hclear, hfold⟩ := exists_foldl_atTop_eq t
  have hb' : ∀ b ∈ bs.reverse, IsBlock tag b := fun b h => hb b (List.mem_reverse.1 h)
  have hopens : ∀ b ∈ bs, Opens b := fun b h => (hb b h).opens
  have hremoved : removeAll tag (bs.foldl atTop t) = headed hs ++ foldBlankRuns c := by
    rw [show removeAll tag (bs.foldl atTop t) = foldBlankRuns (remainder .top t []) from removeAll_foldl_atTop ht hb h0,
      remainder, ← hhead, ← hrest, go_headed hh hc]
  have hc' : (foldBlankRuns c).head? ≠ some '\n' := by rwa [foldBlankRuns, head?_go hc]
  rw [hremoved, hfold hopens h0]
  constructor
  · intro halike
    by_contra hno
    -- the text starts with empty lines, so it has no leading directives
    obtain ⟨hnl, hdir⟩ := Classical.not_imp.1 hno
    obtain ⟨u, rfl⟩ := List.head?_eq_some_iff.1 hnl
    have hsplit : splitHeader ('\n' :: u) = ([], '\n' :: u) := splitHeader_of_headerLength (headerLength_newline u)
    rw [hsplit] at hhead hrest
    have hhs : hs = [] := by
      by_contra hne
      rw [headed, if_neg hne, topHead, if_pos rfl] at hhead
      simp at hhead
    subst hhs hrest
    rw [headed, if_pos rfl, List.nil_append, List.nil_append] at halike
    -- what is left of it has some
    rw [← headerLength_foldBlankRuns_iff hc] at hdir
    obtain ⟨hs', c', hh', -, hhead', -, -, -, hfold'⟩ := exists_foldl_atTop_eq (foldBlankRuns (dropNewlines ('\n' :: u)))
    have hne : hs' ≠ [] := by
      rintro rfl
      have hhead : topHead (splitHeader (foldBlankRuns (dropNewlines ('\n' :: u)))).1 = [] := hhead'.symm
      rw [topHead, if_neg (splitHeader_fst_ne_nil hdir)] at hhead
      simp at hhead
    rw [hfold' hopens h0] at halike
    exact not_alike_stack hh' hne hb' (List.reverse_ne_nil_iff.2 h0) halike
  · intro hcl
    have hfresh : hs = [] → headerLength (foldBlankRuns c) = 0 := fun h =>
      (headerLength_foldBlankRuns_iff hc).2 (hclear hcl h)
    rw [foldl_atTop_headed hh hopens hfresh hc']
    exact (Alike.refl _).append (alike_stack (alike_foldBlankRuns c) (foldBlankRuns_eq_nil_iff hc).symm _)

/-- A batch at the top puts its blocks there one by one. -/
theorem text_insertAll_top {index : Index} {rs : List Request} (hb : ∀ r ∈ rs, IsRender tag r.block) (t : Text) :
    (insertAll .top index t rs).text = ((bottomUp .top (resolved index rs)).map (·.2.block)).foldl atTop t :=
  placeAll_top (fun _ hx => (hb _ (mem_resolved (List.mem_mergeSort.1 hx)).2).ne_nil) t

/-- Requests that are found alike have the same blocks. -/
theorem map_block_of_keeps {u v : Text} {order order' : List (Declaration × Request)}
    (h : List.Forall₂ (Keeps₂ u v) order order') : order'.map (·.2.block) = order.map (·.2.block) := by
  induction h with
  | nil => rfl
  | cons hxy _ ih => rw [List.map_cons, List.map_cons, ih, hxy.2]

variable {parse : Text → Index} {rs : List Request}

/-- A batch at the top that is taken out and put in again leaves a text that is alike exactly if no directive
stood below empty lines at the top. -/
theorem alike_insertAll_top_iff (hs : Index.Steady parse t) (ht : ¬ tag.beginMarker <:+: t)
    (hb : ∀ r ∈ rs, IsRender tag r.block) (hr : ∃ r ∈ rs, ((parse t).resolve? r.name).isSome) :
    let removed := removeAll tag (insertAll .top (parse t) t rs).text
    Alike (insertAll .top (parse removed) removed rs).text (insertAll .top (parse t) t rs).text ↔ Clear t := by
  intro removed
  let bs := (bottomUp .top (resolved (parse t) rs)).map (·.2.block)
  have hfirst : (insertAll .top (parse t) t rs).text = bs.foldl atTop t := text_insertAll_top hb t
  have hbs : ∀ b ∈ bs, IsBlock tag b := fun b hm => by
    obtain ⟨x, hx, rfl⟩ := List.mem_map.1 hm
    exact (hb x.2 (mem_resolved (List.mem_mergeSort.1 hx)).2).isBlock
  have h0 : bs ≠ [] := by
    intro h
    have hperm : (bottomUp .top (resolved (parse t) rs)).Perm (resolved (parse t) rs) := List.mergeSort_perm _ _
    rw [List.map_eq_nil_iff.1 h] at hperm
    exact resolved_ne_nil hr hperm.nil_eq.symm
  have hcode : codeLines removed = codeLines t := by
    obtain ⟨hs', c, -, -, hhead, hrest, hsolid, -, -⟩ := exists_foldl_atTop_eq t
    have hremoved : removed = foldBlankRuns (remainder .top t []) := by
      show removeAll tag (insertAll .top (parse t) t rs).text = _
      rw [hfirst]
      exact removeAll_foldl_atTop ht hbs h0
    exact codeLines_eq_of_solidLines (by rw [hremoved, solidLines_foldBlankRuns, remainder, ← hhead, ← hrest, hsolid])
  have hblocks : (bottomUp .top (resolved (parse removed) rs)).map (·.2.block) = bs :=
    map_block_of_keeps (forall₂_bottomUp .top (forall₂_resolved (hs t removed rfl hcode) rs))
  rw [text_insertAll_top hb, hblocks, show removed = removeAll tag (bs.foldl atTop t) by rw [← hfirst], hfirst]
  exact alike_foldl_atTop_iff ht hbs h0

end

/-! ### Batches -/

section

open Directive (Clear)

variable {tag : Tag} {pos : Position} {parse : Text → Index} {t : Text} {rs : List Request}

/-- **A batch of blocks of one tag that is put in, taken out and put in again lands in the same place**, told
with blank runs folded, exactly if no directive stood below empty lines at the top or the blocks do not go there.
The text holds no begin marker of the tag, and `parse` is steady on it. -/
theorem insertAll_removeAll_insertAll_iff (hs : Index.Steady parse t) (ht : ¬ tag.beginMarker <:+: t)
    (hb : ∀ r ∈ rs, IsRender tag r.block) :
    let first := (insertAll pos (parse t) t rs).text
    let removed := removeAll tag first
    foldBlankRuns (insertAll pos (parse removed) removed rs).text = foldBlankRuns first ↔
      (pos = .top → (∃ r ∈ rs, ((parse t).resolve? r.name).isSome) → Clear t) := by
  intro first removed
  by_cases hr : ∃ r ∈ rs, ((parse t).resolve? r.name).isSome
  · by_cases hp : pos = .top
    · subst hp
      exact (alike_insertAll_top_iff hs ht hb hr).trans ⟨fun h _ _ => h, fun h => h rfl hr⟩
    · exact iff_of_true (alike_insertAll_beside hp hs ht hb hr) fun h => absurd h hp
  · -- no name is found, so that nothing is put in and nothing is taken out
    have hnone : resolved (parse t) rs = [] := by
      refine List.filterMap_eq_nil_iff.2 fun r hm => ?_
      rw [Option.map_eq_none_iff]
      by_contra hd
      exact hr ⟨r, hm, Option.isSome_iff_ne_none.2 hd⟩
    have hfirst : first = t := by
      show placeAll pos t (bottomUp pos (resolved (parse t) rs)) = t
      rw [hnone, bottomUp, List.mergeSort_nil]
      rfl
    have hremoved : removed = t := by
      show removeAll tag first = t
      rw [hfirst, removeAll_of_not_isIn (by rw [isIn, Excerpt.find?_eq_none ht]; rfl)]
    refine iff_of_true ?_ fun _ h => absurd h hr
    rw [hremoved]

/-- Blocks of two classes come back, one of them below a last line without a newline. -/
theorem insertAll_removeAll_insertAll_classes :
    Index.Steady Index.ofCode gappedClasses ∧ ¬ Tag.schema.beginMarker <:+: gappedClasses ∧
      (∀ r ∈ gappedRequests, IsRender .schema r.block) ∧
      (∃ r ∈ gappedRequests, ((Index.ofCode gappedClasses).resolve? r.name).isSome) ∧
      let first := (insertAll .after (Index.ofCode gappedClasses) gappedClasses gappedRequests).text
      let removed := removeAll .schema first
      foldBlankRuns (insertAll .after (Index.ofCode removed) removed gappedRequests).text = foldBlankRuns first := by
  have hs := Index.steady_ofCode gappedClasses
  have ht : ¬ Tag.schema.beginMarker <:+: gappedClasses := by decide
  have hb : ∀ r ∈ gappedRequests, IsRender .schema r.block := fun r hm => by
    obtain ⟨name, -, rfl⟩ := List.mem_map.1 hm
    exact ⟨Block.mk .schema ["id".toList, []], rfl, by decide, by decide, rfl⟩
  refine ⟨hs, ht, hb, by decide, ?_⟩
  exact (insertAll_removeAll_insertAll_iff hs ht hb).2 (by decide)

/-- A class below a directive that stands below an empty line. -/
def sunkenDirective : Text := "\n# frozen_string_literal: true\nclass User\nend\n".toList

/-- A request for the class. -/
def sunkenRequests : List Request := [{ name := "User", block := (Block.mk .schema ["id".toList]).render }]

/-- The block goes above the directive and, put in again, below it. -/
theorem insertAll_removeAll_insertAll_sunken :
    let first := (insertAll .top (Index.ofSource sunkenDirective) sunkenDirective sunkenRequests).text
    let removed := removeAll .schema first
    let second := (insertAll .top (Index.ofSource removed) removed sunkenRequests).text
    ¬ Tag.schema.beginMarker <:+: sunkenDirective ∧ (∀ r ∈ sunkenRequests, IsRender .schema r.block) ∧
      Index.Steady Index.ofCode sunkenDirective ∧
      Index.ofCode sunkenDirective = Index.ofSource sunkenDirective ∧ Index.ofCode removed = Index.ofSource removed ∧
      foldBlankRuns first = ("# --- BEGIN annotate:schema ---\n# id\n# --- END annotate:schema ---\n\n" ++
        "# frozen_string_literal: true\nclass User\nend\n").toList ∧
      foldBlankRuns second = ("# frozen_string_literal: true\n\n# --- BEGIN annotate:schema ---\n# id\n" ++
        "# --- END annotate:schema ---\n\nclass User\nend\n").toList ∧
      foldBlankRuns second ≠ foldBlankRuns first := by
  -- the texts are spelled out, as a literal is decoded anew wherever it is compared
  unfold sunkenDirective
  repeat rewrite [String.toList_append]
  repeat rewrite [String.toList_ofList]
  refine ⟨by decide +kernel, fun r hm => ?_, Index.steady_ofCode _, by decide +kernel, by decide +kernel,
    by decide +kernel, by decide +kernel, by decide +kernel⟩
  obtain rfl := List.mem_singleton.1 hm
  exact ⟨Block.mk .schema ["id".toList], rfl, by decide, by decide, rfl⟩

end

end Placement
end Marginalia
