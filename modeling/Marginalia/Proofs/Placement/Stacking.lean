/-
# Blocks stacked at the top

Blocks that are placed at the top of a file, one after the other, form a stack
below the leading directives, a blank line apart from each other and from what
is around them (`exists_foldl_atTop_eq`). Taking them out leaves the directives, one
blank line and the rest of the text, with its blank runs folded; and if the
blocks are placed anew in what is left, they form the same stack
(`foldl_atTop_removeAll`).

Key definitions: `Placement.headed`, `Placement.stack`.
Key theorems: `Directive.exists_splitHeader_eq`, `Placement.exists_foldl_atTop_eq`,
`Placement.foldl_atTop_removeAll`.
-/
import Marginalia.Proofs.Block.Restoring
import Marginalia.Proofs.Placement.Splicing
import Marginalia.Proofs.Placement.Weaving

namespace Marginalia

open Text

/-! ### The leading directives -/

namespace Directive

variable {r t c : Text}

/-- A line of the leading directives, without its line end. -/
def IsHead (r : Text) : Prop := '\n' ∉ r ∧ isDirective (dropReturn r) = true

theorem IsHead.ne_nil (h : IsHead r) : r ≠ [] := by
  rintro rfl
  cases h.2

theorem isDirective_dropReturn (r : Text) : isDirective (dropReturn r) = isDirective r := by
  rcases dropReturn_eq r with h | h
  · rw [h]
  · have ht : trimEnd (dropReturn r ++ ['\r']) = trimEnd (dropReturn r) := by
      have hr : isBlank '\r' = true := by decide
      rw [trimEnd, dropEndWhile, List.reverse_append]
      simp [hr, trimEnd, dropEndWhile]
    have hd : isDirective (dropReturn r ++ ['\r']) = isDirective (dropReturn r) := by
      rw [isDirective, ht, isDirective]
    rw [← hd, h]

/-- No directive of the text stands below empty lines at its top. -/
def Clear (t : Text) : Prop := t.head? = some '\n' → headerLength (dropNewlines t) = 0

instance (t : Text) : Decidable (Clear t) := inferInstanceAs (Decidable (_ → _))

theorem clear_of_head? (h : t.head? ≠ some '\n') : Clear t := fun h' => absurd h' h

theorem splitHeader_of_headerLength (h : headerLength t = 0) : splitHeader t = ([], t) := by
  rw [splitHeader, h, List.take_zero, List.drop_zero, rawLines_flatten, List.flatten_nil]

theorem headerLength_line (h : '\n' ∉ r) (t : Text) : headerLength (r ++ '\n' :: t) =
    if isDirective (dropReturn r) then headerLength t + 1 else 0 := by
  rw [headerLength, lines_line h, List.takeWhile_cons]
  split <;> rfl

theorem headerLength_newline (t : Text) : headerLength ('\n' :: t) = 0 :=
  headerLength_line (List.not_mem_nil) t

theorem splitHeader_line (h : IsHead r) (t : Text) :
    splitHeader (r ++ '\n' :: t) = (r ++ '\n' :: (splitHeader t).1, (splitHeader t).2) := by
  simp only [splitHeader, headerLength_line h.1, h.2, if_true, rawLines_line h.1, List.take_succ_cons,
    List.drop_succ_cons, List.flatten_cons, List.append_assoc, List.cons_append, List.nil_append]

/-- Leading directives above a text that has none are split off. -/
theorem splitHeader_paragraph_append {hs : List Text} (h : ∀ r ∈ hs, IsHead r) (hc : headerLength c = 0) :
    splitHeader (paragraph hs ++ c) = (paragraph hs, c) := by
  induction hs with
  | nil => exact splitHeader_of_headerLength hc
  | cons r hs ih =>
    rw [List.forall_mem_cons] at h
    rw [paragraph_cons, List.append_assoc, List.cons_append, splitHeader_line h.1, ih h.2]

/-- What is split off are leading directives, and all of them; below the last of them a newline may
be absent if it is the end of the text. -/
theorem exists_splitHeader_eq (t : Text) : ∃ hs c, (∀ r ∈ hs, IsHead r) ∧ headerLength c = 0 ∧
    ((splitHeader t = (paragraph hs, c) ∧ t = paragraph hs ++ c) ∨
      c = [] ∧ splitHeader t = (t, []) ∧ t ++ ['\n'] = paragraph hs ∧ ¬ Terminated t) := by
  induction t using lineRec with
  | nil => exact ⟨[], [], by simp, rfl, .inl ⟨rfl, rfl⟩⟩
  | last r hr h0 =>
    have hl : headerLength r = if isDirective r then 1 else 0 := by
      rw [headerLength, Text.lines, rawLines_of_not_mem hr h0, List.map_singleton, dropLineEnd_of_not_mem hr,
        List.takeWhile_cons]
      split <;> rfl
    by_cases hd : isDirective r = true
    · rw [if_pos hd] at hl
      refine ⟨[r], [], ?_, rfl, .inr ⟨rfl, ?_, by simp [paragraph], not_terminated hr h0⟩⟩
      · rw [List.forall_mem_singleton]
        exact ⟨hr, by rw [isDirective_dropReturn, hd]⟩
      · rw [splitHeader, hl, rawLines_of_not_mem hr h0]
        simp
    · rw [if_neg hd] at hl
      exact ⟨[], r, by simp, hl, .inl ⟨splitHeader_of_headerLength hl, rfl⟩⟩
  | line r t hr ih =>
    by_cases hd : isDirective (dropReturn r) = true
    · obtain ⟨hs, c, hh, hc, he⟩ := ih
      have hrh : IsHead r := ⟨hr, hd⟩
      refine ⟨r :: hs, c, List.forall_mem_cons.2 ⟨hrh, hh⟩, hc, ?_⟩
      rw [splitHeader_line hrh, paragraph_cons]
      rcases he with ⟨he, rfl⟩ | ⟨rfl, he, hp, hn⟩
      · exact .inl ⟨by rw [he], by simp⟩
      · exact .inr ⟨rfl, by rw [he], by simp [← hp], terminated_line_iff.not.2 hn⟩
    · have hl : headerLength (r ++ '\n' :: t) = 0 := by rw [headerLength_line hr, if_neg hd]
      exact ⟨[], _, by simp, hl, .inl ⟨splitHeader_of_headerLength hl, rfl⟩⟩

/-- Folding blank runs brings no directive to the top. -/
theorem headerLength_foldBlankRuns (h : headerLength t = 0) (hn : t.head? ≠ some '\n') :
    headerLength (foldBlankRuns t) = 0 := by
  induction t using lineRec with
  | nil => rfl
  | last r hr h0 => rwa [foldBlankRuns, go_of_not_mem hr]
  | line r t hr _ =>
    have h0 : r ≠ [] := by
      rintro rfl
      exact hn rfl
    rw [headerLength_line hr] at h
    rw [foldBlankRuns, go_line hr h0, headerLength_line hr]
    split at h
    · cases h
    · next hd => rw [if_neg hd]

end Directive

namespace Placement

open Block Directive

/-! ### One block above the other -/

/-- Leading directives, and an empty line below them. -/
def headed (hs : List Text) : Text := if hs = [] then [] else paragraph hs ++ ['\n']

/-- A block above a text, with an empty line between them. -/
def stackOn (block c : Text) : Text := block ++ '\n' :: if c = [] then [] else '\n' :: c

/-- Blocks above a text, each with an empty line below it. -/
def stack (bs : List Text) (c : Text) : Text := bs.foldr stackOn c

variable {tag : Tag} {hs : List Text} {c t block : Text}

theorem topHead_paragraph (hs : List Text) : topHead (paragraph hs) = headed hs := by
  cases hs with
  | nil => rfl
  | cons r hs =>
    have hne : paragraph (r :: hs) ≠ [] := by simp [paragraph_cons]
    have hl : (paragraph (r :: hs)).getLast? = some '\n' := (terminated_paragraph _).resolve_left hne
    rw [topHead, if_neg hne, if_pos hl, List.append_nil, headed, if_neg (List.cons_ne_nil r hs)]

theorem topHead_of_not_terminated (hn : ¬ Terminated t) (h : t ++ ['\n'] = paragraph hs) :
    topHead t = headed hs := by
  have hne : hs ≠ [] := by
    rintro rfl
    simp at h
  rw [Terminated, not_or] at hn
  rw [topHead, if_neg hn.1, if_neg hn.2, h, headed, if_neg hne]

/-- Below the directives and an empty line a block goes above what is there. -/
theorem atTop_headed (hh : ∀ r ∈ hs, IsHead r) (hc : hs = [] → headerLength c = 0) :
    atTop (headed hs ++ c) block = headed hs ++ stackOn block (dropNewlines c) := by
  have hs' : atTop (headed hs ++ c) block =
      topHead (paragraph hs) ++ stackOn block (dropNewlines c) := by
    by_cases h0 : hs = []
    · subst h0
      rw [headed, if_pos rfl, List.nil_append, atTop_eq, splitHeader_of_headerLength (hc rfl)]
      rfl
    · have hsp : splitHeader (headed hs ++ c) = (paragraph hs, '\n' :: c) := by
        rw [headed, if_neg h0, List.append_assoc]
        exact splitHeader_paragraph_append hh (headerLength_newline c)
      have hd : dropNewlines ('\n' :: c) = dropNewlines c := rfl
      rw [atTop_eq, hsp]
      simp only [hd]
      rfl
  rw [hs', topHead_paragraph]

/-- The block is one of the tag, and it starts with its begin marker. -/
def IsBlock (tag : Tag) (block : Text) : Prop :=
  ∃ ls, Enclosed tag (tag.beginMarker :: ls) ∧ block = joinLines (tag.beginMarker :: ls)

/-- The block is a frame of the tag without indentation. -/
def IsFrame (tag : Tag) (block : Text) : Prop := ∃ cs, CommentLines cs ∧ block = frame tag [] cs

theorem IsFrame.isBlock (h : IsFrame tag block) : IsBlock tag block := by
  obtain ⟨cs, hc, rfl⟩ := h
  have he : Enclosed tag (framed tag [] cs) := enclosed_framed .nil hc
  rw [framed_nil] at he
  exact ⟨_, he, by rw [frame, framed_nil]⟩

/-- The text starts with the line of a begin marker. -/
def Opens (block : Text) : Prop := ∃ (tag : Tag) (u : Text), block = tag.beginMarker ++ '\n' :: u

/-- A block starts with the line of its begin marker. -/
theorem IsBlock.exists_stackOn_eq (h : IsBlock tag block) (c : Text) :
    ∃ t, stackOn block c = tag.beginMarker ++ '\n' :: t := by
  obtain ⟨ls, -, rfl⟩ := h
  rw [stackOn, joinLines_append (List.cons_ne_nil _ _), paragraph_cons, List.append_assoc, List.cons_append]
  exact ⟨_, rfl⟩

theorem IsBlock.opens (h : IsBlock tag block) : Opens block := by
  obtain ⟨ls, hls, rfl⟩ := h
  cases ls with
  | nil =>
    -- the end marker has a line of its own
    obtain ⟨⟨indent, inner, indent', -, -, -, he⟩, -⟩ := hls
    have hlen := congrArg List.length he
    simp at hlen
  | cons l ls => exact ⟨tag, _, joinLines_cons_cons _ _ _⟩

theorem Opens.stackOn (h : Opens block) (c : Text) : Opens (stackOn block c) := by
  obtain ⟨tag, u, rfl⟩ := h
  exact ⟨tag, u ++ '\n' :: if c = [] then [] else '\n' :: c, by simp [Placement.stackOn]⟩

theorem Opens.headerLength_eq_zero (h : Opens block) : headerLength block = 0 := by
  obtain ⟨tag, u, rfl⟩ := h
  have hn : '\n' ∉ tag.beginMarker := Marker.newline_not_mem_text (.opening tag)
  have hd : isDirective tag.beginMarker = false := not_isDirective_marker .nil (.opening tag)
  rw [headerLength_line hn, isDirective_dropReturn, hd, if_neg Bool.false_ne_true]

theorem Opens.head?_ne (h : Opens block) : block.head? ≠ some '\n' := by
  obtain ⟨tag, u, rfl⟩ := h
  obtain ⟨v, hv, -⟩ := (Marker.opening tag).exists_text_eq
  simp only [Marker.text] at hv
  rw [hv]
  simp

theorem opens_stack {bs : List Text} (hb : ∀ b ∈ bs, Opens b) (h0 : bs ≠ []) (c : Text) : Opens (stack bs c) := by
  obtain ⟨b, bs, rfl⟩ := List.exists_cons_of_ne_nil h0
  exact (hb b List.mem_cons_self).stackOn _

theorem head?_stack {bs : List Text} (hb : ∀ b ∈ bs, Opens b) (hc : c.head? ≠ some '\n') :
    (stack bs c).head? ≠ some '\n' := by
  by_cases h0 : bs = []
  · rwa [h0]
  · exact (opens_stack hb h0 c).head?_ne

/-- Blocks that are placed at the top one after the other are stacked. -/
theorem foldl_atTop_headed (hh : ∀ r ∈ hs, IsHead r) {bs : List Text} (hb : ∀ b ∈ bs, Opens b) :
    ∀ {c : Text}, (hs = [] → headerLength c = 0) → c.head? ≠ some '\n' →
      bs.foldl atTop (headed hs ++ c) = headed hs ++ stack bs.reverse c := by
  induction bs with
  | nil => exact fun _ _ => rfl
  | cons b bs ih =>
    intro c hc h0
    rw [List.forall_mem_cons] at hb
    have hopens : Opens (stackOn b c) := hb.1.stackOn c
    rw [List.foldl_cons, atTop_headed hh hc, dropNewlines_of_head? h0,
      ih hb.2 (fun _ => hopens.headerLength_eq_zero) hopens.head?_ne, List.reverse_cons, stack, stack,
      List.foldr_append]
    rfl

/-- Below the directives of a text blocks are stacked on the rest of it. -/
theorem exists_foldl_atTop_eq (t : Text) : ∃ hs c, (∀ r ∈ hs, IsHead r) ∧ c.head? ≠ some '\n' ∧
    headed hs = topHead (splitHeader t).1 ∧ c = dropNewlines (splitHeader t).2 ∧
    solidLines (headed hs ++ c) = solidLines t ∧ (Clear t → hs = [] → headerLength c = 0) ∧
    ∀ {bs : List Text}, (∀ b ∈ bs, Opens b) → bs ≠ [] → bs.foldl atTop t = headed hs ++ stack bs.reverse c := by
  obtain ⟨hs, c, hh, hc, he⟩ := exists_splitHeader_eq t
  have hsolid (hs : List Text) (c : Text) : solidLines (headed hs ++ c) = solidLines (paragraph hs ++ c) := by
    rw [headed]
    split
    · next h => rw [h, paragraph_nil]
    · rw [List.append_assoc, solidLines_append (terminated_paragraph hs), solidLines_append (terminated_paragraph hs),
        List.singleton_append, solidLines_newline_cons]
  have hsplit : headed hs = topHead (splitHeader t).1 ∧ dropNewlines c = dropNewlines (splitHeader t).2 := by
    rcases he with ⟨he, -⟩ | ⟨rfl, he, hp, hn⟩
    · rw [he]
      exact ⟨(topHead_paragraph hs).symm, rfl⟩
    · rw [he]
      exact ⟨(topHead_of_not_terminated hn hp).symm, rfl⟩
  have hfirst (b : Text) : atTop t b = headed hs ++ stackOn b (dropNewlines c) := by
    rw [atTop_eq, hsplit.1, hsplit.2]
    rfl
  refine ⟨hs, dropNewlines c, hh, head?_dropNewlines c, hsplit.1, hsplit.2, ?_, ?_, ?_⟩
  · rw [hsolid, solidLines_append (terminated_paragraph hs), solidLines_dropNewlines,
      ← solidLines_append (terminated_paragraph hs)]
    rcases he with ⟨-, rfl⟩ | ⟨rfl, -, hp, -⟩
    · rfl
    · rw [List.append_nil, ← hp, solidLines_append_newlines t (by simp)]
  · rintro hclear rfl
    rcases he with ⟨-, rfl⟩ | ⟨rfl, -, -, -⟩
    · by_cases hn : t.head? = some '\n'
      · exact hclear hn
      · rwa [dropNewlines_of_head? hn]
    · rfl
  · intro bs hb h0
    obtain ⟨b, bs, rfl⟩ := List.exists_cons_of_ne_nil h0
    rw [List.forall_mem_cons] at hb
    have hopens : Opens (stackOn b (dropNewlines c)) := hb.1.stackOn _
    rw [List.foldl_cons, hfirst b, foldl_atTop_headed hh hb.2 (fun _ => hopens.headerLength_eq_zero) hopens.head?_ne,
      List.reverse_cons, stack, stack, List.foldr_append]
    rfl

/-! ### The stack taken out -/

/-- A line and an empty line end with two newlines. -/
theorem trailingNewlines_headed (hh : ∀ r ∈ hs, IsHead r) : trailingNewlines (headed hs) ≤ 2 := by
  rcases List.eq_nil_or_concat hs with rfl | ⟨init, r, rfl⟩
  · exact Nat.zero_le 2
  · obtain ⟨hn, -⟩ := hh r (by simp)
    have h0 : r ≠ [] := (hh r (by simp)).ne_nil
    have he : headed (init.concat r) = (paragraph init ++ r) ++ ['\n', '\n'] := by
      rw [headed, if_neg (by simp), List.concat_eq_append, paragraph_append]
      simp [paragraph]
    have hl : ∀ c, (paragraph init ++ r).getLast? = some c → ¬ isNewline c := by
      intro c hc h
      rw [List.getLast?_append_of_ne_nil _ h0] at hc
      have hc' : c = '\n' := eq_of_beq h
      exact hn (hc' ▸ List.mem_of_getLast? hc)
    rw [trailingNewlines, he, (dropEndWhile_append (by simp [isNewline]) hl).2]
    exact Nat.le_refl 2

theorem excise_stackOn (hh : ∀ r ∈ hs, IsHead r) (hc : c.head? ≠ some '\n') :
    excise ⟨headed hs, block, '\n' :: if c = [] then [] else '\n' :: c⟩ = headed hs ++ c := by
  have hsep : headed hs = [] ∨ (after? ['\n', '\n'] (headed hs).reverse).isSome := by
    rcases List.eq_nil_or_concat hs with rfl | ⟨init, r, rfl⟩
    · exact .inl rfl
    · right
      rw [headed, if_neg (by simp), List.concat_eq_append, paragraph_append]
      simp [paragraph, after?]
  have hd : dropSeparator (headed hs) ('\n' :: if c = [] then [] else '\n' :: c) = c := by
    simp only [dropSeparator, if_pos hsep]
    split
    · next h0 =>
      split at h0
      · cases h0
      · exact (List.cons.inj h0).2.symm
    · next h0 =>
      split
      · next h => rw [h]
      · next h => exact absurd (by rw [if_neg h]) (h0 c)
  have hl : leadingNewlines c = 0 := by
    cases c with
    | nil => rfl
    | cons x c =>
      have hx : x ≠ '\n' := by simpa using hc
      simp [leadingNewlines, isNewline, hx]
  rw [excise, hd, joinSeam, if_pos (by rw [hl]; exact trailingNewlines_headed hh)]

/-- Taking out a stack of blocks leaves what is above and below it. -/
theorem exciseAll_stack (hh : ∀ r ∈ hs, IsHead r) {bs : List Text} (hb : ∀ b ∈ bs, IsBlock tag b)
    (hc : c.head? ≠ some '\n') (hm : ¬ tag.beginMarker <:+: headed hs ++ c) :
    exciseAll tag (headed hs ++ stack bs c) = headed hs ++ c := by
  induction bs with
  | nil => exact exciseAll_of_find?_eq_none (Excerpt.find?_eq_none hm)
  | cons b bs ih =>
    rw [List.forall_mem_cons] at hb
    obtain ⟨ls, hls, rfl⟩ := hb.1
    have hm' : ¬ tag.beginMarker <:+: headed hs := fun h => hm (h.trans ⟨[], c, rfl⟩)
    have ht : Terminated (headed hs) := by
      rw [headed]
      split
      · exact terminated_nil
      · exact terminated_append_newline _
    have hf := Excerpt.find?_joinLines ht hm' hls ('\n' :: if stack bs c = [] then [] else '\n' :: stack bs c)
    have he : headed hs ++ stack (joinLines (tag.beginMarker :: ls) :: bs) c =
        headed hs ++ (joinLines (tag.beginMarker :: ls) ++
          '\n' :: if stack bs c = [] then [] else '\n' :: stack bs c) := rfl
    rw [he, exciseAll_of_find?_eq_some hf, excise_stackOn hh (head?_stack (fun b hm => (hb.2 b hm).opens) hc), ih hb.2]

/-! ### Folding -/

open foldBlankRuns (go)

theorem go_headed (hh : ∀ r ∈ hs, IsHead r) (hc : c.head? ≠ some '\n') :
    foldBlankRuns (headed hs ++ c) = headed hs ++ foldBlankRuns c := by
  by_cases h0 : hs = []
  · rw [headed, if_pos h0]
    rfl
  · have hl : ∀ r ∈ hs, '\n' ∉ r ∧ r ≠ [] := fun r hr => ⟨(hh r hr).1, (hh r hr).ne_nil⟩
    rw [headed, if_neg h0, List.append_assoc, foldBlankRuns, go_paragraph_append hl, if_neg h0,
      List.singleton_append, go, if_pos rfl, if_neg (by omega), go_of_head? hc, foldBlankRuns,
      List.append_assoc, List.singleton_append]

theorem IsFrame.go_stackOn (h : IsFrame tag block) (hc : c.head? ≠ some '\n') :
    foldBlankRuns (stackOn block c) = stackOn block (foldBlankRuns c) := by
  obtain ⟨cs, hcs, rfl⟩ := h
  have hl : ∀ l ∈ framed tag [] cs, '\n' ∉ l ∧ l ≠ [] := fun l hl =>
    ⟨newline_not_mem_framed .nil hcs l hl, ne_nil_of_mem_framed .nil hcs l hl⟩
  have h1 : go 1 (if c = [] then [] else '\n' :: c) =
      if foldBlankRuns c = [] then [] else '\n' :: foldBlankRuns c := by
    cases c with
    | nil => rfl
    | cons x c =>
      have hx : x ≠ '\n' := by simpa using hc
      have hne : foldBlankRuns (x :: c) ≠ [] := by simp [foldBlankRuns, go, hx]
      rw [if_neg (List.cons_ne_nil x c), if_neg hne, go, if_pos rfl, if_neg (by omega), go_of_head? hc,
        foldBlankRuns]
  rw [stackOn, frame_append_newline, foldBlankRuns, go_paragraph_append hl, if_neg framed_ne_nil, h1,
    ← frame_append_newline]
  rfl

theorem foldBlankRuns_stack {bs : List Text} (hb : ∀ b ∈ bs, IsFrame tag b) (hc : c.head? ≠ some '\n') :
    foldBlankRuns (stack bs c) = stack bs (foldBlankRuns c) := by
  induction bs with
  | nil => rfl
  | cons b bs ih =>
    rw [List.forall_mem_cons] at hb
    show foldBlankRuns (stackOn b (stack bs c)) = stackOn b (stack bs (foldBlankRuns c))
    rw [hb.1.go_stackOn (head?_stack (fun b hm => (hb.2 b hm).isBlock.opens) hc), ih hb.2]

/-- Taking out blocks that were placed at the top and placing them anew folds the blank runs. -/
theorem foldl_atTop_removeAll {bs : List Text} (hb : ∀ b ∈ bs, IsFrame tag b) (h0 : bs ≠ [])
    (hm : ¬ tag.beginMarker <:+: t) (hn : Clear t)
    (hlt : (solidLines t).length < (solidLines (bs.foldl atTop t)).length) :
    bs.foldl atTop (removeAll tag (bs.foldl atTop t)) = foldBlankRuns (bs.foldl atTop t) ∧
      solidLines (removeAll tag (bs.foldl atTop t)) = solidLines t := by
  obtain ⟨hs, c, hh, hc, -, -, hsolid, htop, hfold⟩ := exists_foldl_atTop_eq t
  have hb' : ∀ b ∈ bs.reverse, IsFrame tag b := fun b h => hb b (List.mem_reverse.1 h)
  have hblock : ∀ b ∈ bs, IsBlock tag b := fun b h => (hb b h).isBlock
  have hblock' : ∀ b ∈ bs.reverse, IsBlock tag b := fun b h => (hb' b h).isBlock
  have hopens : ∀ b ∈ bs, Opens b := fun b h => (hblock b h).opens
  have hopens' : ∀ b ∈ bs.reverse, Opens b := fun b h => (hblock' b h).opens
  have hm' : ¬ (Marker.opening tag).text <:+: headed hs ++ c := by
    rwa [Marker.infix_iff_solidLines, hsolid, ← Marker.infix_iff_solidLines]
  have hx : exciseAll tag (headed hs ++ stack bs.reverse c) = headed hs ++ c := exciseAll_stack hh hblock' hc hm'
  rw [hfold hopens h0] at hlt ⊢
  have hin : isIn tag (headed hs ++ stack bs.reverse c) = true := by
    refine isIn_of_length_lt ?_
    rwa [hx, hsolid]
  have hT : removeAll tag (headed hs ++ stack bs.reverse c) = headed hs ++ foldBlankRuns c := by
    rw [removeAll, if_pos hin, hx, go_headed hh hc]
  have hc' : (foldBlankRuns c).head? ≠ some '\n' := by
    rw [foldBlankRuns, head?_go hc]
    exact hc
  have hlen (h : hs = []) : headerLength (foldBlankRuns c) = 0 := headerLength_foldBlankRuns (htop hn h) hc
  rw [hT, foldl_atTop_headed hh hopens hlen hc', go_headed hh (head?_stack hopens' hc),
    foldBlankRuns_stack hb' hc, ← go_headed hh hc, solidLines_foldBlankRuns]
  exact ⟨rfl, hsolid⟩

end Placement
end Marginalia
