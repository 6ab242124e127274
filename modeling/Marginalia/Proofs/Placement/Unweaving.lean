/-
# Woven blocks taken out

Where blocks of a tag were put into a text without begin markers of the tag,
taking the blocks of the tag out again leaves the text as it was, with its
blank runs folded (`exciseAll_interleave`); only that a last line without a
newline has one if a block was put below it. Weaving the same frames into what
is left restores the woven text, with its blank runs folded (`weave_removeAll`).

Key definitions: `Placement.AreFrames`, `Placement.AreBlocks`, `Placement.lastNewline`.
Key theorems: `Placement.exists_exciseAll_paragraph`, `Placement.exciseAll_interleave`,
`Placement.weave_removeAll`.
-/
import Marginalia.Proofs.Block.Restoring
import Marginalia.Proofs.Placement.Weaving

namespace Marginalia
namespace Placement

open Text Block

/-- The lines are those of frames of the tag, one below the other. -/
def AreFrames (tag : Tag) (ls : List Text) : Prop :=
  ∃ fs : List (Text × List Text), (∀ f ∈ fs, IsIndentation f.1 ∧ CommentLines f.2) ∧
    ls = fs.flatMap fun f => framed tag f.1 f.2

/-- The lines are those of blocks of the tag, one below the other. -/
def AreBlocks (tag : Tag) (ls : List Text) : Prop :=
  ∃ bs : List (List Text), (∀ b ∈ bs, Enclosed tag b) ∧ ls = bs.flatten

variable {tag : Tag}

/-- Lines of blocks do not start with an empty one. -/
theorem AreBlocks.head_ne_nil {ls : List Text} (h : AreBlocks tag ls) : ∀ l ∈ ls.head?, '\n' ∉ l ∧ l ≠ [] := by
  obtain ⟨bs, hb, rfl⟩ := h
  cases bs with
  | nil => exact nofun
  | cons b bs =>
    rw [List.forall_mem_cons] at hb
    intro l hl
    obtain ⟨m, ms, hm⟩ := List.exists_cons_of_ne_nil hb.1.ne_nil
    exact hb.1.head_ne_nil l (by simpa [hm] using hl)

namespace AreFrames

variable {ls ms : List Text}

theorem nil (tag : Tag) : AreFrames tag [] := ⟨[], by simp, rfl⟩

theorem framed {indent : Text} (hi : IsIndentation indent) (h : CommentLines ls) :
    AreFrames tag (framed tag indent ls) :=
  ⟨[(indent, ls)], by simpa using ⟨hi, h⟩, by simp⟩

theorem append (hl : AreFrames tag ls) (hm : AreFrames tag ms) : AreFrames tag (ls ++ ms) := by
  obtain ⟨fs, hf, rfl⟩ := hl
  obtain ⟨gs, hg, rfl⟩ := hm
  exact ⟨fs ++ gs, List.forall_mem_append.2 ⟨hf, hg⟩, by rw [List.flatMap_append]⟩

theorem areBlocks (h : AreFrames tag ls) : AreBlocks tag ls := by
  obtain ⟨fs, hf, rfl⟩ := h
  refine ⟨fs.map fun f => Block.framed tag f.1 f.2, fun b hb => ?_, List.flatMap_def⟩
  obtain ⟨f, hm, rfl⟩ := List.mem_map.1 hb
  exact enclosed_framed (hf f hm).1 (hf f hm).2

theorem exists_of_mem (h : AreFrames tag ls) {l : Text} (hl : l ∈ ls) :
    ∃ indent u, IsIndentation indent ∧ l = indent ++ '#' :: u ∧ '\n' ∉ l := by
  obtain ⟨fs, hf, rfl⟩ := h
  obtain ⟨f, hm, hl⟩ := List.mem_flatMap.1 hl
  obtain ⟨u, hu, hn⟩ := exists_of_mem_framed (hf f hm).1 (hf f hm).2 hl
  exact ⟨f.1, u, (hf f hm).1, hu, hn⟩

theorem whole (h : AreFrames tag ls) : ∀ l ∈ ls, '\n' ∉ l ∧ l ≠ [] := by
  intro l hl
  obtain ⟨indent, u, -, he, hn⟩ := h.exists_of_mem hl
  exact ⟨hn, by simp [he]⟩

theorem isNote (h : AreFrames tag ls) : ∀ l ∈ ls, isNote l = true := by
  intro l hl
  obtain ⟨indent, u, hi, rfl, -⟩ := h.exists_of_mem hl
  exact isNote_comment hi u

end AreFrames

section

variable {pos : Position} {g : Nat → List Text} {a c t x : Text} {ls : List Text}

/-- Blocks between two texts are taken out. -/
theorem exists_exciseAll_paragraph (hl : AreBlocks tag ls) (hx : Alike x (a ++ (paragraph ls ++ c)))
    (ha : Terminated a) (hb : ¬ tag.beginMarker <:+: a) (h0 : a = [] → c.head? ≠ some '\n') :
    ∃ x', exciseAll tag x = exciseAll tag x' ∧ Alike x' (a ++ c) := by
  obtain ⟨bs, hbs, rfl⟩ := hl
  induction bs generalizing x with
  | nil => exact ⟨x, rfl, hx⟩
  | cons b bs ih =>
    rw [List.forall_mem_cons] at hbs
    have hrest : AreBlocks tag bs.flatten := ⟨bs, hbs.2, rfl⟩
    rw [List.flatten_cons, paragraph_append, List.append_assoc, ← joinLines_append hbs.1.ne_nil] at hx
    have hhead : a = [] → (paragraph bs.flatten ++ c).head? ≠ some '\n' := by
      intro h
      cases hls : bs.flatten with
      | nil => exact h0 h
      | cons l ls =>
        obtain ⟨hn, hne⟩ := hrest.head_ne_nil l (by rw [hls]; rfl)
        obtain ⟨d, l, rfl⟩ := List.exists_cons_of_ne_nil hne
        have hd : d ≠ '\n' := fun h => hn (h ▸ List.mem_cons_self)
        simpa [paragraph_cons] using hd
    obtain ⟨x₁, h₁, hx₁⟩ := exists_exciseAll_eq hx ha hb hbs.1 hhead
    obtain ⟨x₂, h₂, hx₂⟩ := ih hbs.2 hx₁
    exact ⟨x₂, h₁.trans h₂, hx₂⟩

/-- A text without begin markers is left as it is. -/
theorem exciseAll_of_alike (hx : Alike x a) (hb : ¬ tag.beginMarker <:+: a) : exciseAll tag x = x := by
  have hb' : ¬ (Marker.opening tag).text <:+: x := by
    rwa [Marker.infix_iff_solidLines, hx.solidLines_eq, ← Marker.infix_iff_solidLines]
  exact exciseAll_of_find?_eq_none (Excerpt.find?_eq_none hb')

theorem not_infix_append_line (ha : Terminated a) (hb : ¬ tag.beginMarker <:+: a)
    (hc : ¬ tag.beginMarker <:+: c) : ¬ tag.beginMarker <:+: a ++ (c ++ ['\n']) := by
  have hw : '\n' ∉ tag.beginMarker := Marker.newline_not_mem_text (.opening tag)
  intro h
  rcases infix_append_of_terminated hw ha h with h | h
  · exact hb h
  · exact ((infix_append_newline hw).1 h).elim hc fun h => tag.beginMarker_ne_nil (List.infix_nil.1 h)

/-- The newline that is left behind at the end of a text by lines below its last line. -/
def lastNewline (pos : Position) (g : Nat → List Text) (t : Text) : Text :=
  if pos = .after ∧ ¬ Terminated t ∧ g ((rawLines t).length - 1) ≠ [] then ['\n'] else []

theorem lastNewline_line {r : Text} (hr : '\n' ∉ r) (t : Text) :
    lastNewline pos g (r ++ '\n' :: t) = lastNewline pos (fun i => g (i + 1)) t := by
  simp only [lastNewline, terminated_line_iff, rawLines_line hr, List.length_cons, Nat.add_sub_cancel]
  by_cases ht : Terminated t
  · simp [ht]
  · have h0 : 0 < (rawLines t).length := by
      rw [List.length_pos_iff]
      exact fun h => ht (.inl (rawLines_eq_nil_iff.1 h))
    simp only [Nat.sub_add_cancel h0]

/-- Taking out all blocks that were put in leaves the text, below one without begin markers, but for folded
blank runs. -/
theorem exciseAll_append_interleave (hg : ∀ i, AreBlocks tag (g i))
    (h0 : ∀ i, g i ≠ [] → pos ≠ .after → (rows t).getD i [] ≠ []) (ht : ¬ tag.beginMarker <:+: t)
    (hx : Alike x (a ++ interleave pos g t)) (ha : Terminated a)
    (hb : ¬ tag.beginMarker <:+: a) : Alike (exciseAll tag x) (a ++ (t ++ lastNewline pos g t)) := by
  have hw : '\n' ∉ tag.beginMarker := Marker.newline_not_mem_text (.opening tag)
  induction t using lineRec generalizing a g x with
  | nil =>
    rw [show interleave pos g [] = [] from rfl, List.append_nil] at hx
    rw [exciseAll_of_alike hx hb, lastNewline, if_neg fun h => h.2.1 terminated_nil, List.nil_append, List.append_nil]
    exact hx
  | last r hr hr0 =>
    have hlast : lastNewline pos g r = if pos = .after ∧ g 0 ≠ [] then ['\n'] else [] := by
      simp [lastNewline, not_terminated hr hr0, rawLines_of_not_mem hr hr0]
    have har : ¬ tag.beginMarker <:+: a ++ r := fun h => (infix_append_of_terminated hw ha h).elim hb ht
    rw [hlast]
    by_cases hp : pos = .after
    · subst hp
      rw [interleave_below_last hr hr0] at hx
      by_cases hg0 : g 0 = []
      · rw [if_pos hg0] at hx
        rwa [if_neg fun h => h.2 hg0, List.append_nil, exciseAll_of_alike hx har]
      · rw [if_neg hg0] at hx
        have har' := not_infix_append_line ha hb ht
        have hx' : Alike x (a ++ (r ++ ['\n']) ++ (paragraph (g 0) ++ [])) := by simpa using hx
        obtain ⟨x', he, hx'⟩ := exists_exciseAll_paragraph (hg 0) hx'
          (ha.append (terminated_append_newline r)) har' (fun h => by simp at h)
        rw [List.append_nil] at hx'
        rwa [if_pos ⟨rfl, hg0⟩, he, exciseAll_of_alike hx' har']
    · rw [interleave_above_last hp hr hr0] at hx
      obtain ⟨x', he, hx'⟩ := exists_exciseAll_paragraph (hg 0) hx ha hb fun _ h => hr (List.mem_of_head? h)
      rwa [if_neg fun h => hp h.1, List.append_nil, he, exciseAll_of_alike hx' har]
  | line r t hr ih =>
    rw [infix_append_newline hw, not_or] at ht
    have har := not_infix_append_line ha hb ht.1
    have ha' : Terminated (a ++ (r ++ ['\n'])) := ha.append (terminated_append_newline r)
    rw [rows_line hr] at h0
    have hih {x : Text} (hx : Alike x (a ++ (r ++ ['\n']) ++ interleave pos (fun i => g (i + 1)) t)) :
        Alike (exciseAll tag x) (a ++ (r ++ '\n' :: t ++ lastNewline pos g (r ++ '\n' :: t))) := by
      have := ih (g := fun i => g (i + 1)) (fun i => hg (i + 1)) (fun i hi hp => h0 (i + 1) hi hp) ht.2 hx ha' har
      rw [lastNewline_line hr]
      simpa using this
    by_cases hp : pos = .after
    · subst hp
      rw [interleave_below hr] at hx
      have hx' : Alike x (a ++ (r ++ ['\n']) ++ (paragraph (g 0) ++ interleave .after (fun i => g (i + 1)) t)) := by
        simpa using hx
      obtain ⟨x', he, hx'⟩ := exists_exciseAll_paragraph (hg 0) hx' ha' har (fun h => by simp at h)
      rw [he]
      exact hih hx'
    · rw [interleave_above hp hr] at hx
      by_cases hg0 : g 0 = []
      · rw [hg0, paragraph_nil, List.nil_append] at hx
        exact hih (by simpa using hx)
      · obtain ⟨x', he, hx'⟩ := exists_exciseAll_paragraph (hg 0) hx ha hb fun _ h => by
          obtain ⟨d, r, rfl⟩ := List.exists_cons_of_ne_nil (h0 0 hg0 hp : r ≠ [])
          exact hr (Option.some.inj h ▸ List.mem_cons_self)
        rw [he]
        exact hih (by simpa using hx')

/-- Taking out all blocks that were put in leaves the text, but for folded blank runs. -/
theorem exciseAll_interleave (hg : ∀ i, AreBlocks tag (g i))
    (h0 : ∀ i, g i ≠ [] → pos ≠ .after → (rows t).getD i [] ≠ []) (ht : ¬ tag.beginMarker <:+: t) :
    Alike (exciseAll tag (interleave pos g t)) (t ++ lastNewline pos g t) :=
  exciseAll_append_interleave (a := []) hg h0 ht (Alike.refl _) terminated_nil
    fun h => tag.beginMarker_ne_nil (List.infix_nil.1 h)

theorem solidLines_append_lastNewline (g : Nat → List Text) (t : Text) :
    solidLines (t ++ lastNewline pos g t) = solidLines t := by
  unfold lastNewline
  split
  · exact (solidLines_append_newline t []).trans (List.append_nil _)
  · rw [List.append_nil]

/-- The newline that is left behind changes nothing if the text is woven again. -/
theorem weave_append_lastNewline (g : Nat → List Text) (t : Text) :
    weave pos g (t ++ lastNewline pos (spread g (rawLines t)) t) = weave pos g t := by
  unfold lastNewline
  split
  case isFalse => rw [List.append_nil]
  case isTrue h =>
    obtain ⟨rfl, ht, h⟩ := h
    induction t using lineRec generalizing g with
    | nil => exact absurd terminated_nil ht
    | last r hr h0 =>
      rw [rawLines_of_not_mem hr h0] at h
      cases hn : isNote r with
      | true => exact absurd (spread_note _ _ hn).1 h
      | false =>
        have hg0 : g 0 ≠ [] := fun h0 => h ((spread_code _ _ hn).1.trans h0)
        rw [weave_below hr hn, weave_below_last hr hn, if_neg hg0, weave_nil, List.append_nil]
    | line r t hr ih =>
      have hlen : (rawLines t).length - 1 + 1 = (rawLines t).length :=
        Nat.sub_add_cancel (List.length_pos_iff.2 fun h0 =>
          ht (terminated_line_iff.2 (.inl (rawLines_eq_nil_iff.1 h0))))
      rw [rawLines_line hr, List.length_cons, Nat.add_sub_cancel, ← hlen] at h
      rw [terminated_line_iff] at ht
      rw [List.append_assoc, List.cons_append]
      cases hn : isNote r with
      | true =>
        have hs := spread_note g (rawLines t) ((isNote_append_newline r).trans hn)
        rw [weave_note hr hn, weave_note hr hn, ih g ht fun h0 => h ((congrFun hs.2 _).trans h0)]
      | false =>
        have hs := spread_code g (rawLines t) ((isNote_append_newline r).trans hn)
        rw [weave_below hr hn, weave_below hr hn, ih _ ht fun h0 => h ((congrFun hs.2 _).trans h0)]

/-- Taking out what was woven in and weaving it in again folds the blank runs of the woven text. -/
theorem weave_removeAll (hg : ∀ i, AreFrames tag (g i)) (ht : ¬ tag.beginMarker <:+: t)
    (hlt : (solidLines t).length < (solidLines (weave pos g t)).length) :
    weave pos g (removeAll tag (weave pos g t)) = foldBlankRuns (weave pos g t) ∧
      solidLines (removeAll tag (weave pos g t)) = solidLines t := by
  let f : Nat → List Text := spread g (rawLines t)
  have hf : ∀ i, AreBlocks tag (f i) := spread_induction (AreFrames.nil tag).areBlocks fun i => (hg i).areBlocks
  have hrow : ∀ i, f i ≠ [] → pos ≠ .after → (rows t).getD i [] ≠ [] := fun _ h _ => row_ne_nil_of_spread h
  have hu : Alike (exciseAll tag (weave pos g t)) (t ++ lastNewline pos f t) :=
    weave_eq_interleave g t ▸ exciseAll_interleave hf hrow ht
  have hwu : weave pos g (t ++ lastNewline pos f t) = weave pos g t := weave_append_lastNewline g t
  have hsu : solidLines (t ++ lastNewline pos f t) = solidLines t := solidLines_append_lastNewline f t
  have hlt' : (solidLines (exciseAll tag (weave pos g t))).length < (solidLines (weave pos g t)).length := by
    rwa [hu.solidLines_eq, hsu]
  rw [Alike] at hu
  rw [removeAll, if_pos (isIn_of_length_lt hlt'), hu, ← foldBlankRuns_weave fun i => (hg i).whole, hwu,
    solidLines_foldBlankRuns]
  exact ⟨rfl, hsu⟩

end

end Placement
end Marginalia
