/-
# Blocks that hold notes alone

Where all blocks of a text are notes, its code lines are outside all blocks
(`Text.outside_lineOf_of_noted`), and taking blocks out leaves them. Where taking
out the blocks of a tag leaves the code lines, these blocks are notes
(`Text.isNote_of_codeLines_removeAll`).

Key definition: `Text.BlocksNoted`.
Key theorems: `Text.codeLines_removeAll`, `Text.isNote_of_codeLines_removeAll`,
`Text.outside_lineOf_of_noted`.
-/
import Mathlib.Data.List.Flatten
import Marginalia.Proofs.Block.Keeping
import Marginalia.Proofs.Text.Code

namespace Marginalia
namespace Text

/-- The lines of all blocks are notes. -/
def BlocksNoted (t : Text) : Prop := ∀ tag, ∀ ls ∈ blocks tag t, ∀ l ∈ ls, isNote l = true

variable {t u : Text} {tag : Tag} {tags : List Tag} {ps : List Part} {pre post : List Text} {l : Text}

/-- Changes that keep what is not noted keep the notes, if what they put in is notes. -/
theorem BlocksNoted.of_keeps (h : BlocksNoted t) (hk : Keeps tags t u)
    (hu : ∀ tag ∈ tags, ∀ ls ∈ blocks tag u, ∀ l ∈ ls, isNote l = true) : BlocksNoted u := by
  intro tag ls hls
  by_cases ht : tag ∈ tags
  · exact hu tag ht ls hls
  · exact h tag ls (hk.blocks_eq ht ▸ hls)

theorem BlocksNoted.removeAll (h : BlocksNoted t) (ht : WellMarked t) (tag : Tag) :
    BlocksNoted (Block.removeAll tag t) := by
  refine h.of_keeps (keeps_removeAll ht tag) fun s hs ls hls => ?_
  rw [List.mem_singleton.1 hs, blocks_removeAll ht tag] at hls
  cases hls

/-- The lines of a part are those of a line of the source, or of a block of the text. -/
theorem isNote_of_block (h : BlocksNoted t) (hp : .block tag pre ∈ parts t) : ∀ l ∈ pre, isNote l = true :=
  h tag pre (List.mem_filterMap.2 ⟨_, hp, if_pos rfl⟩)

/-! ### Code lines and the blocks of a tag -/

theorem codeLines_eq_flatMap (h : WellMarked t) :
    codeLines t = ((parts t).flatMap Part.lines).filter (!isNote ·) := by
  rw [codeLines_eq_filter, ← h.hasParts.2]

theorem codeLines_removeAll_eq_flatMap (h : WellMarked t) (tag : Tag) : codeLines (Block.removeAll tag t) =
    (((parts t).filter (·.Avoids tag)).flatMap Part.lines).filter (!isNote ·) := by
  rw [codeLines_eq_filter, h.hasParts.removeAll.2]

/-- Texts that differ by blocks of a tag have the same code without them. -/
theorem Keeps.codeLines_removeAll (hk : Keeps [tag] t u) (h : WellMarked t) :
    codeLines (Block.removeAll tag u) = codeLines (Block.removeAll tag t) := by
  have hothers (ps : List Part) : ps.filter (·.Avoids tag) = Part.others [tag] ps :=
    List.filter_congr fun p _ => by simp
  rw [codeLines_removeAll_eq_flatMap hk.1, codeLines_removeAll_eq_flatMap h, hothers, hothers, hk.2]

/-- Blocks that are notes may be taken out. -/
theorem codeLines_removeAll (h : WellMarked t) (hn : BlocksNoted t) (tag : Tag) :
    codeLines (Block.removeAll tag t) = codeLines t := by
  rw [codeLines_removeAll_eq_flatMap h, codeLines_eq_flatMap h]
  have hps : ∀ p ∈ parts t, ¬ p.Avoids tag → ∀ l ∈ p.lines, isNote l = true := by
    intro p hp ha
    cases p with
    | source l => exact absurd rfl ha
    | block s ls => exact isNote_of_block hn hp
  generalize parts t = ps at hps
  induction ps with
  | nil => rfl
  | cons p ps ih =>
    rw [List.forall_mem_cons] at hps
    rw [List.flatMap_cons, List.filter_append, ← ih hps.2, List.filter_cons]
    split
    · rw [List.flatMap_cons, List.filter_append]
    · next hp =>
      have hnone : p.lines.filter (!isNote ·) = [] :=
        List.filter_eq_nil_iff.2 fun l hl => by simp [hps.1 (by simpa using hp) l hl]
      rw [hnone, List.nil_append]

/-- Blocks without which there is as much code are notes. -/
theorem isNote_of_length_le : ∀ {ps : List Part}, ((ps.flatMap Part.lines).filter (!isNote ·)).length ≤
      (((ps.filter (·.Avoids tag)).flatMap Part.lines).filter (!isNote ·)).length →
    ∀ p ∈ ps, ¬ p.Avoids tag → ∀ l ∈ p.lines, isNote l = true
  | [], _ => by simp
  | p :: ps, h => by
    have hsub : (((ps.filter (·.Avoids tag)).flatMap Part.lines).filter (!isNote ·)).length ≤
        ((ps.flatMap Part.lines).filter (!isNote ·)).length :=
      ((List.filter_sublist.flatMap Part.lines).filter _).length_le
    rw [List.flatMap_cons, List.filter_append, List.length_append, List.filter_cons] at h
    rw [List.forall_mem_cons]
    split at h
    · next hp =>
      rw [List.flatMap_cons, List.filter_append, List.length_append] at h
      exact ⟨fun ha => absurd (by simpa using hp) ha, isNote_of_length_le (by omega)⟩
    · have h0 : p.lines.filter (!isNote ·) = [] := List.length_eq_zero_iff.1 (by omega)
      exact ⟨fun _ l hl => by simpa using List.filter_eq_nil_iff.1 h0 l hl, isNote_of_length_le (by omega)⟩

/-- Blocks of a tag that can be taken out without touching the code are notes. -/
theorem isNote_of_codeLines_removeAll (h : WellMarked t) (he : codeLines (Block.removeAll tag t) = codeLines t) :
    ∀ ls ∈ blocks tag t, ∀ l ∈ ls, isNote l = true := by
  rw [codeLines_removeAll_eq_flatMap h, codeLines_eq_flatMap h] at he
  intro ls hls
  obtain ⟨p, hp, hb⟩ := List.mem_filterMap.1 hls
  have hnote := isNote_of_length_le (Nat.le_of_eq (congrArg List.length he.symm)) p hp (by simp [Part.Avoids, hb])
  cases p with
  | source l => cases hb
  | block s ms =>
    simp only [Part.block?] at hb
    split at hb
    · cases hb
      exact hnote
    · cases hb

/-! ### Where the code is -/

/-- No block is open above a line that is no note, if all blocks are notes. -/
theorem paired_of_not_isNote (hl : isNote l = false) : ∀ {ps : List Part} {pre : List Text}, (∀ p ∈ ps, p.Valid) →
    (∀ tag ls, .block tag ls ∈ ps → ∀ l ∈ ls, isNote l = true) → ps.flatMap Part.lines = pre ++ l :: post →
    Paired (pre.filterMap Marker.ofLine?)
  | [], _, _, _, he => by simp at he
  | p :: ps, pre, hv, hn, he => by
    rw [List.forall_mem_cons] at hv
    have hp : Paired (p.lines.filterMap Marker.ofLine?) := (markedLines_lines hv.1).2
    rw [List.flatMap_cons, List.append_eq_append_iff] at he
    rcases he with ⟨pre', rfl, he⟩ | ⟨rest, hlines, he⟩
    · rw [List.filterMap_append, paired_append_iff hp]
      exact paired_of_not_isNote hl hv.2 (fun tag ls h => hn tag ls (List.mem_cons_of_mem _ h)) he
    · cases rest with
      | nil =>
        rw [List.append_nil] at hlines
        exact hlines ▸ hp
      | cons m rest =>
        obtain rfl : l = m := (List.cons.inj he).1
        cases p with
        | source k =>
          have hpre : pre = [] := by
            cases pre with
            | nil => rfl
            | cons k' pre => simp [Part.lines] at hlines
          subst hpre
          trivial
        | block tag ls =>
          have hnote := hn tag ls List.mem_cons_self l (by rw [show ls = pre ++ l :: rest from hlines]; simp)
          rw [hl] at hnote
          cases hnote

/-- Code lines are outside all blocks, if these are notes. -/
theorem outside_lineOf_of_noted (h : WellMarked t) (hn : BlocksNoted t) {i : Nat} (hi : i < (codeLines t).length) :
    Outside t (lineOf t i) := by
  have hrow := getElem?_codeIndex hi
  have hcode : (codeLines t)[i] ∈ codeLines t := List.getElem_mem hi
  have hnote : isNote (codeLines t)[i] = false := by simpa using (List.mem_filter.1 hcode).2
  rw [List.getElem?_eq_getElem hi] at hrow
  refine ⟨Nat.succ_ne_zero _, ⟨_, hrow, ?_⟩, ?_⟩
  · -- a marker is a note
    cases hm : Marker.ofLine? (codeLines t)[i] with
    | none => rfl
    | some m =>
      obtain ⟨indent, hindent, he⟩ := Marker.ofLine?_eq_some_iff.1 hm
      obtain ⟨u, hu, -⟩ := m.exists_text_eq
      rw [he, hu, isNote_comment hindent] at hnote
      cases hnote
  · show Paired (((rows t).take (codeIndex (rawLines t) i)).filterMap Marker.ofLine?)
    obtain ⟨hlt, hget⟩ := List.getElem?_eq_some_iff.1 hrow
    have hsplit : rows t = (rows t).take (codeIndex (rawLines t) i) ++
        (codeLines t)[i] :: (rows t).drop (codeIndex (rawLines t) i + 1) := by
      rw [← hget, List.cons_getElem_drop_succ, List.take_append_drop]
    have hsolid : (parts t).flatMap Part.lines =
        ((rows t).take (codeIndex (rawLines t) i)).filter (· ≠ []) ++
          (codeLines t)[i] :: ((rows t).drop (codeIndex (rawLines t) i + 1)).filter (· ≠ []) := by
      rw [← h.hasParts.2, solidLines]
      conv_lhs => rw [hsplit]
      rw [List.filter_append, List.filter_cons_of_pos (by simpa using ne_nil_of_not_isNote hnote)]
    have hpaired := paired_of_not_isNote hnote h.hasParts.1 (fun tag ls hp => isNote_of_block hn hp) hsolid
    rwa [filterMap_ofLine?_filter] at hpaired

end Text
end Marginalia
