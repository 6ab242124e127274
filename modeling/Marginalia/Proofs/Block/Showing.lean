/-
# Blocks that a file shows

A file shows a block if the block's lines stand in it one below the other, each
with the same spaces and tabs in front. In a well-marked text whose blocks of
the tag were all written by the program (`Text.Written`) this can be told from
the blocks that are read from it without indentation (`Text.shows_iff`).

Key definitions: `Text.Shows`, `Text.Written`.
Key theorems: `Text.mem_blocks_of_infix`, `Text.infix_of_mem_blockRows`, `Text.shows_iff`.
-/
import Marginalia.Proofs.Block.Reading

namespace Marginalia
namespace Text

open Block

/-- The lines of the block stand in the text, with the same indentation in front of each. -/
def Shows (t block : Text) : Prop :=
  ∃ indent, IsIndentation indent ∧ (rows block).map (indent ++ ·) <:+: rows t

/-- The blocks of the tag are such as are written for targets, at some indentation. -/
def Written (tag : Tag) (t : Text) : Prop :=
  ∀ ls ∈ blocks tag t, ∃ indent cs, IsIndentation indent ∧ CommentLines cs ∧ ls = framed tag indent cs

variable {tag s : Tag} {t a b indent : Text} {cs ls : List Text} {p : Part} {ps qs : List Part}

theorem map_framed (tag : Tag) (indent : Text) (cs : List Text) :
    (framed tag [] cs).map (indent ++ ·) = framed tag indent cs := by
  simp [framed]

/-- What stands above a marker that opens a block pairs up. -/
theorem paired_of_append_opening {ns : List Marker} : ∀ ms : List Marker,
    Paired (ms ++ .opening s :: ns) → Paired ms
  | [], _ => trivial
  | [.opening _], h => h.elim
  | .opening _ :: .closing _ :: ms, h => ⟨h.1, paired_of_append_opening ms h.2⟩
  | .opening _ :: .opening _ :: _, h => h.elim
  | .closing _ :: _, h => h.elim

/-- Lines of a block that stand one below the other are a block of the text. -/
theorem mem_blocks_of_infix (h : WellMarked t) (hi : IsIndentation indent) (hc : CommentLines cs)
    (hin : framed tag indent cs <:+: rows t) : framed tag indent cs ∈ blocks tag t := by
  have hsolid : framed tag indent cs <:+: solidLines t := by
    have hf := hin.filter (fun l => decide (l ≠ []))
    rwa [List.filter_eq_self.2 fun l hl => decide_eq_true (ne_nil_of_mem_framed hi hc l hl)] at hf
  obtain ⟨pre, post, he⟩ := hsolid
  obtain ⟨hmarker, hpaired⟩ := wellMarked_iff_markedLines.1 h
  rw [← he] at hmarker hpaired
  have hopen : ∃ ms, (framed tag indent cs).filterMap Marker.ofLine? = .opening tag :: ms := by
    rw [framed, List.filterMap_cons_some (ofLine?_begin hi tag)]
    exact ⟨_, rfl⟩
  have hpre : MarkedLines pre := by
    refine ⟨fun l hl => hmarker l (by simp [hl]), ?_⟩
    obtain ⟨ms, hms⟩ := hopen
    rw [List.filterMap_append, List.filterMap_append, hms, List.append_assoc, List.cons_append] at hpaired
    exact paired_of_append_opening _ hpaired
  have hvalid : (Part.block tag (framed tag indent cs)).Valid := valid_framed hi hc
  have hframe : MarkedLines (framed tag indent cs) := markedLines_lines hvalid
  have hpost : MarkedLines post := by
    refine ⟨fun l hl => hmarker l (by simp [hl]), ?_⟩
    rw [List.filterMap_append, paired_append_iff (hpre.append hframe).2] at hpaired
    exact hpaired
  obtain ⟨ps, hps, rfl⟩ := exists_parts hpre
  obtain ⟨qs, hqs, rfl⟩ := exists_parts hpost
  have hparts : HasParts t (ps ++ .block tag (framed tag indent cs) :: qs) := by
    refine ⟨List.forall_mem_append.2 ⟨hps, List.forall_mem_cons.2 ⟨hvalid, hqs⟩⟩, ?_⟩
    rw [← he, List.flatMap_append, List.flatMap_cons, List.append_assoc]
    rfl
  rw [blocks_of_hasParts hparts]
  exact List.mem_filterMap.2 ⟨_, List.mem_append_right _ List.mem_cons_self, if_pos rfl⟩

/-- The parts that are read from lines stand in them, the one that is open above them included. -/
theorem lines_infix_of_mem_partsOf : ∀ (ls : List Text) (opened : Option (Tag × List Text)), p ∈ partsOf opened ls →
    p.lines <:+: opened.elim [] (·.2) ++ ls
  | [], none, h => by simp [partsOf] at h
  | [], some _, h => by simp [partsOf] at h
  | l :: ls, none, h => by
    rw [partsOf] at h
    split at h
    · next s hm => exact lines_infix_of_mem_partsOf ls (some (s, [l])) h
    · rcases List.mem_cons.1 h with rfl | h
      · exact (List.prefix_append [l] ls).isInfix
      · exact (lines_infix_of_mem_partsOf ls none h).trans (List.suffix_cons l ls).isInfix
  | l :: ls, some (s, bs), h => by
    have hopened : (some (s, bs)).elim [] (·.2) ++ l :: ls = (bs ++ [l]) ++ ls := by simp
    rw [hopened]
    rw [partsOf] at h
    split at h
    · rcases List.mem_cons.1 h with rfl | h
      · exact (List.prefix_append _ _).isInfix
      · exact (lines_infix_of_mem_partsOf ls none h).trans (List.suffix_append _ _).isInfix
    · exact lines_infix_of_mem_partsOf ls (some (s, bs ++ [l])) h

/-- A block stands in the text line by line. -/
theorem infix_of_mem_blockRows (h : ls ∈ blockRows tag t) : ls <:+: rows t := by
  obtain ⟨p, hp, hb⟩ := List.mem_filterMap.1 h
  have hin := lines_infix_of_mem_partsOf _ _ hp
  cases p with
  | source l => cases hb
  | block s ms =>
    simp only [Part.block?, Option.ite_none_right_eq_some, Option.some.injEq] at hb
    rw [← hb.2]
    exact hin

/-- A text shows a block if the block is read from it without indentation. -/
theorem shows_iff (h : WellMarked t) (hs : Snug tag t) (hw : Written tag t) (hc : CommentLines cs) :
    Shows t (frame tag [] cs) ↔ rows (frame tag [] cs) ∈ plainBlocks tag t := by
  rw [rows_frame .nil hc, plainBlocks, List.mem_map]
  constructor
  · rintro ⟨indent, hi, hin⟩
    rw [rows_frame .nil hc, map_framed] at hin
    exact ⟨_, mem_blocks_of_infix h hi hc hin, unindented_framed hi hc⟩
  · rintro ⟨ls, hl, he⟩
    obtain ⟨indent, cs', hi, hc', rfl⟩ := hw ls hl
    rw [unindented_framed hi hc'] at he
    refine ⟨indent, hi, ?_⟩
    rw [rows_frame .nil hc, ← he, map_framed]
    exact infix_of_mem_blockRows (hs.blockRows_eq ▸ hl)

/-- A text without blocks of the tag. -/
theorem written_of_blocks_eq_nil (h : blocks tag t = []) : Written tag t := fun ls hl => by
  rw [h] at hl
  cases hl

/-- A block that is written between the parts of a text. -/
theorem Written.around (hw : Written tag t) (ht : HasParts t (ps ++ qs)) (hi : IsIndentation indent)
    (hc : CommentLines cs) (ha : HasParts a (ps ++ .block s (framed s indent cs) :: qs)) : Written tag a := by
  intro ls hl
  rw [blocks_of_hasParts ha, List.filterMap_append, List.mem_append, List.filterMap_cons] at hl
  rw [Written, blocks_of_hasParts ht, List.filterMap_append] at hw
  by_cases hs : s = tag
  · subst hs
    simp only [Part.block?, if_true, List.mem_cons] at hl
    rcases hl with hl | rfl | hl
    · exact hw ls (List.mem_append_left _ hl)
    · exact ⟨indent, cs, hi, hc, rfl⟩
    · exact hw ls (List.mem_append_right _ hl)
  · simp only [Part.block?, if_neg hs] at hl
    exact hw ls (List.mem_append.2 hl)

end Text
end Marginalia
