/-
# One block for each target

Over a run that puts targets at classes into one file, the tags are handled one
after the other on the same text, and the blocks that are put in anew come last,
those of all tags at once. What a tag asks for is met in its own stage, or owed
from then on by what is pending (`Annotation.Meets`), and the stages of the
other tags leave that as it is. So the file ends up with one block for each
target that says something and whose class is found, and no other ones of its
tag (`Annotator.applyAll_exact`). The classes must be found all along, also once
blocks were taken out (`Annotation.KeepsNames`): they are where the blocks hold
nothing but notes (`Annotation.keepsNames_of_notes`), and need not be where they
hold code (`Annotator.applyAll_not_exact`).

Key definitions: `Text.Noted`, `Annotation.KeepsNames`, `Annotation.Stage`, `Annotation.Meets`.
Key theorems: `Text.Noted.codeLines_eq`, `Annotation.meets_afterTag`,
`Annotation.Meets.afterTag`, `Annotation.rewrite_exact`, `Annotator.applyAll_exact`.
-/
import Marginalia.Proofs.Annotation.Idempotence
import Marginalia.Proofs.Annotation.Keeping
import Marginalia.Proofs.Placement.Counting

namespace Marginalia

open Text Block

namespace Target

/-- Whether the class at which the target is placed is found in the text. -/
def isFound (parse : Text → Index) (t : Text) (x : Target) : Bool :=
  x.className?.any fun name => ((parse t).resolve? name).isSome

/-- A target has no block exactly if its payload is blank. -/
theorem block_eq_nil_iff {x : Target} : x.block = [] ↔ x.payload.all isBlank := by
  rw [block, render_eq_nil_iff, lines_ofText_eq_nil_iff]

/-- What a block of a target adds to the blocks of a tag. -/
theorem plainBlocks_block {x : Target} (hu : x.Unmarked) (tag : Tag) :
    plainBlocks tag x.block = if x.tag = tag ∧ x.block ≠ [] then [rows x.block] else [] := by
  rcases hu.block with h0 | ⟨cs, hc, he⟩
  · rw [h0, if_neg (by simp)]
    rfl
  · rw [he, plainBlocks_frame .nil hc, rows_frame .nil hc]
    simp [frame_ne_nil]

end Target

namespace Text

/-! ### Code without blocks -/

open Annotation (unmark)

theorem hasParts_unmark : ∀ {tags : List Tag} {t : Text} {ps : List Part}, HasParts t ps →
    HasParts (unmark tags t) (Part.others tags ps)
  | [], t, ps, h => by
    have he : Part.others [] ps = ps := by simp [Part.others]
    rw [he]
    exact h
  | tag :: tags, t, ps, h => by
    have ih : HasParts (unmark tags (removeAll tag t)) (Part.others tags (ps.filter (·.Avoids tag))) :=
      hasParts_unmark h.removeAll
    have he : Part.others (tag :: tags) ps = Part.others tags (ps.filter (·.Avoids tag)) := by
      rw [Part.others, Part.others, List.filter_filter]
      refine List.filter_congr fun p _ => ?_
      simp [Bool.and_comm]
    rw [he]
    exact ih

/-- The text has the parts that the text `t` had, apart from blocks of the tags, and all blocks of the tags
in it are notes. -/
structure Noted (tags : List Tag) (t u : Text) : Prop where
  /-- The other parts. -/
  keeps : Keeps tags t u
  /-- The blocks of the tags. -/
  notes : ∀ tag ∈ tags, ∀ ls ∈ blocks tag u, ∀ l ∈ ls, isNote l = true

section

variable {tag : Tag} {tags : List Tag} {t u v : Text} {cs : List Text}

theorem filter_flatMap_lines : ∀ {ps : List Part},
    (∀ p ∈ ps, (∃ tag ∈ tags, ¬ p.Avoids tag) → ∀ l ∈ p.lines, isNote l = true) →
    (ps.flatMap Part.lines).filter (!isNote ·) = ((Part.others tags ps).flatMap Part.lines).filter (!isNote ·)
  | [], _ => rfl
  | p :: ps, h => by
    rw [List.forall_mem_cons] at h
    rw [List.flatMap_cons, List.filter_append, filter_flatMap_lines h.2, Part.others, Part.others, List.filter_cons]
    split
    · rw [List.flatMap_cons, List.filter_append]
    · next hp =>
      have hnotes : p.lines.filter (!isNote ·) = [] :=
        List.filter_eq_nil_iff.2 fun l hl => by
          rw [h.1 (by simpa using hp) l hl]
          decide
      rw [hnotes, List.nil_append]

/-- The code is that of the text without the blocks. -/
theorem Noted.codeLines_eq (hn : Noted tags t u) (h : WellMarked t) : codeLines u = codeLines (unmark tags t) := by
  have hu := hn.keeps.1.hasParts
  rw [codeLines_eq_filter, codeLines_eq_filter, hu.2, (hasParts_unmark h.hasParts).2, ← hn.keeps.2]
  refine filter_flatMap_lines fun p hp ⟨tag, hm, ha⟩ => ?_
  cases p with
  | source l => exact absurd rfl ha
  | block s ls =>
    have hs : s = tag := by
      by_contra hs
      exact ha (if_neg hs)
    subst hs
    exact hn.notes s hm ls (List.mem_filterMap.2 ⟨_, hp, if_pos rfl⟩)

/-- Keeping more blocks than those of a tag that are notes. -/
theorem Noted.cons (hn : Noted tags t u) (hk : Keeps [tag] u v) (hv : ∀ ls ∈ blocks tag v, ∀ l ∈ ls, isNote l = true) :
    Noted (tag :: tags) t v := by
  refine ⟨(hn.keeps.mono (List.subset_cons_self _ _)).trans (hk.mono (by simp)), fun s hs => ?_⟩
  by_cases he : s = tag
  · exact he ▸ hv
  · rw [hk.blocks_eq (by simpa using he)]
    exact hn.notes s ((List.mem_cons.1 hs).resolve_left he)

/-- The only block of a tag that is exchanged. -/
theorem exists_blocks_replace?_eq (h : WellMarked t) (h₁ : count tag t = 1) (hc : CommentLines cs)
    (hr : replace? tag (frame tag [] cs) t = some u) : Snug tag u ∧
      ∃ indent cs', IsIndentation indent ∧ CommentLines cs' ∧ ((∀ l ∈ cs, l.getLast? ≠ some '\r') → cs' = cs) ∧
        blocks tag u = [framed tag indent cs'] := by
  obtain ⟨e, indent, cs', _, _, he, hi, hc', hcs, hsp, rfl⟩ := exists_replace?_eq h.hasParts hc hr
  obtain ⟨hb, ha⟩ := not_infix_of_count_eq_one he h₁
  obtain ⟨pre, ls, post, -, -, -, -, hpre, hpost, -⟩ := h.hasParts.exists_of_find? he
  have hsnug : Snug tag (e.before ++ (frame tag indent cs' ++ e.after)) :=
    snug_around hsp.before hpre hsp.after hi hc' (snug_of_lacks_marker hb) (snug_of_lacks_marker ha)
  refine ⟨hsnug, indent, cs', hi, hc', hcs, ?_⟩
  have hx := hpre.around hpost (hasParts_frame hi hc')
    (t := e.before ++ (frame tag indent cs' ++ e.after))
    (by rw [solidLines_append hsp.before, solidLines_append_detached hsp.after])
  have hnone {ps : List Part} (hps : ∀ p ∈ ps, p.Avoids tag) : ps.filterMap (Part.block? tag) = [] :=
    List.filterMap_eq_nil_iff.2 hps
  have hblock : (Part.block tag (framed tag indent cs')).block? tag = some (framed tag indent cs') := if_pos rfl
  rw [blocks_of_hasParts hx, List.filterMap_append, hnone (hpre.not_infix_iff.1 hb),
    List.filterMap_cons_some hblock, hnone (hpost.not_infix_iff.1 ha), List.nil_append]

end

end Text

namespace Annotation

/-- Targets at classes, whose comment lines hold no markers and end with no carriage returns. -/
structure AtClasses (group : List Target) : Prop where
  /-- Where they are placed. -/
  classes : ∀ x ∈ group, x.pattern? = none
  /-- There are no markers in the comment lines. -/
  unmarked : ∀ x ∈ group, x.Unmarked
  /-- There are no carriage returns at their ends. -/
  plain : ∀ x ∈ group, x.Plain

/-- Every class that is read from the text starts and ends outside all blocks. -/
def ClassesOutside (parse : Text → Index) (t : Text) : Prop :=
  ∀ d ∈ (parse t).classes, Outside t d.line ∧ Outside t d.endLine

instance (parse : Text → Index) (t : Text) : Decidable (ClassesOutside parse t) :=
  inferInstanceAs (Decidable (∀ _ ∈ _, _))

/-- A name that stands for a class in the text does so too once blocks were taken out and notes were added
or deleted, and no others do. -/
def KeepsNames (parse : Text → Index) (t : Text) : Prop :=
  ∀ (tags : List Tag) (u : Text), codeLines u = codeLines (unmark tags t) →
    ∀ query, ((parse u).resolve? query).isSome = ((parse t).resolve? query).isSome

section

variable {parse : Text → Index} {pos : Position} {group : List Target} {tag s : Tag} {t u v : Text} {d : Draft}
  {x : Target} {name : String}

theorem isFound_eq (hn : x.className? = some name) : x.isFound parse t = ((parse t).resolve? name).isSome := by
  rw [Target.isFound, hn, Option.any_some]

/-- Where all blocks are notes, it is enough that adding and deleting notes changes no names. -/
theorem keepsNames_of_notes (h : WellMarked t) (hn : ∀ tag, ∀ ls ∈ blocks tag t, ∀ l ∈ ls, isNote l = true)
    (hs : ∀ u, codeLines u = codeLines t → ∀ query,
      ((parse u).resolve? query).isSome = ((parse t).resolve? query).isSome) : KeepsNames parse t := by
  intro tags u hu
  have hsame : codeLines t = codeLines (unmark tags t) :=
    Noted.codeLines_eq ⟨keeps_refl h tags, fun tag _ => hn tag⟩ h
  exact hs u (hu.trans hsame.symm)

/-- A steady reader keeps the names. -/
theorem resolve?_isSome_of_steady (hs : Index.Steady parse t) (hu : codeLines u = codeLines t) (query : String) :
    ((parse u).resolve? query).isSome = ((parse t).resolve? query).isSome := by
  have hrel := Index.resolve?_follows (hs u t hu rfl) query
  generalize (parse u).resolve? query = c at *
  generalize (parse t).resolve? query = d at *
  cases hrel with
  | some _ => rfl
  | none => rfl

/-- The blocks of a tag among those of targets. -/
theorem flatMap_plainBlocks_eq (tag : Tag) : ∀ {xs : List Target}, (∀ x ∈ xs, x.Unmarked) →
    (xs.flatMap fun x => plainBlocks tag x.block) =
      (xs.filter fun x => x.tag = tag ∧ x.block ≠ []).map fun x => rows x.block
  | [], _ => rfl
  | x :: xs, h => by
    rw [List.forall_mem_cons] at h
    rw [List.flatMap_cons, x.plainBlocks_block h.1, flatMap_plainBlocks_eq tag h.2]
    split
    · next hx => rw [List.filter_cons_of_pos (by simpa using hx), List.map_cons, List.singleton_append]
    · next hx => rw [List.filter_cons_of_neg (by simpa using hx), List.nil_append]

/-- Blocks of other tags do not count. -/
theorem flatMap_plainBlocks_eq_nil {ps : List (Target × String)} (hu : ∀ p ∈ ps, p.1.Unmarked)
    (ht : ∀ p ∈ ps, p.1.tag ≠ tag) (f : Target × String → Bool) :
    ((ps.filter f).flatMap fun p => plainBlocks tag p.1.block) = [] := by
  refine List.flatMap_eq_nil_iff.2 fun p hp => ?_
  have hm := (List.mem_filter.1 hp).1
  rw [Target.plainBlocks_block (hu p hm), if_neg fun h => ht p hm h.1]

/-- What is asked for a tag is asked by its targets at classes. -/
theorem flatMap_atClasses (hg : AtClasses group) (tag : Tag) (f : Target → Bool) :
    ((atClasses tag group).filter fun p => f p.1).flatMap (fun p => plainBlocks tag p.1.block) =
      (group.filter f).flatMap fun x => plainBlocks tag x.block := by
  have hmap : ((atClasses tag group).filter fun p => f p.1).map (·.1) = (group.filter (·.tag = tag)).filter f := by
    rw [← map_fst_atClasses_eq_filter hg.classes, List.filter_map]
    rfl
  have hu {g : Target → Bool} : ∀ x ∈ group.filter g, x.Unmarked := fun x hx =>
    hg.unmarked x (List.mem_filter.1 hx).1
  calc ((atClasses tag group).filter fun p => f p.1).flatMap (fun p => plainBlocks tag p.1.block)
      = (((atClasses tag group).filter fun p => f p.1).map (·.1)).flatMap fun x => plainBlocks tag x.block := by
        rw [List.flatMap_map]
    _ = (((group.filter (·.tag = tag)).filter f).filter fun x => x.tag = tag ∧ x.block ≠ []).map
          fun x => rows x.block := by
        rw [hmap, flatMap_plainBlocks_eq tag fun x hx => hu x (List.mem_filter.1 hx).1]
    _ = ((group.filter f).filter fun x => x.tag = tag ∧ x.block ≠ []).map fun x => rows x.block := by
        rw [List.filter_filter, List.filter_filter, List.filter_filter]
        refine congrArg (List.map _) (List.filter_congr fun x _ => ?_)
        by_cases hx : x.tag = tag <;> simp [hx]
    _ = (group.filter f).flatMap fun x => plainBlocks tag x.block := (flatMap_plainBlocks_eq tag hu).symm

/-- What is true of a draft while the tags are handled: the text is the one that there was, but for blocks of
the tags, and what is pending is owed to targets. -/
structure Stage (group : List Target) (t : Text) (d : Draft) : Prop where
  /-- The text. -/
  noted : ∃ tags, Noted tags t d.text
  /-- What is pending. -/
  pending : ∀ p ∈ d.pending, p.1 ∈ group ∧ p.1.className? = some p.2

theorem Stage.wellMarked (h : Stage group t d) : WellMarked d.text := h.noted.elim fun _ hn => hn.keeps.1

/-- The classes that are found on the way are those that are found in the beginning. -/
theorem Stage.resolve?_isSome (h : Stage group t d) (ht : WellMarked t) (hk : KeepsNames parse t) (query : String) :
    ((parse d.text).resolve? query).isSome = ((parse t).resolve? query).isSome := by
  obtain ⟨tags, hn⟩ := h.noted
  exact hk tags d.text (hn.codeLines_eq ht) query

/-- An exchanged block is the target's. -/
theorem plainBlocks_exchange? (hu : x.Unmarked) (hr : x.Plain) (h : WellMarked u)
    (he : exchange? parse u x name = some v) :
    Keeps [x.tag] u v ∧ Snug x.tag v ∧ (∀ ls ∈ blocks x.tag v, ∀ l ∈ ls, isNote l = true) ∧
      plainBlocks x.tag v = plainBlocks x.tag x.block := by
  obtain ⟨⟨h0, h₁⟩, -, hrep⟩ := exchange?_eq_some_iff.1 he
  obtain ⟨cs, hc, hcr, hb⟩ := (x.isPlain_block hu hr).resolve_left h0
  rw [hb] at hrep
  obtain ⟨hsnug, indent, cs', hi, hc', hcs, hblocks⟩ := exists_blocks_replace?_eq h h₁ hc hrep
  refine ⟨keeps_replace h hc hrep, hsnug, fun ls hl => ?_, ?_⟩
  · rw [hblocks, List.mem_singleton] at hl
    exact hl ▸ isNote_of_mem_framed hi hc'
  · rw [plainBlocks, hblocks, hb, plainBlocks_frame .nil hc, if_pos rfl, List.map_singleton,
      unindented_framed hi hc', hcs hcr]

theorem Stage.afterTag (h : Stage group t d) (hg : AtClasses group) (tag : Tag) :
    Stage group t (d.afterTag parse group tag) := by
  obtain ⟨tags, hn⟩ := h.noted
  rcases afterTag_cases parse group d tag with ⟨-, he⟩ | ⟨x, name, v, hc, hx, he⟩ | ⟨-, -, he⟩
  · rw [he]
    exact h
  · rw [he]
    obtain ⟨hm, rfl⟩ := mem_atClasses (x := (x, name)) (hc ▸ List.mem_singleton_self _)
    obtain ⟨hk, -, hnotes, -⟩ := plainBlocks_exchange? (hg.unmarked x hm) (hg.plain x hm) h.wellMarked hx
    exact ⟨⟨_, hn.cons hk hnotes⟩, h.pending⟩
  · rw [he]
    refine ⟨⟨_, hn.cons (keeps_removeAll h.wellMarked tag) ?_⟩, ?_⟩
    · show ∀ ls ∈ blocks tag (removeAll tag d.text), _
      rw [blocks_removeAll h.wellMarked]
      simp
    · refine List.forall_mem_append.2 ⟨h.pending, fun p hp => ?_⟩
      exact ⟨(mem_atClasses hp).1, className?_of_mem_atClasses hp⟩

/-- What a group asks for a tag is met by the draft: the blocks of the tag, with those that are pending, are the
blocks of the targets whose classes are found, they are whole, and if there is such a target the draft changes
the text. -/
structure Meets (parse : Text → Index) (group : List Target) (t : Text) (tag : Tag) (d : Draft) : Prop where
  /-- The blocks. -/
  blocks : ((d.pending.filter fun p => p.1.isFound parse t).flatMap fun p => plainBlocks tag p.1.block) ++
    plainBlocks tag d.text = (group.filter (·.isFound parse t)).flatMap fun x => plainBlocks tag x.block
  /-- None is torn apart. -/
  snug : Snug tag d.text
  /-- There is something to do. -/
  placed : (∃ x ∈ group, x.tag = tag ∧ x.isFound parse t) →
    d.placed ≠ [] ∨ ∃ p ∈ d.pending, p.1.isFound parse t

/-- Once a tag was handled, what is asked for it is met. -/
theorem meets_afterTag (h : Stage group t d) (hg : AtClasses group) (ht : WellMarked t) (hk : KeepsNames parse t)
    (hp : ∀ p ∈ d.pending, p.1.tag ≠ tag) (h0 : ∃ x ∈ group, x.tag = tag) :
    Meets parse group t tag (d.afterTag parse group tag) := by
  have hpending : ((d.pending.filter fun p => p.1.isFound parse t).flatMap fun p => plainBlocks tag p.1.block) = [] :=
    flatMap_plainBlocks_eq_nil (fun p hm => hg.unmarked p.1 (h.pending p hm).1) hp _
  have hasked := flatMap_atClasses hg tag (·.isFound parse t)
  rcases afterTag_cases parse group d tag with ⟨hc, -⟩ | ⟨x, name, v, hc, hx, he⟩ | ⟨-, -, he⟩
  · obtain ⟨x, hm, hxt⟩ := h0
    have hmem : x ∈ (atClasses tag group).map (·.1) := by
      rw [map_fst_atClasses_eq_filter hg.classes]
      exact List.mem_filter.2 ⟨hm, decide_eq_true hxt⟩
    rw [hc] at hmem
    cases hmem
  · have hxc : (x, name) ∈ atClasses tag group := hc ▸ List.mem_singleton_self _
    obtain ⟨hm, hxt⟩ := mem_atClasses hxc
    have hfound : x.isFound parse t = true := by
      rw [isFound_eq (className?_of_mem_atClasses hxc), ← h.resolve?_isSome ht hk]
      exact (exchange?_eq_some_iff.1 hx).2.1
    subst hxt
    obtain ⟨-, hsnug, -, hblocks⟩ := plainBlocks_exchange? (hg.unmarked x hm) (hg.plain x hm) h.wellMarked hx
    rw [he]
    refine ⟨?_, hsnug, fun _ => .inl (by simp)⟩
    rw [← hasked, hc, List.filter_singleton, hfound]
    show ((d.pending.filter _).flatMap _) ++ plainBlocks x.tag v = _
    rw [hpending, List.nil_append, hblocks]
    exact (List.flatMap_singleton _ _).symm
  · rw [he]
    have hnone : plainBlocks tag (removeAll tag d.text) = [] := by
      rw [plainBlocks, blocks_removeAll h.wellMarked, List.map_nil]
    refine ⟨?_, ?_, fun hx => .inr ?_⟩
    · show ((d.pending ++ atClasses tag group).filter _).flatMap _ ++ plainBlocks tag (removeAll tag d.text) = _
      rw [List.filter_append, List.flatMap_append, hpending, hnone, List.nil_append, List.append_nil, hasked]
    · exact snug_of_lacks_marker (h.wellMarked.hasParts.removeAll.lacks_marker fun p hp =>
        of_decide_eq_true (List.mem_filter.1 hp).2)
    · obtain ⟨x, hm, hxt, hfound⟩ := hx
      have hmem : x ∈ (atClasses tag group).map (·.1) := by
        rw [map_fst_atClasses_eq_filter hg.classes]
        exact List.mem_filter.2 ⟨hm, decide_eq_true hxt⟩
      obtain ⟨p, hp, rfl⟩ := List.mem_map.1 hmem
      exact ⟨p, List.mem_append_right _ hp, hfound⟩

/-- Handling another tag leaves what is met. -/
theorem Meets.afterTag (hm : Meets parse group t tag d) (h : Stage group t d) (hg : AtClasses group) (hs : s ≠ tag) :
    Meets parse group t tag (d.afterTag parse group s) := by
  rcases afterTag_cases parse group d s with ⟨-, he⟩ | ⟨x, name, v, hc, hx, he⟩ | ⟨-, -, he⟩
  · rw [he]
    exact hm
  · rw [he]
    obtain ⟨hmem, rfl⟩ := mem_atClasses (x := (x, name)) (hc ▸ List.mem_singleton_self _)
    obtain ⟨hk, -, -, -⟩ := plainBlocks_exchange? (hg.unmarked x hmem) (hg.plain x hmem) h.wellMarked hx
    obtain ⟨⟨h0, -⟩, -, hrep⟩ := exchange?_eq_some_iff.1 hx
    obtain ⟨cs, hcs, hb⟩ := (hg.unmarked x hmem).block.resolve_left h0
    rw [hb] at hrep
    have hblocks : plainBlocks tag v = plainBlocks tag d.text := by
      rw [plainBlocks, hk.blocks_eq (by simpa using Ne.symm hs), plainBlocks]
    refine ⟨by rw [hblocks]; exact hm.blocks, hm.snug.replace? h.wellMarked.hasParts hcs hrep, fun _ => .inl ?_⟩
    simp
  · rw [he]
    have hblocks : plainBlocks tag (removeAll s d.text) = plainBlocks tag d.text := by
      rw [plainBlocks, (keeps_removeAll h.wellMarked s).blocks_eq (by simpa using Ne.symm hs), plainBlocks]
    have hothers : (((atClasses s group).filter fun p => p.1.isFound parse t).flatMap
        fun p => plainBlocks tag p.1.block) = [] :=
      flatMap_plainBlocks_eq_nil (fun p hp => hg.unmarked p.1 (mem_atClasses hp).1)
        (fun p hp => (mem_atClasses hp).2 ▸ hs) _
    refine ⟨?_, hm.snug.removeAll h.wellMarked.hasParts, fun hx => ?_⟩
    · show ((d.pending ++ atClasses s group).filter _).flatMap _ ++ plainBlocks tag (removeAll s d.text) = _
      rw [List.filter_append, List.flatMap_append, hothers, hblocks, List.append_nil]
      exact hm.blocks
    · exact (hm.placed hx).imp_right fun hp => hp.imp fun p h => ⟨List.mem_append_left _ h.1, h.2⟩

/-- What becomes pending is asked for the tag that is handled. -/
theorem mem_pending_afterTag {p : Target × String} (h : p ∈ (d.afterTag parse group tag).pending) :
    p ∈ d.pending ∨ p ∈ atClasses tag group := by
  rcases afterTag_cases parse group d tag with ⟨-, he⟩ | ⟨_, _, _, -, -, he⟩ | ⟨-, -, he⟩
  · rw [he] at h
    exact .inl h
  · rw [he] at h
    exact .inl h
  · rw [he] at h
    exact List.mem_append.1 h

/-- After the first stage what is asked for each tag is met. -/
theorem meets_stripped (hg : AtClasses group) (ht : WellMarked t) (hk : KeepsNames parse t)
    (h0 : ∃ x ∈ group, x.tag = tag) :
    Stage group t (stripped parse group t) ∧ Meets parse group t tag (stripped parse group t) := by
  obtain ⟨before, after, hall, hbefore, hafter⟩ := exists_all_eq tag
  have hfirst : ∀ d, d = before.foldl (Draft.afterTag parse group) { text := t } →
      Stage group t d ∧ ∀ p ∈ d.pending, p.1.tag ≠ tag := by
    rintro _ rfl
    refine List.foldlRecOn (motive := fun d => Stage group t d ∧ ∀ p ∈ d.pending, p.1.tag ≠ tag) before _
      ⟨⟨⟨[], keeps_refl ht [], by simp⟩, by simp⟩, by simp⟩ fun d hd s hs =>
        ⟨hd.1.afterTag hg s, fun p hm => ?_⟩
    rcases mem_pending_afterTag hm with hm | hm
    · exact hd.2 p hm
    · rw [(mem_atClasses hm).2]
      exact fun h => hbefore (h ▸ hs)
  obtain ⟨hd, hp⟩ := hfirst _ rfl
  rw [stripped, hall, List.foldl_append, List.foldl_cons]
  refine List.foldlRecOn (motive := fun d => Stage group t d ∧ Meets parse group t tag d) after _
    ⟨hd.afterTag hg tag, meets_afterTag hd hg ht hk hp h0⟩ fun d hd s hs => ?_
  exact ⟨hd.1.afterTag hg s, hd.2.afterTag hd.1 hg fun h => hafter (h ▸ hs)⟩

/-- What is pending is placed where its class is found. -/
theorem filter_requests (hd : Stage group t d) (ht : WellMarked t) (hk : KeepsNames parse t) :
    d.requests.filter (fun r => ((parse d.text).resolve? r.name).isSome) =
      (d.pending.filter fun p => p.1.isFound parse t).map fun p => { name := p.2, block := p.1.block } := by
  rw [Draft.requests, List.filter_map]
  refine congrArg (List.map _) (List.filter_congr fun p hp => ?_)
  rw [isFound_eq (hd.pending p hp).2, ← hd.resolve?_isSome ht hk]
  rfl

/-- Once what is pending is placed, the file has the blocks that are asked for. -/
theorem settled_exact (pos : Position) (hg : AtClasses group) (ht : WellMarked t) (hk : KeepsNames parse t)
    (hc : ClassesOutside parse (stripped parse group t).text)
    (h0 : ∃ x ∈ group, x.tag = tag ∧ x.isFound parse t) :
    (settled parse pos group t).placed ≠ [] ∧
      (plainBlocks tag (settled parse pos group t).text).Perm
        ((group.filter (·.isFound parse t)).flatMap fun x => plainBlocks tag x.block) ∧
      Snug tag (settled parse pos group t).text := by
  obtain ⟨hd, hm⟩ := meets_stripped hg ht hk (h0.imp fun x hx => ⟨hx.1, hx.2.1⟩)
  have hplaced := hm.placed h0
  have hblocks := hm.blocks
  simp only [settled]
  generalize stripped parse group t = d at *
  split
  · next he =>
    rw [List.isEmpty_iff] at he
    rw [he, List.filter_nil, List.flatMap_nil, List.nil_append] at hblocks
    refine ⟨hplaced.resolve_right ?_, .of_eq hblocks, hm.snug⟩
    rw [he]
    simp
  · have hplain : ∀ r ∈ d.requests, ∃ tag, Placement.IsPlain tag r.block := by
      intro r hr
      obtain ⟨p, hp, rfl⟩ := List.mem_map.1 hr
      have hx := (hd.pending p hp).1
      exact ⟨_, p.1.isPlain_block (hg.unmarked _ hx) (hg.plain _ hx)⟩
    obtain ⟨hperm, hsnug⟩ := Placement.plainBlocks_insertAll pos tag hd.wellMarked hplain hc
    rw [filter_requests hd ht hk, List.flatMap_map, hblocks] at hperm
    refine ⟨?_, hperm, hsnug hm.snug⟩
    rcases hplaced with h | ⟨p, hp, hf⟩
    · exact List.append_ne_nil_of_left_ne_nil h _
    · have hfound : ((parse d.text).resolve? p.2).isSome = true := by
        rwa [hd.resolve?_isSome ht hk, ← isFound_eq (hd.pending p hp).2]
      have hin : p.2 ∈ (Placement.insertAll pos (parse d.text) d.text d.requests).inserted :=
        Placement.mem_inserted (List.mem_map_of_mem hp) hfound
      refine List.append_ne_nil_of_right_ne_nil _ (List.map_eq_nil_iff.not.2 fun h => ?_)
      exact List.filter_eq_nil_iff.1 h p hp (List.contains_iff_mem.2 hin)

/-- Rewriting a file for a group leaves the blocks that are asked for, also where the draft is not taken. -/
theorem rewrite_exact (pos : Position) (hg : AtClasses group) (ht : WellMarked t) (hk : KeepsNames parse t)
    (hc : ClassesOutside parse (stripped parse group t).text)
    (h0 : ∃ x ∈ group, x.tag = tag ∧ x.isFound parse t) :
    (plainBlocks tag (rewrite parse pos group t).1).Perm
        ((group.filter (·.isFound parse t)).flatMap fun x => plainBlocks tag x.block) ∧
      Snug tag (rewrite parse pos group t).1 := by
  obtain ⟨hplaced, hperm, hsnug⟩ := settled_exact pos hg ht hk hc h0
  have hdraft : draft parse pos group t = settled parse pos group t := by
    rw [draft_eq, foldl_afterLine_of_declarations hg.classes]
  simp only [rewrite, hdraft]
  split
  · next h =>
    -- the draft differs by folded blank runs alone
    simp only [Bool.or_eq_true, List.isEmpty_iff, beq_iff_eq] at h
    have halike : Alike t (settled parse pos group t).text := by
      have h := h.resolve_left hplaced
      rw [← h]
      exact (alike_foldBlankRuns t).symm
    have hblocks : plainBlocks tag t = plainBlocks tag (settled parse pos group t).text := by
      rw [plainBlocks, blocks, parts, halike.solidLines_eq, plainBlocks, blocks, parts]
    exact ⟨hblocks ▸ hperm, halike.snug_iff.2 hsnug⟩
  · exact ⟨hperm, hsnug⟩

end

end Annotation

namespace Annotator

open FileTree Annotation

/-- After a run for targets at classes of one file, the file holds for each tag for which a class was found
the blocks of the targets that say something and whose classes were found: one for each of them, and no
other ones. -/
theorem applyAll_exact {a : Annotator} (hd : a.dryRun = false) {files : FileTree} {p : Path} {t : Text}
    {targets : List Target} (hf : ∀ x ∈ targets, x.file = some p) (hp : a.admits files p) (hr : files.read p = .ok t)
    (ht : WellMarked t) (hg : AtClasses targets) (hk : KeepsNames a.parse t)
    (hc : ClassesOutside a.parse (stripped a.parse targets t).text) :
    ∃ t', (a.applyAll files targets).files.read p = .ok t' ∧ WellMarked t' ∧
      ∀ tag, (∃ x ∈ targets, x.tag = tag ∧ x.isFound a.parse t) →
        ((blockRows tag t').map unindented).Perm
          ((targets.filter fun x => x.tag = tag ∧ x.isFound a.parse t ∧ ¬ x.payload.all isBlank).map
            fun x => rows x.block) := by
  obtain ⟨l, hl, hx⟩ := read_eq_ok_iff.1 hr
  have hafter := textAt_applyAll_of_file hd hf hp (leadsTo_iff.2 hl) hx
  have hshape := (textAt_applyAll a targets hx).1
  have hfits : Fits a.parse a.position targets t :=
    ⟨hg.unmarked, hc, Draft.anchorsFit_of_declarations hg.classes⟩
  refine ⟨_, read_eq_ok_iff.2 ⟨l, by rw [hshape.locate_eq, hl], hafter⟩, (keeps_rewrite ht hfits).1, fun tag h0 => ?_⟩
  obtain ⟨hperm, hsnug⟩ := rewrite_exact a.position hg ht hk hc h0
  have hasked : ((targets.filter (·.isFound a.parse t)).flatMap fun x => plainBlocks tag x.block) =
      (targets.filter fun x => x.tag = tag ∧ x.isFound a.parse t ∧ ¬ x.payload.all isBlank).map
        fun x => rows x.block := by
    rw [flatMap_plainBlocks_eq tag fun x hx => hg.unmarked x (List.mem_filter.1 hx).1, List.filter_filter]
    refine congrArg (List.map _) (List.filter_congr fun x _ => ?_)
    rw [Bool.eq_iff_iff, Bool.and_eq_true, decide_eq_true_eq, decide_eq_true_eq, ne_eq, x.block_eq_nil_iff]
    tauto
  rw [hsnug.blockRows_eq, ← hasked]
  exact hperm

/-! ### Two models and a mailer in one file -/

/-- The models of a file with stale blocks, and what else is said of its classes: for one of them there is a
mailer, and one model is gone. -/
def staleTargets : List Target :=
  staleModels ++ [Step.userTarget "Ghost" (.declaration "Ghost") .schema "id",
    Step.userTarget "Welcome" (.declaration "User") .mailer "welcome"]

theorem applyAll_exact_users :
    let a := { Step.rubyAnnotator .before with parse := Index.ofCode }
    let files := FileTree.single "user.rb".toList staleFile
    let p : Path := ⟨"user.rb".toList⟩
    a.dryRun = false ∧ (∀ x ∈ staleTargets, x.file = some p) ∧ a.admits files p ∧ files.read p = .ok staleFile ∧
      WellMarked staleFile ∧ AtClasses staleTargets ∧ KeepsNames a.parse staleFile ∧
      ClassesOutside a.parse (stripped a.parse staleTargets staleFile).text ∧
      ∃ t', (a.applyAll files staleTargets).files.read p = .ok t' ∧ WellMarked t' ∧
        ∀ tag, (∃ x ∈ staleTargets, x.tag = tag ∧ x.isFound a.parse staleFile) →
          ((blockRows tag t').map unindented).Perm
            ((staleTargets.filter fun x => x.tag = tag ∧ x.isFound a.parse staleFile ∧ ¬ x.payload.all isBlank).map
              fun x => rows x.block) := by
  intro a files p
  have hf : ∀ x ∈ staleTargets, x.file = some p := by decide
  have hp : a.admits files p := by decide
  have hr : files.read p = .ok staleFile := FileTree.read_single (by decide) (by decide) staleFile
  have ht : WellMarked staleFile := by
    unfold staleFile
    repeat rewrite [String.toList_ofList]
    decide
  have hreturn : ∀ x ∈ staleTargets, '\r' ∉ x.payload := by decide
  have hg : AtClasses staleTargets :=
    ⟨by decide, by decide, fun x hx => x.plain_of_not_mem (hreturn x hx)⟩
  have hnotes : ∀ tag, ∀ ls ∈ blocks tag staleFile, ∀ l ∈ ls, isNote l = true := by
    unfold staleFile
    repeat rewrite [String.toList_ofList]
    intro tag
    cases tag <;> decide
  have hk : KeepsNames a.parse staleFile := keepsNames_of_notes ht hnotes fun _ hu =>
    resolve?_isSome_of_steady (Index.steady_ofCode staleFile) hu
  have hc : ClassesOutside a.parse (stripped a.parse staleTargets staleFile).text := by
    unfold staleFile
    repeat rewrite [String.toList_ofList]
    decide +kernel
  exact ⟨rfl, hf, hp, hr, ht, hg, hk, hc, applyAll_exact rfl hf hp hr ht hg hk hc⟩

/-- A file in which a line of a block ends a text: without the block, the text goes on over the classes. -/
def textFile : Text :=
  "text = <<TEXT\n# --- BEGIN annotate:schema ---\nTEXT\n# --- END annotate:schema ---\n".toList ++
    "class User\nend\nclass Role\nend\nTEXT\n".toList

/-- It is not enough that adding and deleting notes changes no names where a block is more than notes: once it
is taken out the models are not found, so the file is left with it although the models are in the file. -/
theorem applyAll_not_exact :
    let a := { Step.rubyAnnotator .before with parse := Index.ofCode }
    let files := FileTree.single "user.rb".toList textFile
    let p : Path := ⟨"user.rb".toList⟩
    a.dryRun = false ∧ (∀ x ∈ staleModels, x.file = some p) ∧ a.admits files p ∧ files.read p = .ok textFile ∧
      WellMarked textFile ∧ AtClasses staleModels ∧ (∀ x ∈ staleModels, '\r' ∉ x.payload) ∧
      (∀ t ∈ [textFile, (stripped a.parse staleModels textFile).text],
        (Index.ofCode t).classes = (Index.ofSource t).classes ∧ ClassesOutside a.parse t ∧
        ∀ d ∈ (a.parse t).classes, 1 ≤ d.line ∧ d.line ≤ d.endLine ∧ d.endLine ≤ (rawLines t).length) ∧
      (∀ t u, codeLines u = codeLines t → ∀ query,
        ((a.parse u).resolve? query).isSome = ((a.parse t).resolve? query).isSome) ∧
      ∃ t', (a.applyAll files staleModels).files.read p = .ok t' ∧
        (∀ x ∈ staleModels, x.tag = .schema ∧ x.isFound a.parse textFile ∧ x.isFound a.parse t' ∧
          ¬ x.payload.all isBlank) ∧
        ¬ ((blockRows .schema t').map unindented).Perm (staleModels.map fun x => rows x.block) := by
  unfold textFile
  repeat rewrite [String.toList_ofList]
  intro a files p
  have hreturn : ∀ x ∈ staleModels, '\r' ∉ x.payload := by decide
  have hg : AtClasses staleModels :=
    ⟨by decide, by decide, fun x hx => x.plain_of_not_mem (hreturn x hx)⟩
  have hnames (t u : Text) (hu : codeLines u = codeLines t) (query : String) :
      ((a.parse u).resolve? query).isSome = ((a.parse t).resolve? query).isSome :=
    resolve?_isSome_of_steady (Index.steady_ofCode t) hu query
  refine ⟨rfl, by decide, by decide, by decide, by decide, hg, hreturn,
    by decide +kernel, hnames, textFile, ?_, ?_, fun h => absurd h.length_eq ?_⟩
  all_goals
    unfold textFile
    repeat rewrite [String.toList_ofList]
    decide +kernel

end Annotator
end Marginalia
