/-
# Tags that are skipped

The blocks of a tag are taken out of a text before it is known whether any
target of the tag can be placed. A group that places none of its targets leaves
the file all the same, but one that places targets of other tags does not: a tag
whose targets are all skipped then loses its blocks
(`Annotator.skipped_blocks_lost`). This is the only way for it to lose them, and
no block of it is changed otherwise (`Annotator.skipped_blocks_stay_iff`).

Key definition: `Annotation.Cleared`.
Key theorems: `Annotation.cleared_stripped`, `Annotation.blocks_rewrite_of_unplaced`,
`Annotation.blocks_rewriteAll`, `Annotator.skipped_blocks_stay_iff`.
-/
import Marginalia.Proofs.Annotation.Exactness
import Marginalia.Proofs.Annotation.Preservation
import Marginalia.Proofs.Annotation.Tracing

namespace Marginalia

open Text Block

namespace Annotation

section

variable {parse : Text → Index} {pos : Position} {group : List Target} {tag s : Tag} {t : Text} {d : Draft}

/-! ### One group -/

theorem placed_subset_afterTag (parse : Text → Index) (group : List Target) (d : Draft) (tag : Tag) :
    d.placed ⊆ (d.afterTag parse group tag).placed := by
  rcases afterTag_cases parse group d tag with ⟨-, he⟩ | ⟨_, _, _, -, -, he⟩ | ⟨-, -, he⟩
  · rw [he]
    exact List.Subset.refl _
  · rw [he]
    exact List.subset_append_left _ _
  · rw [he]
    exact List.Subset.refl _

/-- What holds of the draft once a tag that has targets was handled: a target of the tag is placed, or there are
no blocks of the tag. -/
structure Cleared (group : List Target) (tag : Tag) (d : Draft) : Prop where
  /-- The text is well-marked. -/
  wellMarked : WellMarked d.text
  /-- The blocks of the tag. -/
  blocks : (∃ x ∈ group, x.tag = tag ∧ x.identifier ∈ d.placed) ∨ blocks tag d.text = []

/-- Handling a tag that has targets places the only one, or takes out the blocks of the tag. -/
theorem cleared_afterTag (parse : Text → Index) (h : WellMarked d.text) (hu : ∀ x ∈ group, x.Unmarked)
    (hp : ∀ x ∈ group, x.pattern? = none) (h0 : ∃ x ∈ group, x.tag = tag) :
    Cleared group tag (d.afterTag parse group tag) := by
  refine ⟨(keeps_afterTag h hu tag).1, ?_⟩
  rcases afterTag_cases parse group d tag with ⟨hc, -⟩ | ⟨x, name, v, hc, -, he⟩ | ⟨-, -, he⟩
  · obtain ⟨x, hm, hx⟩ := h0
    have hmem : x ∈ (atClasses tag group).map (·.1) := by
      rw [map_fst_atClasses_eq_filter hp]
      exact List.mem_filter.2 ⟨hm, decide_eq_true hx⟩
    rw [hc] at hmem
    cases hmem
  · obtain ⟨hm, hx⟩ := mem_atClasses (x := (x, name)) (hc ▸ List.mem_singleton_self _)
    rw [he]
    exact .inl ⟨x, hm, hx, List.mem_append_right _ (List.mem_singleton_self _)⟩
  · rw [he]
    exact .inr (blocks_removeAll h tag)

/-- Handling another tag leaves it so. -/
theorem Cleared.afterTag (hd : Cleared group tag d) (hu : ∀ x ∈ group, x.Unmarked) (hs : s ≠ tag) :
    Cleared group tag (d.afterTag parse group s) := by
  have hk : Keeps [s] d.text (d.afterTag parse group s).text := keeps_afterTag hd.wellMarked hu s
  refine ⟨hk.1, ?_⟩
  rcases hd.blocks with ⟨x, hm, hx, hi⟩ | he
  · exact .inl ⟨x, hm, hx, placed_subset_afterTag parse group d s hi⟩
  · exact .inr ((hk.blocks_eq (by simpa using Ne.symm hs)).trans he)

/-- After the first stage a tag that has targets has its only one placed, or has no blocks. -/
theorem cleared_stripped (parse : Text → Index) (h : WellMarked t) (hu : ∀ x ∈ group, x.Unmarked)
    (hp : ∀ x ∈ group, x.pattern? = none) (h0 : ∃ x ∈ group, x.tag = tag) :
    Cleared group tag (stripped parse group t) := by
  obtain ⟨before, after, hall, -, hafter⟩ := exists_all_eq tag
  have hfirst : WellMarked (before.foldl (Draft.afterTag parse group) { text := t }).text :=
    List.foldlRecOn (motive := fun d : Draft => WellMarked d.text) before _ h fun d hd s _ => (keeps_afterTag hd hu s).1
  rw [stripped, hall, List.foldl_append, List.foldl_cons]
  exact List.foldlRecOn (motive := Cleared group tag) after _ (cleared_afterTag parse hfirst hu hp h0)
    fun d hd s hs => hd.afterTag hu fun h => hafter (h ▸ hs)

/-- What is placed before the last stage is placed. -/
theorem placed_rewrite (parse : Text → Index) (pos : Position) (hp : ∀ x ∈ group, x.pattern? = none) (t : Text) :
    (rewrite parse pos group t).2 = (settled parse pos group t).placed := by
  simp only [rewrite, draft_eq, foldl_afterLine_of_declarations hp]
  split <;> rfl

/-- A tag has no blocks once the pending ones are placed, if it has targets and none of them is placed. -/
theorem blocks_settled_of_unplaced (h : WellMarked t) (hf : Fits parse pos group t)
    (hp : ∀ x ∈ group, x.pattern? = none) (h0 : ∃ x ∈ group, x.tag = tag)
    (hn : ∀ x ∈ group, x.tag = tag → x.identifier ∉ (settled parse pos group t).placed) :
    blocks tag (settled parse pos group t).text = [] := by
  have hstripped := (cleared_stripped parse h hf.unmarked hp h0).blocks
  have hk : Keeps (group.map (·.tag)) t (stripped parse group t).text ∧
      ∀ p ∈ (stripped parse group t).pending, p.1 ∈ group := keeps_stripped h hf.unmarked
  have hclasses := hf.classes
  obtain ⟨⟨hw, -⟩, hpending⟩ := hk
  simp only [settled] at hn ⊢
  generalize stripped parse group t = d at *
  split at hn
  · next hempty =>
    rw [if_pos hempty]
    refine hstripped.resolve_left ?_
    rintro ⟨x, hm, hx, hi⟩
    exact hn x hm hx hi
  · next hempty =>
    rw [if_neg hempty]
    have hnone : blocks tag d.text = [] := by
      refine hstripped.resolve_left ?_
      rintro ⟨x, hm, hx, hi⟩
      exact hn x hm hx (List.mem_append_left _ hi)
    -- no class is found for what is pending of the tag, so the blocks that are put in are of other tags
    have hothers : ∀ r ∈ d.requests.filter fun r => ((parse d.text).resolve? r.name).isSome,
        Placement.IsRequest (Tag.all.filter (· ≠ tag)) r.block := by
      intro r hr
      obtain ⟨hr, hfound⟩ := List.mem_filter.1 hr
      obtain ⟨p, hm, rfl⟩ := List.mem_map.1 hr
      refine isRequest_block (hf.unmarked _ (hpending p hm)) (List.mem_filter.2 ⟨by cases p.1.tag <;> decide, ?_⟩)
      rw [decide_eq_true_eq]
      intro hx
      refine hn p.1 (hpending p hm) hx (List.mem_append_right _ (List.mem_map_of_mem (List.mem_filter.2 ⟨hm, ?_⟩)))
      exact List.contains_iff_mem.2 (Placement.mem_inserted hr hfound)
    have htext : (d.afterPending parse pos).text =
        (Placement.insertAll pos (parse d.text) d.text d.requests).text := rfl
    rw [htext, ← Placement.text_insertAll_filter]
    exact ((Placement.keeps_insertAll hw hothers hclasses).blocks_eq (by simp)).trans hnone

/-- A group that changes a text takes out the blocks of a tag of which it has targets and places none. -/
theorem blocks_rewrite_of_unplaced (h : WellMarked t) (hf : Fits parse pos group t)
    (hp : ∀ x ∈ group, x.pattern? = none) (h0 : ∃ x ∈ group, x.tag = tag) (hne : (rewrite parse pos group t).1 ≠ t)
    (hn : ∀ x ∈ group, x.tag = tag → x.identifier ∉ (rewrite parse pos group t).2) :
    blocks tag (rewrite parse pos group t).1 = [] := by
  rw [placed_rewrite parse pos hp] at hn
  rw [(rewrite_eq_or parse pos group t).resolve_left hne, draft_eq, foldl_afterLine_of_declarations hp]
  exact blocks_settled_of_unplaced h hf hp h0 hn

/-- A group tears no block apart. -/
theorem snug_rewrite (h : WellMarked t) (hf : Fits parse pos group t) (hp : ∀ x ∈ group, x.pattern? = none)
    (hs : Snug tag t) : Snug tag (rewrite parse pos group t).1 := by
  have hstripped : (WellMarked (stripped parse group t).text ∧ Snug tag (stripped parse group t).text) ∧
      ∀ p ∈ (stripped parse group t).pending, p.1 ∈ group := by
    refine stripped_induction parse (P := fun t => WellMarked t ∧ Snug tag t) (fun x _ u hu => ?_)
      (fun x hm h0 u v hu hr => ?_) ⟨h, hs⟩
    · exact ⟨(keeps_removeAll hu.1 x.tag).1, hu.2.removeAll hu.1.hasParts⟩
    · obtain ⟨ls, hl, hb⟩ := (hf.unmarked x hm).block.resolve_left h0
      rw [hb] at hr
      exact ⟨(keeps_replace hu.1 hl hr).1, hu.2.replace? hu.1.hasParts hl hr⟩
  obtain ⟨⟨hw, hsnug⟩, hpending⟩ := hstripped
  have hsettled : Snug tag (settled parse pos group t).text := by
    rcases text_settled parse pos group t with he | he
    · rwa [he]
    · rw [he]
      have hreq : ∀ r ∈ (stripped parse group t).requests, Placement.IsRequest (group.map (·.tag)) r.block := by
        intro r hr
        obtain ⟨p, hm, rfl⟩ := List.mem_map.1 hr
        exact isRequest_block (hf.unmarked _ (hpending p hm)) (List.mem_map_of_mem (hpending p hm))
      exact Placement.snug_insertAll hw hreq hf.classes hsnug
  rcases rewrite_eq_or parse pos group t with he | he
  · rwa [he]
  · rwa [he, draft_eq, foldl_afterLine_of_declarations hp]

/-! ### Several groups -/

theorem snug_rewriteAll : ∀ {groups : List (List Target)} {t : Text}, WellMarked t →
    GroupsFit parse pos groups t → (∀ group ∈ groups, ∀ x ∈ group, x.pattern? = none) → Snug tag t →
    Snug tag (rewriteAll parse pos groups t)
  | [], _, _, _, _, hs => hs
  | group :: groups, t, h, hf, hp, hs => by
    rw [List.forall_mem_cons] at hp
    show Snug tag (rewriteAll parse pos groups (rewrite parse pos group t).1)
    exact snug_rewriteAll (keeps_rewrite h hf.1).1 hf.2 hp.2 (snug_rewrite h hf.1 hp.1 hs)

/-- If no group that changes the text places a target of a tag, the blocks of the tag are gone once a group that
has targets of the tag has changed the text, and else they are there. -/
theorem blocks_rewriteAll : ∀ {groups : List (List Target)} {t : Text}, WellMarked t →
    GroupsFit parse pos groups t → (∀ group ∈ groups, ∀ x ∈ group, x.pattern? = none) →
    (∀ w ∈ works parse pos groups t, (rewrite parse pos w.1 w.2).1 ≠ w.2 →
      ∀ x ∈ w.1, x.tag = tag → x.identifier ∉ (rewrite parse pos w.1 w.2).2) →
    ((∃ w ∈ works parse pos groups t, (∃ x ∈ w.1, x.tag = tag) ∧ (rewrite parse pos w.1 w.2).1 ≠ w.2) ∧
        blocks tag (rewriteAll parse pos groups t) = []) ∨
      ((∀ w ∈ works parse pos groups t, (∃ x ∈ w.1, x.tag = tag) → (rewrite parse pos w.1 w.2).1 = w.2) ∧
        blocks tag (rewriteAll parse pos groups t) = blocks tag t)
  | [], _, _, _, _, _ => .inr ⟨by simp [works], rfl⟩
  | group :: groups, t, h, hf, hp, hn => by
    rw [List.forall_mem_cons] at hp
    rw [works, List.forall_mem_cons] at hn
    rw [works, List.forall_mem_cons]
    have hk := keeps_rewrite h hf.1
    have ih := blocks_rewriteAll hk.1 hf.2 hp.2 hn.2
    show (_ ∧ blocks tag (rewriteAll parse pos groups (rewrite parse pos group t).1) = []) ∨
      (_ ∧ blocks tag (rewriteAll parse pos groups (rewrite parse pos group t).1) = blocks tag t)
    by_cases hc : (∃ x ∈ group, x.tag = tag) ∧ (rewrite parse pos group t).1 ≠ t
    · have hnone := blocks_rewrite_of_unplaced h hf.1 hp.1 hc.1 hc.2 (hn.1 hc.2)
      refine .inl ⟨⟨_, List.mem_cons_self, hc⟩, ?_⟩
      rcases ih with ⟨-, he⟩ | ⟨-, he⟩
      · exact he
      · rw [he, hnone]
    · have hstay : (∃ x ∈ group, x.tag = tag) → (rewrite parse pos group t).1 = t := fun h0 => by
        by_contra hne
        exact hc ⟨h0, hne⟩
      have hblocks : blocks tag (rewrite parse pos group t).1 = blocks tag t := by
        by_cases h0 : ∃ x ∈ group, x.tag = tag
        · rw [hstay h0]
        · exact hk.blocks_eq fun hm => h0 ((List.mem_map.1 hm).imp fun x hx => hx)
      rw [hblocks] at ih
      rcases ih with ⟨⟨w, hw, hx⟩, he⟩ | ⟨hx, he⟩
      · exact .inl ⟨⟨w, List.mem_cons_of_mem _ hw, hx⟩, he⟩
      · exact .inr ⟨⟨hstay, hx⟩, he⟩

end

end Annotation

namespace Annotator

open FileTree Annotation

/-- Where all targets of a tag for a file are skipped, the blocks of the tag in it stay exactly if the run is dry,
there are none, or no target at all succeeds of the groups that have targets of the tag. Without empty lines in
them, this holds of the blocks line by line. -/
theorem skipped_blocks_stay_iff {a : Annotator} {files : FileTree} {l : Location} {t : Text} {targets : List Target}
    {tag : Tag} (ht : files.textAt l = some t) (h : WellMarked t)
    (hf : GroupsFit a.parse a.position (a.groupsAt files targets l) t)
    (hp : ∀ x ∈ targets, (∃ p ∈ x.file, files.leadsTo p l) → x.pattern? = none)
    (hids : (targets.map (·.identifier)).Nodup)
    (hs : ∀ x ∈ targets, (∃ p ∈ x.file, files.leadsTo p l) → x.tag = tag →
      x.identifier ∈ (a.applyAll files targets).tally.skipped) :
    ∃ t', (a.applyAll files targets).files.textAt l = some t' ∧
      (blocks tag t' = blocks tag t ↔ a.dryRun = true ∨ blocks tag t = [] ∨
        ∀ group ∈ a.groupsAt files targets l, (∃ x ∈ group, x.tag = tag) →
          ∀ x ∈ group, x.identifier ∉ (a.applyAll files targets).tally.succeeded) ∧
      (Snug tag t → (blockRows tag t' = blockRows tag t ↔ blocks tag t' = blocks tag t)) := by
  obtain ⟨-, htext⟩ := textAt_applyAll a targets ht
  cases hd : a.dryRun with
  | true =>
    refine ⟨t, ?_, by simp, fun _ => by simp⟩
    rw [htext]
    simp only [unlessDry, hd, if_true]
    exact congrArg some (List.foldlRecOn (motive := fun u => u = t) _ _ rfl fun _ hu _ _ => hu)
  | false =>
    have hclasses : ∀ group ∈ a.groupsAt files targets l, ∀ x ∈ group, x.pattern? = none := by
      intro group hgroup x hx
      obtain ⟨hm, hl⟩ := exists_leadsTo_of_mem_groupsAt hgroup hx
      exact hp x hm hl
    have hunplaced : ∀ w ∈ works a.parse a.position (a.groupsAt files targets l) t,
        (rewrite a.parse a.position w.1 w.2).1 ≠ w.2 →
        ∀ x ∈ w.1, x.tag = tag → x.identifier ∉ (rewrite a.parse a.position w.1 w.2).2 := by
      intro w hw hne x hx htag hplaced
      obtain ⟨hm, hl⟩ := exists_leadsTo_of_mem_groupsAt (fst_mem_of_mem_works hw) hx
      exact not_mem_succeeded_of_mem_skipped hids (hs x hm hl htag)
        ((mem_succeeded_iff hd hids ht hw hx).2 ⟨hne, hplaced⟩)
    refine ⟨_, textAt_applyAll_of_not_dryRun hd targets ht, ?_, fun hsnug => ?_⟩
    · rcases blocks_rewriteAll h hf hclasses hunplaced with ⟨⟨w, hw, h0, hne⟩, he⟩ | ⟨hstay, he⟩
      · rw [he]
        constructor
        · exact fun h => .inr (.inl h.symm)
        · rintro (h | h | h)
          · cases h
          · exact h.symm
          · exact absurd ((rewrite_eq_iff hd hids ht hw).2 (h w.1 (fst_mem_of_mem_works hw) h0)) hne
      · refine iff_of_true he (.inr (.inr fun group hgroup h0 => ?_))
        obtain ⟨u, hw⟩ := exists_mem_works hgroup t
        exact (rewrite_eq_iff hd hids ht hw).1 (hstay (group, u) hw h0)
    · rw [hsnug.blockRows_eq, (snug_rewriteAll h hf hclasses hsnug).blockRows_eq]

/-! ### A model that is gone, and a mailer -/

/-- A class with a block of a model. -/
def ghostFile : Text :=
  "# --- BEGIN annotate:schema ---\n# id\n# --- END annotate:schema ---\nclass User\nend\n".toList

/-- A model whose class is not in the file, and a mailer of the class that is. -/
def ghostTargets : List Target :=
  [Step.userTarget "Ghost" (.declaration "Ghost") .schema "id\nname",
    Step.userTarget "Welcome" (.declaration "User") .mailer "welcome"]

/-- The only model is skipped, and the block of the models is gone. -/
theorem skipped_blocks_lost :
    let a := Step.rubyAnnotator .before
    let files := FileTree.single "user.rb".toList ghostFile
    let l : Location := ["user.rb".toList]
    files.textAt l = some ghostFile ∧ WellMarked ghostFile ∧
      (∀ x ∈ ghostTargets, x.pattern? = none ∧ ∃ p ∈ x.file, files.leadsTo p l) ∧
      (ghostTargets.map (·.identifier)).Nodup ∧
      (∀ x ∈ ghostTargets, x.tag = .schema → x.identifier ∈ (a.applyAll files ghostTargets).tally.skipped) ∧
      ∃ t', (a.applyAll files ghostTargets).files.textAt l = some t' ∧
        blockRows .schema t' ≠ blockRows .schema ghostFile := by
  unfold ghostFile
  repeat rewrite [String.toList_ofList]
  refine ⟨by decide +kernel, by decide +kernel, by decide +kernel, by decide +kernel, by decide +kernel,
    "# --- BEGIN annotate:mailer ---\n# welcome\n# --- END annotate:mailer ---\nclass User\nend\n".toList, ?_, ?_⟩
  all_goals
    repeat rewrite [String.toList_ofList]
    decide +kernel

theorem skipped_blocks_stay_iff_ghost :
    let a := Step.rubyAnnotator .before
    let files := FileTree.single "user.rb".toList ghostFile
    let l : Location := ["user.rb".toList]
    files.textAt l = some ghostFile ∧ WellMarked ghostFile ∧
      GroupsFit a.parse a.position (a.groupsAt files ghostTargets l) ghostFile ∧
      (∀ x ∈ ghostTargets, (∃ p ∈ x.file, files.leadsTo p l) → x.pattern? = none) ∧
      (ghostTargets.map (·.identifier)).Nodup ∧
      (∀ x ∈ ghostTargets, (∃ p ∈ x.file, files.leadsTo p l) → x.tag = .schema →
        x.identifier ∈ (a.applyAll files ghostTargets).tally.skipped) ∧
      ∃ t', (a.applyAll files ghostTargets).files.textAt l = some t' ∧
        (blocks .schema t' = blocks .schema ghostFile ↔ a.dryRun = true ∨ blocks .schema ghostFile = [] ∨
          ∀ group ∈ a.groupsAt files ghostTargets l, (∃ x ∈ group, x.tag = .schema) →
            ∀ x ∈ group, x.identifier ∉ (a.applyAll files ghostTargets).tally.succeeded) ∧
        (Snug .schema ghostFile →
          (blockRows .schema t' = blockRows .schema ghostFile ↔ blocks .schema t' = blocks .schema ghostFile)) := by
  intro a files l
  have ht : files.textAt l = some ghostFile := FileTree.textAt_single _ _
  have h : WellMarked ghostFile := by
    unfold ghostFile
    repeat rewrite [String.toList_ofList]
    decide
  have hf : GroupsFit a.parse a.position (a.groupsAt files ghostTargets l) ghostFile := by
    unfold ghostFile
    repeat rewrite [String.toList_ofList]
    decide +kernel
  have hp : ∀ x ∈ ghostTargets, (∃ p ∈ x.file, files.leadsTo p l) → x.pattern? = none := by decide
  have hids : (ghostTargets.map (·.identifier)).Nodup := by decide
  have hs : ∀ x ∈ ghostTargets, (∃ p ∈ x.file, files.leadsTo p l) → x.tag = .schema →
      x.identifier ∈ (a.applyAll files ghostTargets).tally.skipped := by
    unfold files ghostTargets ghostFile
    repeat rewrite [String.toList_ofList]
    decide +kernel
  obtain ⟨t', htext, hblocks, hrows⟩ := skipped_blocks_stay_iff ht h hf hp hids hs
  exact ⟨ht, h, hf, hp, hids, hs, t', htext, hblocks, hrows⟩

end Annotator
end Marginalia
