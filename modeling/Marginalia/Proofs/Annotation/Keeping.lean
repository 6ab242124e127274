/-
# A rewrite keeps the source

Each stage of a draft keeps the parts of the text other than the blocks of the
group's tags, if the payloads hold no marker and the places are outside all
blocks (`Fits`). The text on which this is asked is the one on which the stage
works.

Key definitions: `Annotation.Draft.AnchorsFit`, `Annotation.Fits`.
Key theorem: `Annotation.keeps_rewrite`.
-/
import Marginalia.Proofs.Annotation.Stages
import Marginalia.Proofs.Placement.Splicing

namespace Marginalia

open Text

namespace Annotation

/-- Where a target is placed at a line, the lines that match are outside all blocks of the text on
which it is being worked. -/
def Draft.AnchorsFit : Draft → List Target → Prop
  | _, [] => True
  | d, target :: targets =>
    (∀ pattern ∈ target.pattern?, AnchorsOutside pattern.isIn d.text) ∧
    (d.afterLine target).AnchorsFit targets

instance Draft.decidableAnchorsFit : (targets : List Target) → (d : Draft) → Decidable (d.AnchorsFit targets)
  | [], _ => inferInstanceAs (Decidable True)
  | _ :: targets, _ => @instDecidableAnd _ _ _ (decidableAnchorsFit targets _)

/-- Targets at classes are placed at no line. -/
theorem Draft.anchorsFit_of_declarations : ∀ {targets : List Target} {d : Draft},
    (∀ target ∈ targets, target.pattern? = none) → d.AnchorsFit targets
  | [], _, _ => trivial
  | target :: targets, d, h => by
    rw [List.forall_mem_cons] at h
    exact ⟨by simp [h.1], anchorsFit_of_declarations h.2⟩

/-- The group can be put into the text without regard to what stands in blocks: its comment lines
hold no marker, no class that is found starts or ends in a block, and no pattern matches there. -/
structure Fits (parse : Text → Index) (pos : Position) (group : List Target) (t : Text) : Prop where
  /-- The comment lines. -/
  unmarked : ∀ target ∈ group, target.Unmarked
  /-- The classes of the text into which the blocks are put. -/
  classes : ∀ d ∈ (parse (stripped parse group t).text).classes,
    Outside (stripped parse group t).text d.line ∧ Outside (stripped parse group t).text d.endLine
  /-- The patterns. -/
  anchors : (settled parse pos group t).AnchorsFit group

instance (parse : Text → Index) (pos : Position) (group : List Target) (t : Text) :
    Decidable (Fits parse pos group t) :=
  decidable_of_iff (_ ∧ _ ∧ _) ⟨fun ⟨h₁, h₂, h₃⟩ => ⟨h₁, h₂, h₃⟩, fun ⟨h₁, h₂, h₃⟩ => ⟨h₁, h₂, h₃⟩⟩

section

variable {parse : Text → Index} {pos : Position} {group : List Target} {t : Text}

/-- A block of a target is a request for its tag. -/
theorem isRequest_block {target : Target} {tags : List Tag} (hu : target.Unmarked) (ht : target.tag ∈ tags) :
    Placement.IsRequest tags target.block :=
  hu.block.imp_right fun hb => ⟨_, ht, hb⟩

theorem keeps_stripped (h : WellMarked t) (hu : ∀ target ∈ group, target.Unmarked) :
    Keeps (group.map (·.tag)) t (stripped parse group t).text ∧
      ∀ p ∈ (stripped parse group t).pending, p.1 ∈ group := by
  have hs {target : Target} (hm : target ∈ group) : [target.tag] ⊆ group.map (·.tag) := by
    simpa using ⟨target, hm, rfl⟩
  refine stripped_induction parse (fun target hm t' hk => ?_) (fun target hm h0 t' t'' hk hr => ?_)
    (keeps_refl h _)
  · exact hk.trans ((keeps_removeAll hk.1 target.tag).mono (hs hm))
  · obtain ⟨ls, hl, hb⟩ := (hu _ hm).block.resolve_left h0
    rw [hb] at hr
    exact hk.trans ((keeps_replace hk.1 hl hr).mono (hs hm))

/-- Handling one tag keeps all but its blocks. -/
theorem keeps_afterTag {d : Draft} (h : WellMarked d.text) (hu : ∀ target ∈ group, target.Unmarked) (tag : Tag) :
    Keeps [tag] d.text (d.afterTag parse group tag).text := by
  rcases afterTag_cases parse group d tag with ⟨-, he⟩ | ⟨target, name, t', hc, hx, he⟩ | ⟨-, -, he⟩
  · rw [he]
    exact keeps_refl h _
  · rw [he]
    obtain ⟨hm, rfl⟩ := mem_atClasses (x := (target, name)) (hc ▸ List.mem_singleton_self _)
    unfold exchange? at hx
    split at hx
    · cases hx
    · next hb =>
      obtain ⟨ls, hl, hblock⟩ := (hu target hm).block.resolve_left fun h0 => hb (.inl h0)
      split at hx
      · cases hx
      · rw [hblock] at hx
        exact keeps_replace h hl hx
  · rw [he]
    exact keeps_removeAll h tag

theorem keeps_settled (h : WellMarked t) (hf : Fits parse pos group t) :
    Keeps (group.map (·.tag)) t (settled parse pos group t).text := by
  have hs : Keeps (group.map (·.tag)) t (stripped parse group t).text ∧
      ∀ p ∈ (stripped parse group t).pending, p.1 ∈ group := keeps_stripped h hf.unmarked
  obtain ⟨hk, hp⟩ := hs
  rcases text_settled parse pos group t with he | he
  · rwa [he]
  · rw [he]
    refine hk.trans (Placement.keeps_insertAll hk.1 (fun r hr => ?_) hf.classes)
    obtain ⟨p, hm, rfl⟩ := List.mem_map.1 hr
    exact isRequest_block (hf.unmarked _ (hp p hm)) (List.mem_map_of_mem (hp p hm))

theorem keeps_foldl_afterLine : ∀ {targets : List Target} {d : Draft}, WellMarked d.text →
    (∀ target ∈ targets, target.Unmarked) → d.AnchorsFit targets →
    Keeps (targets.map (·.tag)) d.text (targets.foldl Draft.afterLine d).text
  | [], _, h, _, _ => keeps_refl h _
  | target :: targets, d, h, hu, ha => by
    rw [List.forall_mem_cons] at hu
    have hk : Keeps [target.tag] d.text (d.afterLine target).text := by
      rw [text_afterLine]
      split
      · exact keeps_refl h _
      · next pattern hp =>
        refine keeps_upsert h (hu.1.block.imp_right fun ⟨ls, hl, hb⟩ => ?_) (ha.1 pattern hp)
        exact ⟨_, hb ▸ Block.hasParts_frame .nil hl⟩
    have hk' := keeps_foldl_afterLine hk.1 hu.2 ha.2
    exact (hk.mono (by simp)).trans (hk'.mono (by simp))

/-- What a group does to a text that it fits keeps all but the blocks of its tags. -/
theorem keeps_rewrite (h : WellMarked t) (hf : Fits parse pos group t) :
    Keeps (group.map (·.tag)) t (rewrite parse pos group t).1 := by
  have hs := keeps_settled h hf
  rcases rewrite_eq_or parse pos group t with he | he
  · rw [he]
    exact keeps_refl h _
  · rw [he, draft_eq]
    exact hs.trans (keeps_foldl_afterLine hs.1 hf.unmarked hf.anchors)

end

end Annotation
end Marginalia
