/-
# Blocks that later groups overwrite

The targets of a run are grouped by the paths of their files as these are
written, so a file that is named in two ways is worked on by two groups, one
after the other. Each of them exchanges the blocks of the tag or takes them
out: what the file shows in the end are the blocks of the last group that
changes it (`Annotator.succeeded_shown_iff`). A target that succeeded in a group
before that is not shown (`Annotator.succeeded_not_shown`), unless the last
group has its block, too.

Key definitions: `Index.OnLines`, `Annotation.Leaves`, `Annotation.OfTag`.
Key theorems: `Annotation.leaves_rewrite`, `Annotation.rewriteAll_eq_of_works`,
`Annotation.shows_rewriteAll_iff`, `Annotator.succeeded_shown_iff`.
-/
import Marginalia.Proofs.Annotation.Exactness
import Marginalia.Proofs.Annotation.Tracing

namespace Marginalia

open Text Block

/-- A reader finds classes on lines of the text. -/
def Index.OnLines (parse : Text → Index) : Prop :=
  ∀ t, ∀ d ∈ (parse t).classes, d.line ≠ 0 ∧ d.endLine ≤ (rows t).length

theorem Index.onLines_ofCode : OnLines ofCode := by
  intro t d hd
  obtain ⟨i, j, hs, -⟩ := (List.forall₂_same.1 (steady_ofCode t t t rfl rfl) d hd).lines
  rw [hs.line, hs.endLine, length_rows]
  exact ⟨Nat.succ_ne_zero _, codeIndex_lt_length hs.stop_lt⟩

namespace Text

variable {tag : Tag} {t u : Text}

/-- Taking out the blocks of a tag leaves a text without markers, if all that was written into one are blocks of
the tag. -/
theorem not_holdsMarker_removeAll (h : ¬ HoldsMarker t) (hk : Keeps [tag] t u) : ¬ HoldsMarker (removeAll tag u) := by
  rintro ⟨m, hm⟩
  obtain ⟨l, hl, hm⟩ := m.infix_iff_solidLines.1 hm
  have hr : Keeps [tag] t (removeAll tag u) := hk.trans (keeps_removeAll hk.1 tag)
  have hnone : ∀ p ∈ parts (removeAll tag u), p.Avoids tag := by
    have hb := blocks_removeAll hk.1 tag
    rw [blocks, List.filterMap_eq_nil_iff] at hb
    exact hb
  have hall : parts (removeAll tag u) = Part.others [tag] (parts t) := by
    rw [← hr.2, Part.others, List.filter_eq_self.2 fun p hp => by simpa using hnone p hp]
  obtain ⟨p, hp, hlp⟩ := List.mem_flatMap.1 (hr.1.hasParts.2 ▸ hl)
  rw [hall] at hp
  refine h ⟨m, m.infix_iff_solidLines.2 ⟨l, ?_, hm⟩⟩
  rw [(wellMarked_of_not_holdsMarker h).hasParts.2]
  exact List.mem_flatMap.2 ⟨p, (List.mem_filter.1 hp).1, hlp⟩

end Text

namespace Annotation

variable {parse : Text → Index} {pos : Position} {group : List Target} {tag : Tag} {t u : Text}

theorem classesOutside_of_onLines (hl : Index.OnLines parse) (h : ¬ HoldsMarker t) : ClassesOutside parse t := by
  intro d hd
  obtain ⟨h0, hle⟩ := hl t d hd
  have hde := d.line_le_endLine
  exact ⟨outside_of_le_length h h0 (by omega), outside_of_le_length h (by omega) hle⟩

/-- The blocks of the tag in a text are written, and they are those of the targets of a group that are placed. -/
structure Leaves (tag : Tag) (group : List Target) (placed : List String) (v : Text) : Prop where
  /-- No block is torn apart. -/
  snug : Snug tag v
  /-- All blocks are written as for targets. -/
  written : Written tag v
  /-- The blocks without indentation. -/
  blocks : ∀ ls, ls ∈ plainBlocks tag v ↔ ∃ x ∈ group, x.identifier ∈ placed ∧ rows x.block = ls

/-- Exchanging the only block leaves that of the target. -/
theorem leaves_exchange? {x : Target} {name : String} {v : Text} (hu : x.Unmarked) (hp : x.Plain) (h : WellMarked u)
    (hx : exchange? parse u x name = some v) : Keeps [x.tag] u v ∧ Leaves x.tag [x] [x.identifier] v := by
  obtain ⟨⟨h0, h₁⟩, -, hr⟩ := exchange?_eq_some_iff.1 hx
  obtain ⟨hk, hsnug, -, hplain⟩ := plainBlocks_exchange? hu hp h hx
  obtain ⟨cs, hc, hb⟩ := hu.block.resolve_left h0
  rw [hb] at hr
  obtain ⟨-, indent, cs', hi, hc', -, hblocks⟩ := exists_blocks_replace?_eq h h₁ hc hr
  refine ⟨hk, hsnug, fun ls hl => ?_, fun ls => ?_⟩
  · rw [hblocks, List.mem_singleton] at hl
    exact ⟨indent, cs', hi, hc', hl⟩
  · rw [hplain, x.plainBlocks_block hu, if_pos ⟨rfl, h0⟩]
    simp [eq_comm]

/-- What is put in anew are the blocks of the targets whose classes are found. -/
theorem mem_placed_anew_iff {x : Target} (hids : (group.map (·.identifier)).Nodup) (hx : x ∈ group) :
    x.identifier ∈ (anew parse pos tag group t).placed ↔
      ∃ p ∈ atClasses tag group, p.1 = x ∧ ((parse t).resolve? p.2).isSome := by
  have hplaced : (anew parse pos tag group t).placed = ((atClasses tag group).filter fun p =>
      (Placement.insertAll pos (parse t) t ((atClasses tag group).map fun p =>
        { name := p.2, block := p.1.block })).inserted.contains p.2).map (·.1.identifier) := rfl
  rw [hplaced, List.mem_map]
  constructor
  · rintro ⟨p, hp, he⟩
    obtain ⟨hp, hin⟩ := List.mem_filter.1 hp
    refine ⟨p, hp, List.inj_on_of_nodup_map hids (mem_atClasses hp).1 hx he, ?_⟩
    obtain ⟨r, -, hr, hfound⟩ := Placement.mem_inserted_iff.1 (List.contains_iff_mem.1 hin)
    rwa [← hr]
  · rintro ⟨p, hp, rfl, hfound⟩
    refine ⟨p, List.mem_filter.2 ⟨hp, List.contains_iff_mem.2 ?_⟩, rfl⟩
    exact Placement.mem_inserted_iff.2 ⟨_, List.mem_map_of_mem hp, rfl, hfound⟩

/-- Targets of one tag at classes, each with a block and an identifier of its own. -/
structure OfTag (tag : Tag) (group : List Target) : Prop extends AtClasses group where
  /-- They have the tag. -/
  tagged : ∀ x ∈ group, x.tag = tag
  /-- No annotation is blank. -/
  block : ∀ x ∈ group, x.block ≠ []
  /-- No two have one identifier. -/
  distinct : (group.map (·.identifier)).Nodup

/-- A batch that is put into a text without markers leaves the blocks of the targets that are placed. -/
theorem leaves_anew (pos : Position) (hg : OfTag tag group) (h : ¬ HoldsMarker t) (hc : ClassesOutside parse t) :
    Keeps [tag] t (anew parse pos tag group t).text ∧
      Leaves tag group (anew parse pos tag group t).placed (anew parse pos tag group t).text := by
  have hw := wellMarked_of_not_holdsMarker h
  have hlacks : ¬ tag.beginMarker <:+: t := fun hm => h ⟨.opening tag, hm⟩
  have hnone : blocks tag t = [] := by
    rw [blocks, List.filterMap_eq_nil_iff]
    exact hw.hasParts.not_infix_iff.1 hlacks
  let rs : List Placement.Request := (atClasses tag group).map fun p => { name := p.2, block := p.1.block }
  have hreq : ∀ r ∈ rs, Placement.IsRequest [tag] r.block := by
    intro r hr
    obtain ⟨p, hp, rfl⟩ := List.mem_map.1 hr
    obtain ⟨hm, htag⟩ := mem_atClasses hp
    exact isRequest_block (hg.unmarked _ hm) (by simp [htag])
  have hplain : ∀ r ∈ rs, ∃ s, Placement.IsPlain s r.block := by
    intro r hr
    obtain ⟨p, hp, rfl⟩ := List.mem_map.1 hr
    obtain ⟨hm, -⟩ := mem_atClasses hp
    exact ⟨_, p.1.isPlain_block (hg.unmarked _ hm) (hg.plain _ hm)⟩
  have hperm := (Placement.plainBlocks_insertAll pos tag hw hplain hc).1
  refine ⟨Placement.keeps_insertAll hw hreq hc, Placement.snug_insertAll hw hreq hc (snug_of_lacks_marker hlacks),
    Placement.written_insertAll hw hreq hc (written_of_blocks_eq_nil hnone), fun ls => ?_⟩
  have hblock {p : Target × String} (hp : p ∈ atClasses tag group) : plainBlocks tag p.1.block = [rows p.1.block] := by
    obtain ⟨hm, htag⟩ := mem_atClasses hp
    rw [Target.plainBlocks_block (hg.unmarked _ hm), if_pos ⟨htag, hg.block _ hm⟩]
  refine hperm.mem_iff.trans ?_
  rw [plainBlocks, hnone, List.map_nil, List.append_nil, List.mem_flatMap]
  constructor
  · rintro ⟨r, hr, hl⟩
    obtain ⟨hr, hfound⟩ := List.mem_filter.1 hr
    obtain ⟨p, hp, rfl⟩ := List.mem_map.1 hr
    rw [hblock hp, List.mem_singleton] at hl
    have hm := (mem_atClasses hp).1
    exact ⟨p.1, hm, (mem_placed_anew_iff hg.distinct hm).2 ⟨p, hp, rfl, hfound⟩, hl.symm⟩
  · rintro ⟨x, hm, hi, rfl⟩
    obtain ⟨p, hp, rfl, hfound⟩ := (mem_placed_anew_iff hg.distinct hm).1 hi
    refine ⟨_, List.mem_filter.2 ⟨List.mem_map_of_mem hp, hfound⟩, ?_⟩
    rw [hblock hp]
    exact List.mem_singleton_self _

/-- A group that changes a text, into which nothing was written but blocks of its tag, leaves the blocks of its
targets that are placed. -/
theorem leaves_rewrite (pos : Position) (hl : Index.OnLines parse) (h : ¬ HoldsMarker t) (hk : Keeps [tag] t u)
    (hg : OfTag tag group) :
    Keeps [tag] t (rewrite parse pos group u).1 ∧ ((rewrite parse pos group u).1 ≠ u →
      Leaves tag group (rewrite parse pos group u).2 (rewrite parse pos group u).1) := by
  by_cases hne : (rewrite parse pos group u).1 = u
  · exact ⟨hne.symm ▸ hk, fun hne' => absurd hne hne'⟩
  have hgroup : group ≠ [] := by
    rintro rfl
    exact hne (rewrite_eq_self (.inl rfl))
  have htext := (rewrite_eq_or parse pos group u).resolve_left hne
  have hplaced : (rewrite parse pos group u).2 = (draft parse pos group u).placed := by
    simp only [rewrite]
    split <;> rfl
  rw [htext, hplaced]
  rcases draft_of_declarations parse pos hg.tagged hg.classes hgroup u with ⟨x, name, v, rfl, -, hx, hd⟩ | ⟨-, hd⟩
  · obtain rfl := hg.tagged x List.mem_cons_self
    obtain ⟨hk', hleaves⟩ := leaves_exchange? (hg.unmarked x List.mem_cons_self) (hg.plain x List.mem_cons_self) hk.1 hx
    rw [hd]
    exact ⟨hk.trans hk', fun _ => hleaves⟩
  · have hfree := not_holdsMarker_removeAll h hk
    obtain ⟨hk', hleaves⟩ := leaves_anew pos hg hfree (classesOutside_of_onLines hl hfree)
    rw [hd]
    exact ⟨(hk.trans (keeps_removeAll hk.1 tag)).trans hk', fun _ => hleaves⟩

/-! ### Several groups -/

theorem rewriteAll_of_unchanged : ∀ {groups : List (List Target)} {t : Text},
    (∀ w ∈ works parse pos groups t, (rewrite parse pos w.1 w.2).1 = w.2) → rewriteAll parse pos groups t = t
  | [], _, _ => rfl
  | group :: groups, t, h => by
    rw [works, List.forall_mem_cons] at h
    show rewriteAll parse pos groups (rewrite parse pos group t).1 = t
    rw [rewriteAll_of_unchanged h.2]
    exact h.1

/-- Groups leave what the last one leaves that changes the text. -/
theorem rewriteAll_eq_of_works {before after : List (List Target × Text)} :
    ∀ {groups : List (List Target)} {t : Text}, works parse pos groups t = before ++ (group, u) :: after →
      (∀ w ∈ after, (rewrite parse pos w.1 w.2).1 = w.2) →
      rewriteAll parse pos groups t = (rewrite parse pos group u).1 := by
  induction before with
  | nil =>
    intro groups t hw ha
    cases groups with
    | nil => cases hw
    | cons g groups =>
      rw [works, List.nil_append, List.cons.injEq] at hw
      obtain ⟨hw, rfl⟩ := hw
      cases hw
      exact rewriteAll_of_unchanged ha
  | cons w before ih =>
    intro groups t hw ha
    cases groups with
    | nil => cases hw
    | cons g groups =>
      rw [works, List.cons_append, List.cons.injEq] at hw
      show rewriteAll parse pos groups (rewrite parse pos g t).1 = _
      exact ih hw.2 ha

/-- Each of several groups of one tag works on a text into which nothing was written but blocks of the tag. -/
theorem keeps_works (hl : Index.OnLines parse) (h : ¬ HoldsMarker t) :
    ∀ {groups : List (List Target)} {u : Text}, Keeps [tag] t u → (∀ g ∈ groups, OfTag tag g) →
      ∀ w ∈ works parse pos groups u, Keeps [tag] t w.2
  | [], _, _, _ => by simp [works]
  | g :: groups, u, hk, hg => by
    rw [List.forall_mem_cons] at hg
    rw [works, List.forall_mem_cons]
    exact ⟨hk, keeps_works hl h (leaves_rewrite pos hl h hk hg.1).1 hg.2⟩

/-- A block is told by its lines. -/
theorem joinLines_rows_block {x : Target} (hu : x.Unmarked) : joinLines (rows x.block) = x.block := by
  rcases hu.block with h0 | ⟨cs, hc, hb⟩
  · rw [h0]
    rfl
  · rw [hb, rows_frame .nil hc]
    rfl

/-- In the end a text shows a block exactly if the last group that changes it places a target with that block. -/
theorem shows_rewriteAll_iff {groups : List (List Target)} {before after : List (List Target × Text)} {x : Target}
    (hl : Index.OnLines parse) (h : ¬ HoldsMarker t) (hg : ∀ g ∈ groups, OfTag tag g)
    (hw : works parse pos groups t = before ++ (group, u) :: after) (hne : (rewrite parse pos group u).1 ≠ u)
    (hafter : ∀ w ∈ after, (rewrite parse pos w.1 w.2).1 = w.2) (hu : x.Unmarked) (ht : x.tag = tag)
    (h0 : x.block ≠ []) : Shows (rewriteAll parse pos groups t) x.block ↔
      ∃ y ∈ group, y.identifier ∈ (rewrite parse pos group u).2 ∧ y.block = x.block := by
  have hmem : (group, u) ∈ works parse pos groups t := by
    rw [hw]
    exact List.mem_append_right _ List.mem_cons_self
  have hgroup : OfTag tag group := hg group (fst_mem_of_mem_works hmem)
  have hk : Keeps [tag] t u :=
    keeps_works hl h (keeps_refl (wellMarked_of_not_holdsMarker h) [tag]) hg (group, u) hmem
  obtain ⟨hk', hleaves⟩ := leaves_rewrite pos hl h hk hgroup
  have hleaves := hleaves hne
  obtain ⟨cs, hcs, hframe⟩ := hu.block.resolve_left h0
  rw [ht] at hframe
  rw [rewriteAll_eq_of_works hw hafter, hframe, shows_iff hk'.1 hleaves.snug hleaves.written hcs, ← hframe,
    hleaves.blocks]
  refine exists_congr fun y => and_congr_right fun hy => and_congr_right fun _ => ⟨fun he => ?_, fun he => by rw [he]⟩
  rw [← joinLines_rows_block (hgroup.unmarked y hy), he, joinLines_rows_block hu]

/-- Of a list in which something holds somewhere, the last place where it holds. -/
theorem exists_last {α : Type} {P : α → Prop} {xs : List α} (h : ∃ x ∈ xs, P x) :
    ∃ before x after, xs = before ++ x :: after ∧ P x ∧ ∀ y ∈ after, ¬ P y := by
  induction xs with
  | nil => obtain ⟨x, hx, -⟩ := h; cases hx
  | cons x xs ih =>
    by_cases hs : ∃ y ∈ xs, P y
    · obtain ⟨before, y, after, rfl, hy, ha⟩ := ih hs
      exact ⟨x :: before, y, after, rfl, hy, ha⟩
    · obtain ⟨y, hy, hp⟩ := h
      rcases List.mem_cons.1 hy with rfl | hy
      · exact ⟨[], y, xs, rfl, hp, fun z hz hpz => hs ⟨z, hz, hpz⟩⟩
      · exact absurd ⟨y, hy, hp⟩ hs

end Annotation

namespace Annotator

open FileTree Annotation

variable {a : Annotator} {files : FileTree} {targets : List Target} {l : Location} {tag : Tag} {t : Text} {x : Target}

theorem ofTag_of_mem_groupsAt (h : OfTag tag targets) {group : List Target}
    (hg : group ∈ a.groupsAt files targets l) : OfTag tag group := by
  have hsub := subset_of_mem_groupsAt hg
  obtain ⟨g, hgm, rfl⟩ := List.mem_map.1 hg
  refine ⟨⟨fun y hy => h.classes y (hsub hy), fun y hy => h.unmarked y (hsub hy), fun y hy => h.plain y (hsub hy)⟩,
    fun y hy => h.tagged y (hsub hy), fun y hy => h.block y (hsub hy), ?_⟩
  rw [snd_of_mem_groups (List.mem_filter.1 hgm).1]
  exact h.distinct.sublist (List.filter_sublist.map _)

/-- The group of a target that succeeded, or one after it, is the last that changes the file. -/
theorem exists_last_work (hd : a.dryRun = false) (hids : (targets.map (·.identifier)).Nodup)
    (htext : files.textAt l = some t) {group : List Target} (hgroup : group ∈ a.groupsAt files targets l)
    (hx : x ∈ group) (hi : x.identifier ∈ (a.applyAll files targets).tally.succeeded) :
    ∃ before g u after, works a.parse a.position (a.groupsAt files targets l) t = before ++ (g, u) :: after ∧
      (rewrite a.parse a.position g u).1 ≠ u ∧ ∀ w ∈ after, (rewrite a.parse a.position w.1 w.2).1 = w.2 := by
  obtain ⟨v, hw⟩ := exists_mem_works hgroup t
  have hchange : ∃ w ∈ works a.parse a.position (a.groupsAt files targets l) t,
      (rewrite a.parse a.position w.1 w.2).1 ≠ w.2 :=
    ⟨(group, v), hw, ((mem_succeeded_iff hd hids htext hw hx).1 hi).1⟩
  obtain ⟨before, ⟨g, u⟩, after, he, hne, hafter⟩ := exists_last hchange
  exact ⟨before, g, u, after, he, hne, fun w hw => not_not.1 (hafter w hw)⟩

/-- Where the file in the end shows the block of a target that succeeded, the last group that changes the file has
the block. -/
theorem shows_groupsAt_iff (hd : a.dryRun = false) (hl : Index.OnLines a.parse) (hg : OfTag tag targets)
    (htext : files.textAt l = some t) (hm : ¬ HoldsMarker t) (hx : x ∈ targets) {group : List Target}
    (hgroup : group ∈ a.groupsAt files targets l) (hxg : x ∈ group)
    (hi : x.identifier ∈ (a.applyAll files targets).tally.succeeded) :
    Shows (rewriteAll a.parse a.position (a.groupsAt files targets l) t) x.block ↔
      ∃ before group after, a.groupsAt files targets l = before ++ group :: after ∧
        (∃ y ∈ group, y.identifier ∈ (a.applyAll files targets).tally.succeeded ∧ y.block = x.block) ∧
        ∀ g ∈ after, ∀ y ∈ g, y.identifier ∉ (a.applyAll files targets).tally.succeeded := by
  have hshows {before after : List (List Target × Text)} {g : List Target} {u : Text}
      (hw : works a.parse a.position (a.groupsAt files targets l) t = before ++ (g, u) :: after)
      (hne : (rewrite a.parse a.position g u).1 ≠ u)
      (hafter : ∀ w ∈ after, (rewrite a.parse a.position w.1 w.2).1 = w.2) :=
    shows_rewriteAll_iff hl hm (fun g hg' => ofTag_of_mem_groupsAt hg hg') hw hne hafter (hg.unmarked x hx)
      (hg.tagged x hx) (hg.block x hx)
  constructor
  · intro h
    obtain ⟨before, g, u, after, he, hne, hafter⟩ := exists_last_work hd hg.distinct htext hgroup hxg hi
    have hmem : ∀ w ∈ (g, u) :: after, w ∈ works a.parse a.position (a.groupsAt files targets l) t := fun w hw => by
      rw [he]
      exact List.mem_append_right _ hw
    refine ⟨before.map (·.1), g, after.map (·.1), ?_, ?_, fun g' hg' y hy => ?_⟩
    · rw [← map_fst_works a.parse a.position (a.groupsAt files targets l) t, he, List.map_append, List.map_cons]
    · obtain ⟨y, hy, hplaced, hblock⟩ := (hshows he hne hafter).1 h
      exact ⟨y, hy, (mem_succeeded_iff hd hg.distinct htext (hmem _ List.mem_cons_self) hy).2 ⟨hne, hplaced⟩, hblock⟩
    · obtain ⟨w, hw, rfl⟩ := List.mem_map.1 hg'
      exact (rewrite_eq_iff hd hg.distinct htext (hmem w (List.mem_cons_of_mem _ hw))).1 (hafter w hw) y hy
  · rintro ⟨before, g, after, he, ⟨y, hy, hys, hblock⟩, hafter⟩
    rw [← map_fst_works a.parse a.position (a.groupsAt files targets l) t] at he
    obtain ⟨wbefore, rest, hw, -, hrest⟩ := List.map_eq_append_iff.1 he
    obtain ⟨⟨g', u⟩, wafter, rfl, rfl, rfl⟩ := List.map_eq_cons_iff.1 hrest
    have hmem : ∀ w ∈ (g', u) :: wafter, w ∈ works a.parse a.position (a.groupsAt files targets l) t := fun w hwm => by
      rw [hw]
      exact List.mem_append_right _ hwm
    obtain ⟨hne, hplaced⟩ := (mem_succeeded_iff hd hg.distinct htext (hmem _ List.mem_cons_self) hy).1 hys
    refine (hshows hw hne fun w hwm => ?_).2 ⟨y, hy, hplaced, hblock⟩
    exact (rewrite_eq_iff hd hg.distinct htext (hmem w (List.mem_cons_of_mem _ hwm))).2
      (hafter w.1 (List.mem_map_of_mem hwm))

/-- After a run for targets of one tag at classes of files without markers, the file of a target that succeeded
shows its block exactly if the last group that leads to the file and has a target that succeeded has such a target
with the same block. If the file is named by one path alone, it does. -/
theorem succeeded_shown_iff (hd : a.dryRun = false) (hl : Index.OnLines a.parse) (ht : ∀ x ∈ targets, x.tag = tag)
    (hg : AtClasses targets) (hids : (targets.map (·.identifier)).Nodup)
    (h0 : ∀ x ∈ targets, ¬ x.payload.all isBlank)
    (hm : ∀ x ∈ targets, ∀ p ∈ x.file, ∀ t, files.read p = .ok t → ¬ HoldsMarker t)
    (hx : x ∈ targets) (hi : x.identifier ∈ (a.applyAll files targets).tally.succeeded) :
    ∃ p ∈ x.file, ∃ l t', files.leadsTo p l ∧ (a.applyAll files targets).files.textAt l = some t' ∧
      (Shows t' x.block ↔ ∃ before group after, a.groupsAt files targets l = before ++ group :: after ∧
        (∃ y ∈ group, y.identifier ∈ (a.applyAll files targets).tally.succeeded ∧ y.block = x.block) ∧
        ∀ g ∈ after, ∀ y ∈ g, y.identifier ∉ (a.applyAll files targets).tally.succeeded) ∧
      ((∀ y ∈ targets, ∀ q ∈ y.file, files.leadsTo q l → p.same q) → Shows t' x.block) := by
  obtain ⟨p, hp, l, t, hlp, htext, group, hgroup, hxg⟩ := exists_of_mem_succeeded hids hx hi
  have htag : OfTag tag targets := ⟨hg, ht, fun x hx hb => h0 x hx (x.block_eq_nil_iff.1 hb), hids⟩
  have hfree : ¬ HoldsMarker t := hm x hx p hp t (read_eq_ok_iff.2 ⟨l, leadsTo_iff.1 hlp, htext⟩)
  have hshows := shows_groupsAt_iff hd hl htag htext hfree hx hgroup hxg hi
  refine ⟨p, hp, l, _, hlp, textAt_applyAll_of_not_dryRun hd targets htext, hshows, fun hone => hshows.2 ?_⟩
  obtain ⟨g, hgm, rfl⟩ := List.mem_map.1 hgroup
  obtain ⟨hgm, hgl⟩ := List.mem_filter.1 hgm
  have hsingle : a.groupsAt files targets l = [g.2] := groupsAt_eq_singleton
    (fun y hy z hz q hq r hr hql hrl =>
      beq_iff_eq.2 ((eq_of_beq (hone y hy q hq hql)).symm.trans (eq_of_beq (hone z hz r hr hrl)))) hgm hgl
  exact ⟨[], g.2, [], hsingle, ⟨x, hxg, hi, rfl⟩, by simp⟩

/-! ### Two paths of one file -/

/-- Two classes. -/
def rolesFile : Text := "class User\nend\nclass Role\nend\n".toList

/-- Two models, whose file is named in two ways. -/
def rolesTargets : List Target :=
  [Step.userTarget "User" (.declaration "User") .schema "id",
    { Step.userTarget "Role" (.declaration "Role") .schema "name" with file := some ⟨"./user.rb".toList⟩ }]

/-- The file after a run: the block of the first model is exchanged for that of the second. -/
def exchangedFile : Text :=
  "# --- BEGIN annotate:schema ---\n# name\n# --- END annotate:schema ---\nclass User\nend\nclass Role\nend\n".toList

/-- Both models succeed, and the block of the first is not in the file. -/
theorem succeeded_not_shown :
    let a := Step.rubyAnnotator .before
    let files := FileTree.single "user.rb".toList rolesFile
    a.dryRun = false ∧
      (∀ x ∈ rolesTargets, x.tag = .schema ∧ x.pattern? = none ∧ x.Unmarked ∧ ¬ x.payload.all isBlank) ∧
      (rolesTargets.map (·.identifier)).Nodup ∧
      (∀ x ∈ rolesTargets, ∃ p ∈ x.file, files.read p = .ok rolesFile) ∧ ¬ HoldsMarker rolesFile ∧
      (∀ x ∈ rolesTargets, x.identifier ∈ (a.applyAll files rolesTargets).tally.succeeded) ∧
      ∃ x ∈ rolesTargets, ∃ p ∈ x.file, ∃ t', (a.applyAll files rolesTargets).files.read p = .ok t' ∧
        ¬ Shows t' x.block := by
  -- the text is spelled out, as a literal is decoded anew wherever it is compared
  unfold rolesFile
  repeat rewrite [String.toList_ofList]
  refine ⟨rfl, by decide +kernel, by decide +kernel, by decide +kernel, by decide +kernel, by decide +kernel,
    _, List.mem_cons_self, _, rfl, exchangedFile, ?_, ?_⟩
  · unfold exchangedFile
    repeat rewrite [String.toList_ofList]
    decide +kernel
  rintro ⟨indent, -, hin⟩
  have hid : "# id".toList ∈ rows (Step.userTarget "User" (.declaration "User") .schema "id").block := by decide
  have hnone : ∀ l ∈ rows exchangedFile, ¬ "# id".toList <:+ l := by
    unfold exchangedFile
    repeat rewrite [String.toList_ofList]
    decide
  exact hnone _ (hin.subset (List.mem_map_of_mem hid)) (List.suffix_append _ _)

theorem succeeded_shown_iff_roles :
    let a := { Step.rubyAnnotator .before with parse := Index.ofCode }
    let files := FileTree.single "user.rb".toList rolesFile
    let x := Step.userTarget "User" (.declaration "User") .schema "id"
    a.dryRun = false ∧ Index.OnLines a.parse ∧ (∀ x ∈ rolesTargets, x.tag = .schema) ∧ AtClasses rolesTargets ∧
      (rolesTargets.map (·.identifier)).Nodup ∧ (∀ x ∈ rolesTargets, ¬ x.payload.all isBlank) ∧
      (∀ x ∈ rolesTargets, ∀ p ∈ x.file, ∀ t, files.read p = .ok t → ¬ HoldsMarker t) ∧ x ∈ rolesTargets ∧
      x.identifier ∈ (a.applyAll files rolesTargets).tally.succeeded ∧
      ∃ p ∈ x.file, ∃ l t', files.leadsTo p l ∧ (a.applyAll files rolesTargets).files.textAt l = some t' ∧
        (Shows t' x.block ↔ ∃ before group after, a.groupsAt files rolesTargets l = before ++ group :: after ∧
          (∃ y ∈ group, y.identifier ∈ (a.applyAll files rolesTargets).tally.succeeded ∧ y.block = x.block) ∧
          ∀ g ∈ after, ∀ y ∈ g, y.identifier ∉ (a.applyAll files rolesTargets).tally.succeeded) ∧
        ((∀ y ∈ rolesTargets, ∀ q ∈ y.file, files.leadsTo q l → p.same q) → Shows t' x.block) := by
  intro a files x
  have ht : ∀ x ∈ rolesTargets, x.tag = .schema := by decide
  have hreturn : ∀ x ∈ rolesTargets, '\r' ∉ x.payload := by decide
  have hg : AtClasses rolesTargets :=
    ⟨by decide, by decide, fun x hx => x.plain_of_not_mem (hreturn x hx)⟩
  have hids : (rolesTargets.map (·.identifier)).Nodup := by decide
  have h0 : ∀ x ∈ rolesTargets, ¬ x.payload.all isBlank := by decide
  have hread : ∀ x ∈ rolesTargets, ∀ p ∈ x.file, files.read p = .ok rolesFile := by decide
  have hm : ∀ x ∈ rolesTargets, ∀ p ∈ x.file, ∀ t, files.read p = .ok t → ¬ HoldsMarker t := by
    intro x hx p hp t hr
    cases (hread x hx p hp).symm.trans hr
    decide
  have hx : x ∈ rolesTargets := List.mem_cons_self
  have hi : x.identifier ∈ (a.applyAll files rolesTargets).tally.succeeded := by decide +kernel
  exact ⟨rfl, Index.onLines_ofCode, ht, hg, hids, h0, hm, hx, hi,
    succeeded_shown_iff rfl Index.onLines_ofCode ht hg hids h0 hm hx hi⟩

end Annotator
end Marginalia
