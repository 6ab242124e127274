/-
# Stray begin markers

A text without a block of a tag may hold its begin marker all the same, with no
end marker below it. If it does not, annotating the file any number of times
and taking the blocks out again loses none of its lines; if it does, one run
with a target below the stray marker is enough for the removal that follows to
lose one (`Step.lines_survive_iff`).

Key theorems: `Annotation.shelters_rewrite`, `Annotation.not_sublist_of_stray`,
`Step.lines_survive_iff`.
-/
import Marginalia.Proofs.Annotation.Effect
import Marginalia.Proofs.Annotation.Stages
import Marginalia.Proofs.Block.Sheltering
import Marginalia.Proofs.Block.Straying
import Marginalia.Proofs.Pattern.Literal
import Marginalia.Proofs.Placement.Splicing

namespace Marginalia

open Text Block

namespace Annotation

/-! ### Lines without begin markers -/

section

variable {parse : Text → Index} {pos : Position} {group : List Target} {tag : Tag} {original : List Text}
  {t : Text}

theorem shelters_place (h : Shelters tag original (solidLines t)) {cs : List Text} (hc : CommentLines cs)
    (d : Declaration) : Shelters tag original (solidLines (Placement.place pos t d (frame tag [] cs))) := by
  obtain ⟨n, indent, cs', hi, hc', he⟩ := Placement.exists_solidLines_place pos t d tag hc
  rw [he]
  exact (h.of_eq (solidLines_take_append_drop t n)).insert_frame hi hc'

theorem shelters_placeAll : ∀ {rs : List (Declaration × Placement.Request)} {t : Text},
    (∀ r ∈ rs, r.2.block = [] ∨ ∃ cs, CommentLines cs ∧ r.2.block = frame tag [] cs) →
    Shelters tag original (solidLines t) → Shelters tag original (solidLines (Placement.placeAll pos t rs))
  | [], _, _, h => h
  | r :: rs, t, hr, h => by
    rw [List.forall_mem_cons] at hr
    rw [Placement.placeAll, List.foldl_cons]
    split
    · exact shelters_placeAll hr.2 h
    · next h0 =>
      obtain ⟨cs, hc, he⟩ := hr.1.resolve_left h0
      rw [he]
      exact shelters_placeAll hr.2 (shelters_place h hc r.1)

/-- The original lines stay sheltered when the targets of their tag are put in. -/
theorem shelters_rewrite (hu : ∀ target ∈ group, target.Unmarked) (ht : ∀ target ∈ group, target.tag = tag)
    (h : Shelters tag original (solidLines t)) :
    Shelters tag original (solidLines (rewrite parse pos group t).1) := by
  have hb {target : Target} (hm : target ∈ group) :
      target.block = [] ∨ ∃ cs, CommentLines cs ∧ target.block = frame tag [] cs := by
    rw [← ht _ hm]
    exact (hu _ hm).block
  obtain ⟨hs, hp⟩ := stripped_induction (P := fun t => Shelters tag original (solidLines t)) parse
    (fun target hm t h => by rw [ht _ hm]; exact h.removeAll)
    (fun target hm h0 t t' h hr => by
      obtain ⟨cs, hc, he⟩ := (hb hm).resolve_left h0
      rw [ht _ hm, he] at hr
      exact h.replace? hc hr) h
  have hset : Shelters tag original (solidLines (settled parse pos group t).text) := by
    rcases text_settled parse pos group t with he | he
    · rwa [he]
    · rw [he]
      refine shelters_placeAll (fun r hr => ?_) hs
      obtain ⟨p, hm, he⟩ := List.mem_map.1 (Placement.mem_resolved (List.mem_mergeSort.1 hr)).2
      rw [← he]
      exact hb (hp p hm)
  have hline : ∀ {targets : List Target} {d : Draft}, targets ⊆ group →
      Shelters tag original (solidLines d.text) →
      Shelters tag original (solidLines (targets.foldl Draft.afterLine d).text) := by
    intro targets
    induction targets with
    | nil => exact fun _ h => h
    | cons target targets ih =>
      intro d hsub h
      rw [List.cons_subset] at hsub
      refine ih hsub.2 ?_
      rw [text_afterLine]
      split
      · exact h
      · next pattern _ =>
        rw [ht _ hsub.1]
        rcases hb hsub.1 with he | ⟨cs, hc, he⟩
        · have hnil : CommentLines [] := by simp [CommentLines]
          exact h.upsert pattern.isIn hnil (.inl he)
        · exact h.upsert pattern.isIn hc (.inr he)
  rcases rewrite_eq_or parse pos group t with he | he
  · rwa [he]
  · rw [he, draft_eq]
    exact hline (List.Subset.refl _) hset

theorem shelters_rewriteAll : ∀ {groups : List (List Target)} {t : Text},
    (∀ g ∈ groups, ∀ target ∈ g, target.Unmarked ∧ target.tag = tag) →
    Shelters tag original (solidLines t) →
    Shelters tag original (solidLines (rewriteAll parse pos groups t))
  | [], _, _, h => h
  | g :: groups, t, hg, h => by
    rw [List.forall_mem_cons] at hg
    have hr : Shelters tag original (solidLines (rewrite parse pos g t).1) :=
      shelters_rewrite (fun x hx => (hg.1 x hx).1) (fun x hx => (hg.1 x hx).2) h
    show Shelters tag original (solidLines (rewriteAll parse pos groups (rewrite parse pos g t).1))
    exact shelters_rewriteAll hg.2 hr

theorem shelters_unmark : ∀ {tags : List Tag} {t : Text}, (∀ x ∈ tags, x = tag) →
    Shelters tag original (solidLines t) → Shelters tag original (solidLines (unmark tags t))
  | [], _, _, h => h
  | x :: tags, t, ht, h => by
    rw [List.forall_mem_cons] at ht
    have hx : Shelters tag original (solidLines (Block.removeAll x t)) := ht.1 ▸ h.removeAll
    show Shelters tag original (solidLines (unmark tags (Block.removeAll x t)))
    exact shelters_unmark ht.2 hx

end

/-! ### A stray marker closed -/

/-- The target of a tag below the first line with the tag's begin marker. -/
def strayTarget (p : Path) (tag : Tag) : Target where
  identifier := "stray"
  file := some p
  anchor := .line (.literal tag.beginMarker)
  tag := tag
  payload := ['x']

theorem strayTarget_unmarked (p : Path) (tag : Tag) : (strayTarget p tag).Unmarked := by
  have h : (Block.ofText tag ['x']).lines = [['x']] := rfl
  show ∀ l ∈ (Block.ofText tag ['x']).lines, ¬ HoldsMarker (Block.commentLine l)
  rw [h]
  decide

/-- Where a begin marker stands without a block of its tag, one run and a removal lose a line. -/
theorem not_sublist_of_stray {parse : Text → Index} {pos : Position} {tag : Tag} {t : Text} (p : Path)
    (hn : Block.isIn tag t = false) (hb : tag.beginMarker <:+: t) :
    ¬ (solidLines t).Sublist
      (solidLines (Block.removeAll tag (rewrite parse pos [strayTarget p tag] t).1)) := by
  have hf : Excerpt.find? tag t = none := by simpa [Block.isIn] using hn
  have ha : ∀ l, (Pattern.literal tag.beginMarker).isIn l ↔ tag.beginMarker <:+: l := fun _ =>
    Pattern.isIn_literal_iff
  obtain ⟨above, below, lead, rest, hs, hab, hl, hr, hbel⟩ := exists_stray_line ha hf hb
  obtain ⟨cs, hc, hblock⟩ : ∃ cs, CommentLines cs ∧ (strayTarget p tag).block = frame tag [] cs :=
    (strayTarget_unmarked p tag).block.resolve_left (Block.render_eq_nil_iff.not.2 (List.cons_ne_nil _ _))
  have h0 : (strayTarget p tag).block ≠ [] := hblock ▸ frame_ne_nil
  have hup : Block.upsert tag (strayTarget p tag).block (Pattern.literal tag.beginMarker).isIn t =
      spliceApart above.flatten (frame tag [] cs) below.flatten := by
    rw [Block.upsert, if_neg h0, hf]
    simp only [hs, hblock]
  have htext : solidLines t = solidLines above.flatten ++ solidLines below.flatten := by
    obtain ⟨pre, l, rfl, ht, -⟩ := splitBelow?_eq_some hs
    have h := solidLines_take_append_drop t (pre ++ [l]).length
    have ht' : rawLines t = (pre ++ [l]) ++ below := by simp [ht]
    rw [ht', List.take_left' rfl, List.drop_left' rfl] at h
    exact h.symm
  have hdraft : draft parse pos [strayTarget p tag] t =
      { text := spliceApart above.flatten (frame tag [] cs) below.flatten, placed := ["stray"] } := by
    have hanchor : (strayTarget p tag).anchor = .line (.literal tag.beginMarker) := rfl
    rw [draft_of_line hanchor, Draft.afterLine]
    have hin : (Pattern.literal tag.beginMarker).isIn t := (ha t).2 hb
    simp only [strayTarget] at hup ⊢
    simp only [hup, hin, Bool.or_true, if_true, List.nil_append]
  have hne : ¬ foldBlankRuns t = spliceApart above.flatten (frame tag [] cs) below.flatten := by
    intro h
    have hlen := congrArg (fun t => (solidLines t).length) h
    simp only [solidLines_foldBlankRuns, solidLines_spliceApart, solidLines_frame .nil hc, htext,
      List.length_append] at hlen
    have hpos : 0 < (framed tag [] cs).length := List.length_pos_iff.2 framed_ne_nil
    omega
  have hrw : (rewrite parse pos [strayTarget p tag] t).1 =
      spliceApart above.flatten (frame tag [] cs) below.flatten := by
    simp only [rewrite, hdraft, List.isEmpty_cons, Bool.false_or, beq_iff_eq, if_neg hne]
  rw [hrw, hab]
  obtain ⟨ls, hls, he⟩ := exists_solidLines_removeAll_eq hc hl hr hbel
  rw [he, htext]
  -- the lines with a begin marker above are too many for the sublist
  intro hsub
  have hcount := hsub.countP_le (p := bears tag)
  have hzero : ls.countP (bears tag) = 0 :=
    List.countP_eq_zero.2 fun l hm h => hls l hm (of_decide_eq_true h)
  have hpos : 0 < (solidLines above.flatten).countP (bears tag) := by
    have hm : (Marker.opening tag).text <:+: above.flatten := hab ▸ ⟨lead, rest, by simp [Marker.text]⟩
    obtain ⟨l, hm, h⟩ := (Marker.opening tag).infix_iff_solidLines.1 hm
    exact List.countP_pos_iff.2 ⟨l, hm, decide_eq_true h⟩
  rw [List.countP_append, List.countP_append, hzero] at hcount
  omega

end Annotation

namespace Step

open Annotation

/-- The step handles no tag but the one, and what it puts in holds no marker. -/
def Concerns (tag : Tag) : Step → Prop
  | apply _ targets => ∀ x ∈ targets, x.Unmarked ∧ x.tag = tag
  | remove _ targets => ∀ x ∈ targets, x.tag = tag
  | removeFrom _ _ other => other = tag

section

variable {a : Annotator} {files : FileTree} {l : Location} {tag : Tag} {original : List Text} {t : Text}

theorem shelters_foldl {α : Type} {f : α → Text → Text} : ∀ {xs : List α} {t : Text},
    (∀ x ∈ xs, ∀ t, Shelters tag original (solidLines t) → Shelters tag original (solidLines (f x t))) →
    Shelters tag original (solidLines t) →
    Shelters tag original (solidLines (xs.foldl (fun t x => f x t) t))
  | [], _, _, h => h
  | x :: xs, t, hf, h => by
    rw [List.forall_mem_cons] at hf
    show Shelters tag original (solidLines (xs.foldl (fun t x => f x t) (f x t)))
    exact shelters_foldl hf.2 (hf.1 _ h)

theorem shelters_unlessDry {f : Text → Text}
    (hf : Shelters tag original (solidLines t) → Shelters tag original (solidLines (f t)))
    (h : Shelters tag original (solidLines t)) : Shelters tag original (solidLines (a.unlessDry f t)) := by
  unfold Annotator.unlessDry
  split
  · exact h
  · exact hf h

/-- Lines that are sheltered from the tag of a step stay so. -/
theorem shelters_run {s : Step} (hs : s.Concerns tag) (ht : files.textAt l = some t)
    (h : Shelters tag original (solidLines t)) :
    ∃ t', (s.run files).textAt l = some t' ∧ Shelters tag original (solidLines t') := by
  cases s with
  | apply a targets =>
    refine ⟨_, (Annotator.textAt_applyAll a targets ht).2, shelters_foldl (fun g hg t => ?_) h⟩
    have hg := Annotator.subset_of_mem_groupsAt hg
    exact shelters_unlessDry (shelters_rewrite (fun x hx => (hs x (hg hx)).1) fun x hx => (hs x (hg hx)).2)
  | remove a targets =>
    refine ⟨_, (Annotator.textAt_removeAll a targets ht).2, shelters_foldl (fun g hg t => ?_) h⟩
    have hg := Annotator.subset_of_mem_groupsAt hg
    refine shelters_unlessDry (shelters_unmark fun x hx => ?_)
    obtain ⟨target, hm, rfl⟩ := List.mem_map.1 (tagsOf_subset g hx)
    exact hs target (hg hm)
  | removeFrom a paths other =>
    obtain rfl : other = tag := hs
    refine ⟨_, (Annotator.textAt_removeFrom a other paths { files := files } ht).2, shelters_foldl ?_ h⟩
    exact fun _ _ t => shelters_unlessDry fun h => h.removeAll

theorem shelters_runAll : ∀ {steps : List Step} {files : FileTree} {t : Text}, (∀ s ∈ steps, s.Concerns tag) →
    files.textAt l = some t → Shelters tag original (solidLines t) →
    ∃ t', (runAll files steps).textAt l = some t' ∧ Shelters tag original (solidLines t')
  | [], _, t, _, ht, h => ⟨t, ht, h⟩
  | s :: steps, files, _, hs, ht, h => by
    rw [List.forall_mem_cons] at hs
    obtain ⟨t₁, ht₁, h₁⟩ := shelters_run hs.1 ht h
    show ∃ t', (runAll (s.run files) steps).textAt l = some t' ∧ _
    exact shelters_runAll hs.2 ht₁ h₁

/-- A file that can be read is the one file of a target with its path. -/
theorem groupsAt_singleton {target : Target} {p : Path} (he : target.file = some p) (hp : a.admits files p)
    (hl : files.leadsTo p l) : a.groupsAt files [target] l = [[target]] := by
  have hg : a.groups files [target] = [(p, [target])] := by
    simp [Annotator.groups, Annotator.admitted?, he, Option.filter, hp, Annotator.addToGroup]
  simp [Annotator.groupsAt, hg, hl]

end

/-- In a file without a block of a tag, the lines outlive any number of runs that put in blocks of
the tag and a removal of them, whatever the blocks and their places, exactly if no begin marker of
the tag stands in the file. -/
theorem lines_survive_iff {a : Annotator} (hd : a.dryRun = false) {files : FileTree} {l : Location} {p : Path}
    {t : Text} {tag : Tag} (hp : a.admits files p) (hl : files.leadsTo p l) (ht : files.textAt l = some t)
    (hn : Block.isIn tag t = false) :
    (∀ targets : List Target,
      (∀ x ∈ targets, x.Unmarked ∧ x.tag = tag ∧ x.file.any fun q => files.leadsTo q l) →
      ∀ n : Nat, ∀ s ∈ [remove a targets, removeFrom a [p] tag], ∃ t₁ t₂,
        (runAll files (List.replicate n (apply a targets))).textAt l = some t₁ ∧
        (runAll files (List.replicate n (apply a targets) ++ [s])).textAt l = some t₂ ∧
        (solidLines t).Sublist (solidLines t₁) ∧ (solidLines t).Sublist (solidLines t₂)) ↔
      ¬ tag.beginMarker <:+: t := by
  constructor
  · intro h hb
    let x := strayTarget p tag
    have hx : ∀ y ∈ [x], y.Unmarked ∧ y.tag = tag ∧ y.file.any fun q => files.leadsTo q l := by
      intro y hy
      rw [List.mem_singleton.1 hy]
      exact ⟨strayTarget_unmarked p tag, rfl, hl⟩
    obtain ⟨t₁, t₂, ht₁, ht₂, -, hsub⟩ := h [x] hx 1 (removeFrom a [p] tag) (by simp)
    have h₁ := Annotator.textAt_applyAll_of_not_dryRun hd [x] ht
    have hsh := (Annotator.textAt_applyAll a [x] ht).1
    rw [groupsAt_singleton rfl hp hl] at h₁
    have h₂ := (Annotator.textAt_removeFrom a tag [p] { files := (a.applyAll files [x]).files } h₁).2
    have hadm : (a.admits (a.applyAll files [x]).files p && (a.applyAll files [x]).files.leadsTo p l) = true := by
      rw [Annotator.admits_eq hsh, hsh.leadsTo_eq, hp, hl]
      rfl
    rw [List.filter_cons, if_pos hadm] at h₂
    have he : t₂ = Block.removeAll tag (rewrite a.parse a.position [x] t).1 := by
      refine Option.some.inj (ht₂.symm.trans (h₂.trans ?_))
      simp [rewriteAll, Annotator.unlessDry, hd]
    exact not_sublist_of_stray p hn hb (he ▸ hsub)
  · intro hb targets hx n s hs
    have h0 : Shelters tag (solidLines t) (solidLines t) :=
      Shelters.refl fun l hm h => hb ((Marker.opening tag).infix_iff_solidLines.2 ⟨l, hm, h⟩)
    have hc : ∀ s ∈ List.replicate n (apply a targets), s.Concerns tag := fun s hm =>
      List.eq_of_mem_replicate hm ▸ fun x hm => ⟨(hx x hm).1, (hx x hm).2.1⟩
    obtain ⟨t₁, ht₁, h₁⟩ := shelters_runAll hc ht h0
    have hcs : s.Concerns tag := by
      simp only [List.mem_cons, List.not_mem_nil, or_false] at hs
      rcases hs with rfl | rfl
      · exact fun x hm => (hx x hm).2.1
      · exact rfl
    obtain ⟨t₂, ht₂, h₂⟩ := shelters_run hcs ht₁ h₁
    rw [← runAll_append] at ht₂
    exact ⟨t₁, t₂, ht₁, ht₂, h₁.sublist, h₂.sublist⟩

/-- A class below a begin marker that was left behind. -/
def strayFile : Text := "# --- BEGIN annotate:schema ---\nclass User\nend\n".toList

/-- The annotation of the class. -/
def strayUser : Target := userTarget "User" (.declaration "User") .schema "id"

/-- The class is lost with the block that was put below it. -/
theorem lines_lost_below_stray :
    let files := FileTree.single "user.rb".toList strayFile
    let a := rubyAnnotator .after
    Block.isIn .schema strayFile = false ∧ strayUser.Unmarked ∧
      ∃ t₂, (runAll files [apply a [strayUser], remove a [strayUser]]).textAt ["user.rb".toList] = some t₂ ∧
        ¬ (solidLines strayFile).Sublist (solidLines t₂) := by
  intro files a
  refine ⟨by decide +kernel, by decide +kernel, [], ?_, ?_⟩ <;> decide +kernel

theorem lines_survive_iff_users :
    let files := FileTree.single "user.rb".toList strayFile
    let a := rubyAnnotator .after
    let l := ["user.rb".toList]
    a.dryRun = false ∧ a.admits files ⟨"user.rb".toList⟩ ∧ files.leadsTo ⟨"user.rb".toList⟩ l ∧
      files.textAt l = some strayFile ∧ Block.isIn .schema strayFile = false ∧
      ((∀ targets : List Target,
        (∀ x ∈ targets, x.Unmarked ∧ x.tag = .schema ∧ x.file.any fun q => files.leadsTo q l) →
        ∀ n : Nat, ∀ s ∈ [remove a targets, removeFrom a [⟨"user.rb".toList⟩] .schema], ∃ t₁ t₂,
          (runAll files (List.replicate n (apply a targets))).textAt l = some t₁ ∧
          (runAll files (List.replicate n (apply a targets) ++ [s])).textAt l = some t₂ ∧
          (solidLines strayFile).Sublist (solidLines t₁) ∧ (solidLines strayFile).Sublist (solidLines t₂)) ↔
        ¬ Tag.schema.beginMarker <:+: strayFile) := by
  intro files a l
  have hp : a.admits files ⟨"user.rb".toList⟩ := by decide
  have hl : files.leadsTo ⟨"user.rb".toList⟩ l := by decide
  have ht : files.textAt l = some strayFile := by decide
  have hn : Block.isIn .schema strayFile = false := by decide
  exact ⟨rfl, hp, hl, ht, hn, lines_survive_iff rfl hp hl ht hn⟩

end Step
end Marginalia
