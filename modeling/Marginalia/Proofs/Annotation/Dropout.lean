/-
# Targets that drop out

After a run with the targets of one producer, a second one is made with some of
them. A file is rewritten for those of its targets that are left. If none has
dropped out, its text stays (`Annotator.applyAll_filter`); if some have and some
have not, there are fewer blocks in it than before (`Annotator.undivided_of_files_eq`).

Key definitions: `Annotation.Tidy`, `Annotator.targetsAt`, `Annotator.OnePath`,
`Annotator.Undivided`, `Annotator.Prepared`.
Key theorems: `Annotation.Tidy.rewrite`, `Annotation.length_plainBlocks_rewrite`,
`Annotator.textAt_applyAll_eq`, `Annotator.applyAll_filter`, `Annotator.undivided_of_files_eq`.
-/
import Marginalia.Proofs.Annotation.Exactness
import Marginalia.Proofs.Block.Noting
import Marginalia.Proofs.FileTree.Naming

namespace Marginalia

open Text Block

namespace Annotation

/-- A text whose blocks are notes, and on which the reader is steady. -/
structure Tidy (parse : Text → Index) (t : Text) : Prop where
  /-- The markers pair up. -/
  marked : WellMarked t
  /-- The blocks. -/
  noted : BlocksNoted t
  /-- The reader. -/
  steady : Index.Steady parse t

variable {parse : Text → Index} {pos : Position} {group : List Target} {tag : Tag} {tags : List Tag} {t u : Text}

namespace Tidy

theorem of_noted (h : Tidy parse t) (hn : Noted tags t u) : Tidy parse u := by
  have hself : codeLines t = codeLines (unmark tags t) :=
    Noted.codeLines_eq ⟨keeps_refl h.marked tags, fun tag _ => h.noted tag⟩ h.marked
  exact ⟨hn.keeps.1, h.noted.of_keeps hn.keeps hn.notes,
    h.steady.of_codeLines ((hn.codeLines_eq h.marked).trans hself.symm)⟩

theorem keepsNames (h : Tidy parse t) : KeepsNames parse t :=
  keepsNames_of_notes h.marked h.noted fun _ hu => resolve?_isSome_of_steady h.steady hu

/-- Classes are read from code lines. -/
theorem classesOutside (h : Tidy parse t) : ClassesOutside parse t := by
  intro d hd
  obtain ⟨i, j, hs, -⟩ := (List.forall₂_same.1 (h.steady t t rfl rfl) d hd).lines
  rw [hs.line, hs.endLine]
  exact ⟨outside_lineOf_of_noted h.marked h.noted hs.start_lt, outside_lineOf_of_noted h.marked h.noted hs.stop_lt⟩

theorem stripped (h : Tidy parse t) (hg : AtClasses group) : Tidy parse (stripped parse group t).text := by
  have hstage : Stage group t ( Annotation.stripped parse group t) :=
    List.foldlRecOn (motive := Stage group t) Tag.all _ ⟨⟨[], keeps_refl h.marked [], by simp⟩, by simp⟩
      fun d hd tag _ => hd.afterTag hg tag
  obtain ⟨tags, hn⟩ := hstage.noted
  exact h.of_noted hn

theorem ready (h : Tidy parse t) (htop : pos = .top → (removeAll tag t).head? ≠ some '\n') :
    Ready parse pos tag t :=
  ⟨h.marked, h.steady.of_codeLines (codeLines_removeAll h.marked h.noted tag), htop⟩

end Tidy

/-- Targets at classes, as targets of one producer. -/
theorem AtClasses.oneTag (hg : AtClasses group) (ht : ∀ x ∈ group, x.tag = tag) : OneTag tag group :=
  ⟨ht, .inl hg.classes, hg.unmarked, hg.plain⟩

theorem AtClasses.of_subset {group' : List Target} (hg : AtClasses group) (h : group' ⊆ group) : AtClasses group' :=
  ⟨fun x hx => hg.classes x (h hx), fun x hx => hg.unmarked x (h hx), fun x hx => hg.plain x (h hx)⟩

/-- What is put in is no code. -/
theorem Tidy.codeLines_rewrite (h : Tidy parse t) (pos : Position) (hg : AtClasses group)
    (ht : ∀ x ∈ group, x.tag = tag) :
    codeLines (rewrite parse pos group t).1 = codeLines t := by
  rcases rewrite_eq_or parse pos group t with he | he
  · rw [he]
  by_cases h0 : group = []
  · subst h0
    rw [rewrite_eq_self (.inl rfl)]
  rw [he, ← codeLines_removeAll h.marked h.noted tag]
  rcases draft_of_declarations parse pos ht hg.classes h0 t with ⟨x, name, v, rfl, hn, hx, hd⟩ | ⟨-, hd⟩
  · obtain ⟨⟨hne, h₁⟩, -, hrep⟩ := exchange?_eq_some_iff.1 hx
    have hm : x ∈ [x] := List.mem_cons_self
    obtain ⟨cs, hc, hr, hb⟩ := (x.isPlain_block (hg.unmarked x hm) (hg.plain x hm)).resolve_left hne
    rw [ht x hm] at h₁ hrep hb
    rw [hb] at hrep
    obtain ⟨a, c, hamid, hsolid⟩ := exists_amid_of_replace? h.marked h₁ hc hr hrep
    rw [hd, ← hamid.codeLines_removeAll hc]
    exact codeLines_eq_of_solidLines hsolid
  · rw [hd]
    exact Placement.codeLines_placeAll (hg.oneTag ht).isPlain _

/-- A rewrite leaves a tidy text tidy. -/
theorem Tidy.rewrite (h : Tidy parse t) (pos : Position) (hg : AtClasses group) (ht : ∀ x ∈ group, x.tag = tag) :
    Tidy parse (rewrite parse pos group t).1 := by
  have hcode := h.codeLines_rewrite pos hg ht
  have hfits : Fits parse pos group t :=
    ⟨hg.unmarked, (h.stripped hg).classesOutside, Draft.anchorsFit_of_declarations hg.classes⟩
  have hk : Keeps [tag] t ( Annotation.rewrite parse pos group t).1 := (keeps_rewrite h.marked hfits).mono (by
    intro s hs
    obtain ⟨x, hx, rfl⟩ := List.mem_map.1 hs
    exact List.mem_singleton.2 (ht x hx))
  refine h.of_noted ⟨hk, ?_⟩
  intro s hs
  rw [List.mem_singleton.1 hs]
  exact isNote_of_codeLines_removeAll hk.1
    ((hk.codeLines_removeAll h.marked).trans ((codeLines_removeAll h.marked h.noted tag).trans hcode.symm))

/-- A rewrite leaves one block for each target, if all classes are found and all targets say something. -/
theorem length_plainBlocks_rewrite (pos : Position) (h : Tidy parse t) (hg : AtClasses group) (ht : ∀ x ∈ group, x.tag = tag)
    (hb : ∀ x ∈ group, x.block ≠ []) (hf : ∀ x ∈ group, x.isFound parse t) (h0 : group ≠ []) :
    (plainBlocks tag (rewrite parse pos group t).1).length = group.length := by
  obtain ⟨x, hx⟩ := List.exists_mem_of_ne_nil _ h0
  have hperm := (rewrite_exact pos hg h.marked h.keepsNames (h.stripped hg).classesOutside
    ⟨x, hx, ht x hx, hf x hx⟩).1
  rw [List.filter_eq_self.2 hf, flatMap_plainBlocks_eq tag hg.unmarked,
    List.filter_eq_self.2 fun x hx => by simpa using ⟨ht x hx, hb x hx⟩] at hperm
  rw [hperm.length_eq, List.length_map]

/-- Once code is only added as notes, the same classes are found. -/
theorem Tidy.isFound_eq (h : Tidy parse t) (hu : codeLines u = codeLines t) (x : Target) :
    x.isFound parse u = x.isFound parse t := by
  simp only [Target.isFound, resolve?_isSome_of_steady h.steady hu]

end Annotation

namespace Annotator

open FileTree Annotation

variable {a : Annotator} {files files' : FileTree} {targets : List Target} {l : Location} {p : Path} {tag : Tag} {t : Text}
  {g : Path × List Target} {keep : Target → Bool}

/-! ### The targets of a file -/

/-- The targets whose paths lead to a file, if it may be touched. -/
def targetsAt (a : Annotator) (files : FileTree) (targets : List Target) (l : Location) : List Target :=
  targets.filter fun x => (a.admitted? files x).any fun p => files.leadsTo p l

theorem mem_targetsAt {x : Target} : x ∈ a.targetsAt files targets l ↔
    x ∈ targets ∧ ∃ p, a.admitted? files x = some p ∧ files.leadsTo p l := by
  simp [targetsAt, Option.any_eq_true]

theorem targetsAt_filter (h : SameShape files files') (keep : Target → Bool) :
    a.targetsAt files' (targets.filter keep) l = (a.targetsAt files targets l).filter keep := by
  simp only [targetsAt, admitted?_eq h, h.leadsTo_eq, List.filter_filter, Bool.and_comm]

/-- Each file is named by one path. -/
def OnePath (files : FileTree) (targets : List Target) : Prop :=
  ∀ x ∈ targets, ∀ y ∈ targets, ∀ p ∈ x.file, ∀ q ∈ y.file, ∀ l,
    files.leadsTo p l → files.leadsTo q l → p.same q

theorem OnePath.filter (h : OnePath files targets) (hs : SameShape files files') (keep : Target → Bool) :
    OnePath files' (targets.filter keep) := by
  intro x hx y hy p hp q hq l
  rw [hs.leadsTo_eq, hs.leadsTo_eq]
  exact h x (List.mem_filter.1 hx).1 y (List.mem_filter.1 hy).1 p hp q hq l

theorem file_of_admitted? {x : Target} (h : a.admitted? files x = some p) : p ∈ x.file :=
  (Option.filter_eq_some_iff.1 h).1

/-- From each file all targets are kept or none. -/
def Undivided (a : Annotator) (files : FileTree) (targets : List Target) (keep : Target → Bool) : Prop :=
  ∀ l, ∀ x ∈ a.targetsAt files targets l, ∀ y ∈ a.targetsAt files targets l, keep x = keep y

/-- A path that may be touched leads somewhere. -/
theorem exists_leadsTo {x : Target} (h : a.admitted? files x = some p) : ∃ m, files.leadsTo p m := by
  have hfile : files.isFile p = true := by
    have hadm := (Option.filter_eq_some_iff.1 h).2
    simp only [admits, Bool.and_eq_true] at hadm
    exact hadm.1.1
  cases hp : files.locate p with
  | ok m => exact ⟨m, leadsTo_iff.2 hp⟩
  | error f => simp [isFile, find?, hp] at hfile

/-- Paths that may be touched and say the same lead to the same place. -/
theorem leadsTo_of_same {x : Target} {q : Path} (h : a.admitted? files x = some p) (hs : p.same q)
    (hl : files.leadsTo q l) : files.leadsTo p l := by
  obtain ⟨m, hm⟩ := exists_leadsTo h
  exact locate_eq_of_same hs (leadsTo_iff.1 hm) (leadsTo_iff.1 hl) ▸ hm

/-- A group that leads to a file has all its targets. -/
theorem snd_eq_targetsAt (hone : OnePath files targets) (hg : g ∈ a.groups files targets)
    (hl : files.leadsTo g.1 l) : g.2 = a.targetsAt files targets l := by
  obtain ⟨y, hy, hyg⟩ := exists_of_mem_groups g hg
  rw [snd_of_mem_groups hg, targetsAt]
  refine List.filter_congr fun x hx => ?_
  cases hp : a.admitted? files x with
  | none => rfl
  | some p =>
    rw [Option.any_some, Option.any_some, Bool.eq_iff_iff]
    exact ⟨fun hs => leadsTo_of_same hp hs hl,
      fun hpl => hone x hx y hy p (file_of_admitted? hp) g.1 (file_of_admitted? hyg) l hpl hl⟩

/-- A target of a file is in a group that leads to it. -/
theorem exists_group {x : Target} (hx : x ∈ a.targetsAt files targets l) :
    ∃ g ∈ a.groups files targets, files.leadsTo g.1 l := by
  obtain ⟨hx, p, hp, hl⟩ := mem_targetsAt.1 hx
  have hm : x ∈ (a.groups files targets).flatMap (·.2) :=
    (flatMap_groups_perm a files targets).mem_iff.2 (List.mem_filter.2 ⟨hx, by rw [hp]; rfl⟩)
  obtain ⟨g, hg, hxg⟩ := List.mem_flatMap.1 hm
  obtain ⟨y, -, hyg⟩ := exists_of_mem_groups g hg
  rw [snd_of_mem_groups hg, List.mem_filter, hp, Option.any_some] at hxg
  exact ⟨g, hg, leadsTo_of_same hyg (beq_iff_eq.2 (eq_of_beq hxg.2).symm) hl⟩

/-- The targets of a file are one group. -/
theorem groupsAt_eq (hone : OnePath files targets) (l : Location) :
    a.groupsAt files targets l = if a.targetsAt files targets l = [] then [] else [a.targetsAt files targets l] := by
  split
  · next h0 =>
    rw [groupsAt, List.map_eq_nil_iff, List.filter_eq_nil_iff]
    intro g hg hl
    obtain ⟨y, hy, hyg⟩ := exists_of_mem_groups g hg
    exact List.not_mem_nil (h0 ▸ mem_targetsAt.2 ⟨hy, g.1, hyg, hl⟩)
  · next h0 =>
    obtain ⟨x, hx⟩ := List.exists_mem_of_ne_nil _ h0
    obtain ⟨g, hg, hl⟩ := exists_group hx
    rw [groupsAt_eq_singleton (fun x hx y hy p hp q hq => hone x hx y hy p hp q hq l) hg hl,
      snd_eq_targetsAt hone hg hl]

/-- A run rewrites a file for all its targets at once. -/
theorem textAt_applyAll_eq (hd : a.dryRun = false) (hone : OnePath files targets) (ht : files.textAt l = some t) :
    (a.applyAll files targets).files.textAt l =
      some (rewrite a.parse a.position (a.targetsAt files targets l) t).1 := by
  rw [textAt_applyAll_of_not_dryRun hd targets ht, groupsAt_eq hone]
  split
  · next h0 =>
    rw [h0, rewrite_eq_self (.inl rfl)]
    rfl
  · rfl

/-! ### Two runs -/

/-- The files of the targets are tidy, no empty line is at the top of one, if that is where blocks go, and the
classes of its targets are found in it. -/
def Prepared (a : Annotator) (files : FileTree) (tag : Tag) (targets : List Target) : Prop :=
  ∀ x ∈ targets, ∀ p ∈ a.admitted? files x, ∃ t, files.read p = .ok t ∧ Tidy a.parse t ∧
    (a.position = .top → (Block.removeAll tag t).head? ≠ some '\n') ∧ x.isFound a.parse t

theorem Prepared.text (h : Prepared a files tag targets) {x : Target} (hx : x ∈ a.targetsAt files targets l) :
    ∃ t, files.textAt l = some t ∧ Tidy a.parse t ∧
      (a.position = .top → (Block.removeAll tag t).head? ≠ some '\n') ∧ x.isFound a.parse t := by
  obtain ⟨hx, p, hp, hl⟩ := mem_targetsAt.1 hx
  obtain ⟨t, hr, ht⟩ := h x hx p hp
  obtain ⟨m, hm, htext⟩ := read_eq_ok_iff.1 hr
  obtain rfl : l = m := Except.ok.inj ((leadsTo_iff.1 hl).symm.trans hm)
  exact ⟨t, htext, ht⟩

section

variable (hd : a.dryRun = false) (ht : ∀ x ∈ targets, x.tag = tag) (hg : AtClasses targets)
  (hone : OnePath files targets) (hr : Prepared a files tag targets)

include hd ht hg hone hr

/-- If from each file all targets or none have dropped out, a second run for those that are left skips them all. -/
theorem applyAll_filter (hkeep : a.Undivided files targets keep) :
    let first := a.applyAll files targets
    ∃ ids, ids.Perm ((targets.filter keep).map (·.identifier)) ∧
      a.applyAll first.files (targets.filter keep) = { tally := { skipped := ids }, files := first.files } := by
  intro first
  have hshape : SameShape files first.files := (applyGroup_does a).sameShape_overGroups files targets
  have hskip : ∀ g ∈ a.groups first.files (targets.filter keep), a.applyGroup first.files g.1 g.2 =
      .ok { tally := { skipped := g.2.map (·.identifier) }, files := first.files } := by
    intro g hmem
    obtain ⟨x, hx, hp⟩ := exists_of_mem_groups g hmem
    obtain ⟨l, hl⟩ := exists_leadsTo hp
    have hg2 := snd_eq_targetsAt (hone.filter hshape keep) hmem hl
    rw [targetsAt_filter hshape] at hg2
    rw [hshape.leadsTo_eq] at hl
    rw [admitted?_eq hshape] at hp
    obtain ⟨hx, hkx⟩ := List.mem_filter.1 hx
    have hxl : x ∈ a.targetsAt files targets l := mem_targetsAt.2 ⟨hx, g.1, hp, hl⟩
    rw [List.filter_eq_self.2 fun y hy => (hkeep l y hy x hxl).trans hkx] at hg2
    obtain ⟨t, htext, htidy, htop, -⟩ := hr.text hxl
    have hread : read first.files g.1 = .ok (rewrite a.parse a.position g.2 t).1 := by
      rw [read_ok_iff, read_eq_ok_iff]
      exact ⟨l, by rw [hshape.locate_eq, leadsTo_iff.1 hl], hg2 ▸ textAt_applyAll_eq hd hone htext⟩
    have hsub : g.2.Subperm targets := by
      rw [hg2]
      exact List.filter_sublist.subperm
    exact applyGroup_of_rewrite_eq hread (rewrite_rewrite ((hg.oneTag ht).of_subperm hsub) (htidy.ready htop))
  refine ⟨_, refused_append_perm a first.files (targets.filter keep), ?_⟩
  rw [applyAll, overGroups]
  exact foldl_extend_of_skipped hskip (a.refused first.files (targets.filter keep))

/-- If a second run leaves all files, from each file all targets or none have dropped out: otherwise there would
be fewer blocks in it. -/
theorem undivided_of_files_eq (hb : ∀ x ∈ targets, x.block ≠ [])
    (hfiles : (a.applyAll (a.applyAll files targets).files (targets.filter keep)).files =
      (a.applyAll files targets).files) : a.Undivided files targets keep := by
  intro l
  have hall : ∀ x ∈ a.targetsAt files targets l, keep x = true →
      ∀ y ∈ a.targetsAt files targets l, keep y = true := by
    intro x hx hkx
    have hsub : a.targetsAt files targets l ⊆ targets := fun y hy => (List.mem_filter.1 hy).1
    have hgl : AtClasses (a.targetsAt files targets l) := hg.of_subset hsub
    have hgk : AtClasses ((a.targetsAt files targets l).filter keep) := hgl.of_subset List.filter_sublist.subset
    obtain ⟨t, htext, htidy, -⟩ := hr.text hx
    have hfound : ∀ y ∈ a.targetsAt files targets l, y.isFound a.parse t := by
      intro y hy
      obtain ⟨u, hu, -, -, hf⟩ := hr.text hy
      obtain rfl : u = t := Option.some.inj (hu.symm.trans htext)
      exact hf
    have htl : ∀ y ∈ a.targetsAt files targets l, y.tag = tag := fun y hy => ht y (hsub hy)
    have hfirst := textAt_applyAll_eq hd hone htext
    have hshape : SameShape files (a.applyAll files targets).files := (applyGroup_does a).sameShape_overGroups files targets
    have hsecond := textAt_applyAll_eq hd (hone.filter hshape keep) hfirst
    rw [hfiles, hfirst, targetsAt_filter hshape] at hsecond
    have heq := Option.some.inj hsecond
    -- as many targets are left as there were
    have hlen : (a.targetsAt files targets l).length = ((a.targetsAt files targets l).filter keep).length := by
      have h₁ := length_plainBlocks_rewrite a.position htidy hgl htl (fun y hy => hb y (hsub hy)) hfound
        (List.ne_nil_of_mem hx)
      have h₂ := length_plainBlocks_rewrite a.position (htidy.rewrite a.position hgl htl) hgk
        (fun y hy => htl y (List.mem_filter.1 hy).1) (fun y hy => hb y (hsub (List.mem_filter.1 hy).1))
        (fun y hy => by
          rw [htidy.isFound_eq (htidy.codeLines_rewrite a.position hgl htl)]
          exact hfound y (List.mem_filter.1 hy).1)
        (List.ne_nil_of_mem (List.mem_filter.2 ⟨hx, hkx⟩))
      rw [← heq, h₁] at h₂
      exact h₂
    exact List.length_filter_eq_length_iff.1 hlen.symm
  intro x hx y hy
  cases hx' : keep x with
  | true => exact (hall x hx hx' y hy).symm
  | false =>
    cases hy' : keep y with
    | true => rw [hall y hy hy' x hx] at hx'; cases hx'
    | false => rfl

end

end Annotator
end Marginalia
