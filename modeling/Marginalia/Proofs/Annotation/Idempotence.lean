/-
# A run made twice

After a run the files are as the run would leave them: a second one rewrites
nothing, reports no change and skips every target (`Annotator.applyAll_applyAll`).
Each file is named by one path, so there is one group for it, and rewriting its
text for that group a second time leaves it.

Key theorems: `Annotator.applyGroup_of_rewrite_eq`, `Annotator.groupsAt_eq_singleton`,
`Annotator.applyAll_applyAll`.
-/
import Marginalia.Proofs.Annotation.Effect
import Marginalia.Proofs.Annotation.Repetition

namespace Marginalia

open Text

namespace Annotation

/-- Some of the targets of one producer are targets of one producer. -/
theorem OneTag.of_subperm {tag : Tag} {group targets : List Target} (hg : OneTag tag targets)
    (h : group.Subperm targets) : OneTag tag group := by
  have hs := h.subset
  refine ⟨fun x hx => hg.tag x (hs hx), ?_, fun x hx => hg.unmarked x (hs hx), fun x hx => hg.plain x (hs hx)⟩
  rcases hg.anchors with hp | ⟨target, rfl⟩
  · exact .inl fun x hx => hp x (hs hx)
  · cases group with
    | nil => exact .inl (by simp)
    | cons x group =>
      have hlen := h.length_le
      obtain rfl : group = [] := List.length_eq_zero_iff.1 (by simpa using hlen)
      exact .inr ⟨x, rfl⟩

end Annotation

namespace Annotator

open FileTree Annotation

variable {a : Annotator} {files files' : FileTree} {l : Location} {p : Path} {x : Text} {group targets : List Target}
  {g : Path × List Target} {tag : Tag}

/-! ### Runs on trees of one shape -/

theorem admitted?_eq (h : SameShape files files') (t : Target) : a.admitted? files' t = a.admitted? files t := by
  rw [admitted?, admitted?, funext (admits_eq h)]

theorem groups_eq (h : SameShape files files') (targets : List Target) :
    a.groups files' targets = a.groups files targets := by
  simp only [groups, admitted?_eq h]

theorem refused_eq (h : SameShape files files') (targets : List Target) :
    a.refused files' targets = a.refused files targets := by
  simp only [refused, admitted?_eq h]

/-! ### Groups with nothing to do -/

/-- A group whose rewrite leaves the text of its file is skipped. -/
theorem applyGroup_of_rewrite_eq (hr : read files p = .ok x)
    (h : (rewrite a.parse a.position group x).1 = x) : a.applyGroup files p group =
      .ok { tally := { skipped := group.map (·.identifier) }, files := files } := by
  have hnoop : FileChange.isNoop ⟨p, x, x⟩ = true := beq_self_eq_true x
  simp [applyGroup, hr, bind, Except.bind, h, commit, hnoop, pure, Except.pure]

/-- Going over groups that are skipped skips all their targets. -/
theorem foldl_extend_of_skipped {handle : FileTree → Path → List Target → Except Fault Run}
    {gs : List (Path × List Target)} (h : ∀ g ∈ gs, handle files g.1 g.2 =
      .ok { tally := { skipped := g.2.map (·.identifier) }, files := files }) (ids : List String) :
    gs.foldl (fun r g => extend r (g.2.map (·.identifier)) fun files => handle files g.1 g.2)
        { tally := { skipped := ids }, files := files } =
      { tally := { skipped := ids ++ gs.flatMap fun g => g.2.map (·.identifier) }, files := files } := by
  induction gs generalizing ids with
  | nil => simp
  | cons g gs ih =>
    rw [List.forall_mem_cons] at h
    have hg : extend { tally := { skipped := ids }, files := files } (g.2.map (·.identifier))
        (fun files => handle files g.1 g.2) =
        { tally := { skipped := ids ++ g.2.map (·.identifier) }, files := files } := by
      simp only [extend, h.1]
      rfl
    rw [List.foldl_cons, hg, ih h.2, List.flatMap_cons, List.append_assoc]

/-- Targets of one file rewrite it once. -/
theorem textAt_applyAll_of_file (hd : a.dryRun = false) (hf : ∀ x ∈ targets, x.file = some p) (hp : a.admits files p)
    (hl : files.leadsTo p l) (ht : files.textAt l = some t) :
    (a.applyAll files targets).files.textAt l = some (rewrite a.parse a.position targets t).1 := by
  have h := textAt_applyAll_of_not_dryRun hd targets ht
  by_cases h0 : targets = []
  · have hr : (rewrite a.parse a.position [] t).1 = t := rewrite_eq_self (.inl rfl)
    subst h0
    rw [hr]
    exact h
  · rwa [groupsAt, groups_of_file hf hp h0, List.filter_singleton, hl] at h

/-- One group leads to a file that is named by one path. -/
theorem groupsAt_eq_singleton (hone : ∀ x ∈ targets, ∀ y ∈ targets, ∀ p ∈ x.file, ∀ q ∈ y.file,
      files.leadsTo p l → files.leadsTo q l → p.same q)
    (hg : g ∈ a.groups files targets) (hl : files.leadsTo g.1 l) : a.groupsAt files targets l = [g.2] := by
  have hsame : ∀ g ∈ (a.groups files targets).filter fun g => files.leadsTo g.1 l,
      ∀ h ∈ (a.groups files targets).filter fun g => files.leadsTo g.1 l, g.1.same h.1 := by
    intro g hg h hh
    obtain ⟨hg, hgl⟩ := List.mem_filter.1 hg
    obtain ⟨hh, hhl⟩ := List.mem_filter.1 hh
    obtain ⟨x, hx, hxg⟩ := exists_of_mem_groups g hg
    obtain ⟨y, hy, hyh⟩ := exists_of_mem_groups h hh
    exact hone x hx y hy g.1 (Option.filter_eq_some_iff.1 hxg).1 h.1 (Option.filter_eq_some_iff.1 hyh).1 hgl hhl
  have hp := (pairwise_groups a files targets).sublist
    (List.filter_sublist (p := fun g => files.leadsTo g.1 l))
  have hm : g ∈ (a.groups files targets).filter fun g => files.leadsTo g.1 l := List.mem_filter.2 ⟨hg, hl⟩
  rw [groupsAt]
  cases hf : (a.groups files targets).filter fun g => files.leadsTo g.1 l with
  | nil =>
    rw [hf] at hm
    cases hm
  | cons g₁ rest =>
    cases rest with
    | nil =>
      rw [hf, List.mem_singleton] at hm
      rw [hm]
      rfl
    | cons g₂ rest =>
      rw [hf] at hp hsame
      exact absurd (hsame g₁ (by simp) g₂ (by simp)) ((List.pairwise_cons.1 hp).1 g₂ (by simp))

/-- A second run with the targets of one producer leaves every file as the first one left it,
reports no change and skips all targets. -/
theorem applyAll_applyAll (hd : a.dryRun = false) (hg : OneTag tag targets)
    (hone : ∀ x ∈ targets, ∀ y ∈ targets, ∀ p ∈ x.file, ∀ q ∈ y.file, ∀ l,
      files.leadsTo p l → files.leadsTo q l → p.same q)
    (hr : ∀ x ∈ targets, ∀ p ∈ a.admitted? files x, ∃ t, files.read p = .ok t ∧ Ready a.parse a.position tag t) :
    let first := a.applyAll files targets
    let second := a.applyAll first.files targets
    second.files = first.files ∧ second.tally.changes = [] ∧ second.tally.succeeded = [] ∧
      second.tally.failed = [] ∧ second.tally.skipped.Perm (targets.map (·.identifier)) := by
  intro first second
  have hshape : SameShape files first.files := (applyGroup_does a).sameShape_overGroups files targets
  have hgroups : a.groups first.files targets = a.groups files targets := groups_eq hshape targets
  have hskip : ∀ g ∈ a.groups files targets, a.applyGroup first.files g.1 g.2 =
      .ok { tally := { skipped := g.2.map (·.identifier) }, files := first.files } := by
    intro g hmem
    obtain ⟨x, hx, hp⟩ := exists_of_mem_groups g hmem
    obtain ⟨t, ht, hready⟩ := hr x hx g.1 hp
    obtain ⟨l, hl, ht⟩ := read_eq_ok_iff.1 ht
    have hafter : first.files.textAt l = some (rewrite a.parse a.position g.2 t).1 := by
      have h := textAt_applyAll_of_not_dryRun hd targets ht
      rwa [groupsAt_eq_singleton (fun x hx y hy p hp q hq => hone x hx y hy p hp q hq l) hmem
        (leadsTo_iff.2 hl)] at h
    have hread : read first.files g.1 = .ok (rewrite a.parse a.position g.2 t).1 := by
      rw [read, read_eq_ok_iff.2 ⟨l, by rw [hshape.locate_eq, hl], hafter⟩]
      rfl
    exact applyGroup_of_rewrite_eq hread (rewrite_rewrite (hg.of_subperm (subperm_of_mem_groups hmem)) hready)
  let ids := (a.groups files targets).flatMap fun g => g.2.map (·.identifier)
  have hsecond : second = { tally := { skipped := a.refused files targets ++ ids }, files := first.files } := by
    show a.overGroups a.applyGroup first.files targets = _
    rw [overGroups, hgroups, refused_eq hshape]
    exact foldl_extend_of_skipped hskip (a.refused files targets)
  rw [hsecond]
  exact ⟨rfl, rfl, rfl, rfl, refused_append_perm a files targets⟩

/-! ### Two models in one file -/

/-- Two classes with stale blocks: one below a directive, with two empty lines below it, and one in the
middle. -/
def staleFile : Text :=
  "# frozen_string_literal: true\n\n# --- BEGIN annotate:schema ---\n# id\n# --- END annotate:schema ---\n\n".toList ++
    "\n\nclass User\n  # --- BEGIN annotate:schema ---\n  # name\n  # --- END annotate:schema ---\n".toList ++
    "  class Role\n  end\nend".toList

/-- The models of the file. -/
def staleModels : List Target :=
  [Step.userTarget "User" (.declaration "User") .schema "id\nname",
    Step.userTarget "Role" (.declaration "Role") .schema "id"]

theorem applyAll_applyAll_users :
    let a := { Step.rubyAnnotator .top with parse := Index.ofCode }
    let files := FileTree.single "user.rb".toList staleFile
    (Index.ofCode staleFile).classes = (Index.ofSource staleFile).classes ∧
      a.dryRun = false ∧ OneTag .schema staleModels ∧
      (∀ x ∈ staleModels, ∀ y ∈ staleModels, ∀ p ∈ x.file, ∀ q ∈ y.file, ∀ l,
        files.leadsTo p l → files.leadsTo q l → p.same q) ∧
      (∀ x ∈ staleModels, ∀ p ∈ a.admitted? files x, ∃ t, files.read p = .ok t ∧ Ready a.parse a.position .schema t) ∧
      let first := a.applyAll files staleModels
      let second := a.applyAll first.files staleModels
      second.files = first.files ∧ second.tally.changes = [] ∧ second.tally.succeeded = [] ∧
        second.tally.failed = [] ∧ second.tally.skipped.Perm (staleModels.map (·.identifier)) := by
  intro a files
  have hfile : ∀ x ∈ staleModels, x.file = some ⟨"user.rb".toList⟩ := by decide
  have hreturn : ∀ x ∈ staleModels, '\r' ∉ x.payload := by decide
  have hg : OneTag .schema staleModels :=
    ⟨by decide, .inl (by decide), by decide, fun x hx => x.plain_of_not_mem (hreturn x hx)⟩
  have hone : ∀ x ∈ staleModels, ∀ y ∈ staleModels, ∀ p ∈ x.file, ∀ q ∈ y.file, ∀ l,
      files.leadsTo p l → files.leadsTo q l → p.same q := by
    intro x hx y hy p hp q hq _ _ _
    rw [hfile x hx] at hp
    rw [hfile y hy] at hq
    cases hp
    cases hq
    decide
  have hr : ∀ x ∈ staleModels, ∀ p ∈ a.admitted? files x,
      ∃ t, files.read p = .ok t ∧ Ready a.parse a.position .schema t := by
    intro x hx p hp
    have hp := (Option.filter_eq_some_iff.1 hp).1
    rw [hfile x hx] at hp
    cases hp
    refine ⟨staleFile, FileTree.read_single (by decide) (by decide) staleFile, ?_, Index.steady_ofCode _, fun _ => ?_⟩
    all_goals
      unfold staleFile
      repeat rewrite [String.toList_ofList]
      decide +kernel
  refine ⟨?_, rfl, hg, hone, hr, applyAll_applyAll rfl hg hone hr⟩
  unfold staleFile
  repeat rewrite [String.toList_ofList]
  decide +kernel

end Annotator
end Marginalia
