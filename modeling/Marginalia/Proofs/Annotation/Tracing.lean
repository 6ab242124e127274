/-
# What became of a target

Where no two targets have one identifier, the tally tells of each target what
became of it in its group, on the text as the groups before it leave it
(`Annotator.mem_succeeded_iff`). The path of a target leads where the path of
its group leads (`Annotator.leadsTo_eq_of_mem_groups`).

Key theorems: `Annotator.mem_succeeded_foldl_work`, `Annotator.mem_succeeded_iff`,
`Annotator.leadsTo_eq_of_mem_groups`.
-/
import Mathlib.Data.List.Nodup
import Marginalia.Proofs.Annotation.Jobs
import Marginalia.Proofs.FileTree.Naming

namespace Marginalia

namespace Annotation

variable {parse : Text → Index} {pos : Position} {group : List Target} {t u : Text}

/-- Each of several groups with the text on which it works, which the groups before it have left. -/
def works (parse : Text → Index) (pos : Position) : List (List Target) → Text → List (List Target × Text)
  | [], _ => []
  | group :: groups, t => (group, t) :: works parse pos groups (rewrite parse pos group t).1

theorem map_fst_works (parse : Text → Index) (pos : Position) : ∀ (groups : List (List Target)) (t : Text),
    (works parse pos groups t).map (·.1) = groups
  | [], _ => rfl
  | _ :: groups, _ => by rw [works, List.map_cons, map_fst_works parse pos groups]

theorem fst_mem_of_mem_works {groups : List (List Target)} {w : List Target × Text}
    (h : w ∈ works parse pos groups t) : w.1 ∈ groups := by
  rw [← map_fst_works parse pos groups t]
  exact List.mem_map_of_mem h

theorem exists_mem_works {groups : List (List Target)} (h : group ∈ groups) (t : Text) :
    ∃ u, (group, u) ∈ works parse pos groups t := by
  rw [← map_fst_works parse pos groups t] at h
  obtain ⟨⟨g, u⟩, hw, rfl⟩ := List.mem_map.1 h
  exact ⟨u, hw⟩

theorem exists_of_mem_works : ∀ {groups : List (List Target)} {t : Text}, (group, u) ∈ works parse pos groups t →
    ∃ before after, groups = before ++ group :: after ∧ u = rewriteAll parse pos before t
  | [], _, h => by cases h
  | g :: groups, t, h => by
    rw [works, List.mem_cons] at h
    rcases h with h | h
    · cases h
      exact ⟨[], groups, rfl, rfl⟩
    · obtain ⟨before, after, rfl, rfl⟩ := exists_of_mem_works h
      exact ⟨g :: before, after, rfl, rfl⟩

end Annotation

namespace Annotator

open FileTree Annotation

variable {a : Annotator} {files : FileTree} {targets group : List Target} {g : Path × List Target}
  {l : Location} {t u : Text} {x : Target} {p : Path} {r : Run} {j : Job}
  {before after : List Job} {i : String}

/-! ### The place of a target -/

theorem exists_locate_eq (h : a.admits files p) : ∃ l, files.locate p = .ok l := by
  simp only [admits, isFile, find?, Bool.and_eq_true] at h
  cases hl : files.locate p with
  | ok l => exact ⟨l, rfl⟩
  | error e => simp [hl] at h

/-- The path of a target leads where the path of its group leads. -/
theorem leadsTo_eq_of_mem_groups (hg : g ∈ a.groups files targets) (hx : x ∈ g.2) :
    ∃ p ∈ x.file, a.admits files p ∧ ∀ l, files.leadsTo p l = files.leadsTo g.1 l := by
  rw [snd_of_mem_groups hg, List.mem_filter, Option.any_eq_true] at hx
  obtain ⟨-, p, hp, hs⟩ := hx
  obtain ⟨y, -, hy⟩ := exists_of_mem_groups g hg
  obtain ⟨hfile, hadm⟩ := Option.filter_eq_some_iff.1 hp
  obtain ⟨m, hm⟩ := exists_locate_eq hadm
  obtain ⟨m', hm'⟩ := exists_locate_eq (Option.filter_eq_some_iff.1 hy).2
  have he : m = m' := locate_eq_of_same hs hm hm'
  exact ⟨p, hfile, hadm, fun l => by rw [leadsTo, leadsTo, hm, hm', he]⟩

/-- A target of a group that leads to a file names the file. -/
theorem exists_leadsTo_of_mem_groupsAt (hg : group ∈ a.groupsAt files targets l) (hx : x ∈ group) :
    x ∈ targets ∧ ∃ p ∈ x.file, files.leadsTo p l := by
  obtain ⟨g, hgl, rfl⟩ := List.mem_map.1 hg
  obtain ⟨hgm, hl⟩ := List.mem_filter.1 hgl
  obtain ⟨p, hp, -, hsame⟩ := leadsTo_eq_of_mem_groups hgm hx
  exact ⟨subset_of_mem_groups g hgm hx, p, hp, (hsame l).trans hl⟩

/-! ### The part of a target -/

/-- Jobs let only their own entities succeed. -/
theorem exists_succeeded_foldl_work (a : Annotator) : ∀ (jobs : List Job) (r : Run),
    ∃ ids ⊆ jobs.flatMap (·.ids), (jobs.foldl a.work r).tally.succeeded = r.tally.succeeded ++ ids
  | [], r => ⟨[], by simp, (List.append_nil _).symm⟩
  | j :: jobs, r => by
    obtain ⟨ids, hsub, he⟩ := exists_succeeded_foldl_work a jobs (a.work r j)
    have hpart : (j.part r.files).succeeded ⊆ j.ids := fun i hi =>
      (j.counted r.files).subset (List.mem_append_left _ (List.mem_append_left _ hi))
    refine ⟨(j.part r.files).succeeded ++ ids, ?_, ?_⟩
    · rw [List.flatMap_cons]
      exact List.append_subset.2 ⟨List.subset_append_of_subset_left _ hpart, List.subset_append_of_subset_right _ hsub⟩
    · rw [List.foldl_cons, he, ← List.append_assoc]
      rfl

/-- An entity of one job succeeds if it does so in its job. -/
theorem mem_succeeded_foldl_work (h : (r.tally.identifiers ++ (before ++ j :: after).flatMap (·.ids)).Nodup)
    (hi : i ∈ j.ids) : i ∈ ((before ++ j :: after).foldl a.work r).tally.succeeded ↔
      i ∈ (j.part (before.foldl a.work r).files).succeeded := by
  rw [List.flatMap_append, List.flatMap_cons, ← List.append_assoc] at h
  obtain ⟨ids, hsub, he⟩ := exists_succeeded_foldl_work a after (a.work (before.foldl a.work r) j)
  obtain ⟨-, hrest, hdisjoint⟩ := List.nodup_append.1 h
  have hbefore : i ∉ (before.foldl a.work r).tally.succeeded := fun hm =>
    hdisjoint i ((identifiers_foldl_work a before r).subset (List.mem_append_left _ (List.mem_append_left _ hm))) i
      (List.mem_append_left _ hi) rfl
  have hafter : i ∉ ids := fun hm => (List.nodup_append.1 hrest).2.2 i hi i (hsub hm) rfl
  rw [List.foldl_append, List.foldl_cons, he, work, Tally.succeeded_append, List.mem_append, List.mem_append]
  tauto

theorem nodup_identifiers_applyAll (a : Annotator) (files : FileTree) (hids : (targets.map (·.identifier)).Nodup) :
    (a.applyAll files targets).tally.identifiers.Nodup := by
  rw [applyAll_eq]
  refine ((identifiers_foldl_work a _ _).nodup_iff).2 ?_
  simp only [Tally.identifiers, List.nil_append, List.map_nil, List.append_nil, applyJobs, List.flatMap_map]
  exact ((refused_append_perm a files targets).nodup_iff).2 hids

theorem not_mem_succeeded_of_mem_skipped (hids : (targets.map (·.identifier)).Nodup)
    (h : i ∈ (a.applyAll files targets).tally.skipped) : i ∉ (a.applyAll files targets).tally.succeeded := fun hm =>
  (List.nodup_append.1 (List.nodup_append.1 (nodup_identifiers_applyAll a files hids)).1).2.2 i hm i h rfl

/-- What became of a target is told by the job of its group. -/
theorem mem_succeeded_applyAll (hids : (targets.map (·.identifier)).Nodup) {before after : List (Path × List Target)}
    (hg : a.groups files targets = before ++ g :: after) (hx : x ∈ g.2) :
    x.identifier ∈ (a.applyAll files targets).tally.succeeded ↔
      x.identifier ∈ ((a.applyJob g.1 g.2).part ((before.map fun g => a.applyJob g.1 g.2).foldl a.work
        { tally := { skipped := a.refused files targets }, files := files }).files).succeeded := by
  have hjobs : a.applyJobs files targets = (before.map fun g => a.applyJob g.1 g.2) ++
      a.applyJob g.1 g.2 :: after.map fun g => a.applyJob g.1 g.2 := by
    rw [applyJobs, hg, List.map_append, List.map_cons]
  have hnodup := nodup_identifiers_applyAll a files hids
  rw [applyAll_eq, hjobs] at hnodup
  rw [applyAll_eq, hjobs]
  exact mem_succeeded_foldl_work (((identifiers_foldl_work a _ _).nodup_iff).1 hnodup) (List.mem_map_of_mem hx)

/-! ### The text on which a group works -/

theorem sameShape_foldl_work (a : Annotator) (groups : List (Path × List Target)) (r : Run) :
    SameShape r.files ((groups.map fun g => a.applyJob g.1 g.2).foldl a.work r).files := by
  have hshape := (applyGroup_does a).sameShape_foldl groups r
  simp only [extend_applyGroup] at hshape
  rwa [List.foldl_map]

/-- After some groups a file is rewritten by those that lead to it. -/
theorem textAt_foldl_work (hd : a.dryRun = false) (groups : List (Path × List Target)) (r : Run)
    (ht : r.files.textAt l = some t) :
    ((groups.map fun g => a.applyJob g.1 g.2).foldl a.work r).files.textAt l =
      some (rewriteAll a.parse a.position ((groups.filter fun g => r.files.leadsTo g.1 l).map (·.2)) t) := by
  have htext := (applyGroup_does a).textAt_foldl groups r ht
  simp only [extend_applyGroup, unlessDry, hd, Bool.false_eq_true, if_false] at htext
  rwa [List.foldl_map]

/-- Where there is no text, jobs write none. -/
theorem textAt_foldl_work_eq_none (a : Annotator) : ∀ (jobs : List Job) (r : Run), r.files.textAt l = none →
    (jobs.foldl a.work r).files.textAt l = none
  | [], _, h => h
  | j :: jobs, r, h => by
    refine textAt_foldl_work_eq_none a jobs (a.work r j) ?_
    show (a.made r.files (j.part r.files).changes).textAt l = none
    rcases a.made_part j r.files with he | ⟨c, -, hr, he⟩
    · rw [he, h]
    · obtain ⟨m, -, hm, hput⟩ := exists_make_eq hr
      have hne : l ≠ m := by
        rintro rfl
        rw [h] at hm
        cases hm
      rw [he, hput, textAt_put_of_ne hne, h]

/-- A group that leads to a file stands between those that lead there before and after it. -/
theorem exists_groups_eq {pre post : List (List Target)} (h : a.groupsAt files targets l = pre ++ group :: post) :
    ∃ before g after, a.groups files targets = before ++ g :: after ∧ g.2 = group ∧ files.leadsTo g.1 l ∧
      (before.filter fun g => files.leadsTo g.1 l).map (·.2) = pre := by
  obtain ⟨fs, gs, hsplit, hpre, hpost⟩ := List.map_eq_append_iff.1 h
  obtain ⟨g, gs', rfl, hgroup, -⟩ := List.map_eq_cons_iff.1 hpost
  obtain ⟨before, rest, hgroups, hbefore, hrest⟩ := List.filter_eq_append_iff.1 hsplit
  obtain ⟨skipped, after, rfl, hskipped, hg, -⟩ := List.filter_eq_cons_iff.1 hrest
  refine ⟨before ++ skipped, g, after, by rw [hgroups, List.append_assoc], hgroup, hg, ?_⟩
  rw [List.filter_append, hbefore, List.filter_eq_nil_iff.2 hskipped, List.append_nil, hpre]

/-- A target succeeds if its group changes the text on which it works, and the target is placed. -/
theorem mem_succeeded_iff (hd : a.dryRun = false) (hids : (targets.map (·.identifier)).Nodup)
    (ht : files.textAt l = some t) (hw : (group, u) ∈ works a.parse a.position (a.groupsAt files targets l) t)
    (hx : x ∈ group) : x.identifier ∈ (a.applyAll files targets).tally.succeeded ↔
      (rewrite a.parse a.position group u).1 ≠ u ∧ x.identifier ∈ (rewrite a.parse a.position group u).2 := by
  obtain ⟨pre, post, hg, rfl⟩ := exists_of_mem_works hw
  obtain ⟨before, g, after, hgroups, rfl, hl, rfl⟩ := exists_groups_eq hg
  let start : Run := { tally := { skipped := a.refused files targets }, files := files }
  have hshape := a.sameShape_foldl_work before start
  have hread : read ((before.map fun g => a.applyJob g.1 g.2).foldl a.work start).files g.1 = .ok _ :=
    read_ok_iff.2 (read_eq_ok_iff.2
      ⟨l, (hshape.locate_eq _).trans (leadsTo_iff.1 hl), textAt_foldl_work hd before start ht⟩)
  rw [mem_succeeded_applyAll hids hgroups hx, part_applyJob hread, mem_succeeded_applied]
  exact and_congr_right fun _ => and_iff_right (List.mem_map_of_mem hx)

/-- A group leaves the text on which it works exactly if none of its targets succeeds. -/
theorem rewrite_eq_iff (hd : a.dryRun = false) (hids : (targets.map (·.identifier)).Nodup)
    (ht : files.textAt l = some t) (hw : (group, u) ∈ works a.parse a.position (a.groupsAt files targets l) t) :
    (rewrite a.parse a.position group u).1 = u ↔
      ∀ x ∈ group, x.identifier ∉ (a.applyAll files targets).tally.succeeded := by
  constructor
  · exact fun he x hx hi => ((mem_succeeded_iff hd hids ht hw hx).1 hi).1 he
  · intro hnone
    by_contra hne
    obtain ⟨i, hi⟩ := List.exists_mem_of_ne_nil _ (placed_ne_nil hne)
    obtain ⟨x, hx, rfl⟩ := List.mem_map.1 (placed_subset _ _ _ _ hi)
    exact hnone x hx ((mem_succeeded_iff hd hids ht hw hx).2 ⟨hne, hi⟩)

/-- A target that succeeds is one of a group that leads, like the target's own path, to a file that holds a text. -/
theorem exists_of_mem_succeeded (hids : (targets.map (·.identifier)).Nodup) (hx : x ∈ targets)
    (hi : x.identifier ∈ (a.applyAll files targets).tally.succeeded) :
    ∃ p ∈ x.file, ∃ l t, files.leadsTo p l ∧ files.textAt l = some t ∧
      ∃ group ∈ a.groupsAt files targets l, x ∈ group := by
  obtain ⟨ids, hsub, he⟩ := a.exists_succeeded_foldl_work (a.applyJobs files targets)
    { tally := { skipped := a.refused files targets }, files := files }
  have hmem := hi
  rw [applyAll_eq, he] at hmem
  obtain ⟨j, hj, hij⟩ := List.mem_flatMap.1 (hsub hmem)
  obtain ⟨g, hg, rfl⟩ := List.mem_map.1 hj
  obtain ⟨y, hy, hyx⟩ := List.mem_map.1 hij
  cases List.inj_on_of_nodup_map hids (subset_of_mem_groups g hg hy) hx hyx
  obtain ⟨before, after, hgroups⟩ := List.append_of_mem hg
  rw [mem_succeeded_applyAll hids hgroups hy] at hi
  rcases (a.applyJob g.1 g.2).concerns ((before.map fun g => a.applyJob g.1 g.2).foldl a.work
    { tally := { skipped := a.refused files targets }, files := files }).files with ⟨-, hs⟩ | ⟨_, _, -, -, hr, -⟩
  · rw [hs] at hi
    cases hi
  · obtain ⟨l, hl, ht⟩ := read_eq_ok_iff.1 hr
    have hl : files.leadsTo g.1 l := leadsTo_iff.2 (((a.sameShape_foldl_work before _).locate_eq _).symm.trans hl)
    obtain ⟨p, hp, -, hsame⟩ := leadsTo_eq_of_mem_groups hg hy
    cases htext : files.textAt l with
    | none =>
      rw [a.textAt_foldl_work_eq_none _ _ htext] at ht
      cases ht
    | some t =>
      exact ⟨p, hp, l, t, (hsame l).trans hl, htext, g.2, List.mem_map_of_mem (List.mem_filter.2 ⟨hg, hl⟩), hy⟩

end Annotator
end Marginalia
