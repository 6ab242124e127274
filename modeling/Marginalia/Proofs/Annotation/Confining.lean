/-
# Writes stay below the root

All runs come to a file through `Annotator.admits`, those over targets before
anything is written and those over paths in turn. As no write moves a file or a
link, what a path led to at first it leads to when its file is written, so a run
that is kept below the root changes files there alone, and what it was asked to
touch elsewhere it skips (`Step.writes_stay_below_root`).

Key definitions: `FileTree.holdsBelow`, `Job.Confined`, `Step.outcome`, `Step.asked`.
Key theorems: `Annotator.holdsBelow_of_admits`, `Annotator.exists_of_item?_ne`,
`Step.writes_stay_below_root`.
-/
import Marginalia.Proofs.Annotation.Exclusion
import Marginalia.Proofs.Annotation.Rehearsal

namespace Marginalia

open FileTree

namespace FileTree

variable {t t' : FileTree} {p root : Path} {l : Location}

/-- Whether the path leads to a file whose path without links and steps up starts with that of the root. -/
def holdsBelow (t : FileTree) (root p : Path) : Bool := t.isFile p && (t.canonical? p).any (·.startsWith root)

theorem canonical?_eq_some (h : t.locate p = .ok l) : t.canonical? p = some (pathOf l) := by
  rw [canonical?, h]
  rfl

/-- The path leads to a place, if it leads to a file. -/
theorem exists_locate_of_isFile (h : t.isFile p) : ∃ l c, t.locate p = .ok l ∧ t.item? l = some (.file c) := by
  simp only [isFile, find?] at h
  cases hl : t.locate p with
  | error e => simp [hl] at h
  | ok l =>
    simp only [hl] at h
    split at h
    · next c hc => exact ⟨l, c, rfl, hc⟩
    · cases h

theorem holdsBelow_iff : t.holdsBelow root p ↔
    ∃ l c, t.locate p = .ok l ∧ t.item? l = some (.file c) ∧ (pathOf l).startsWith root := by
  rw [holdsBelow, Bool.and_eq_true]
  constructor
  · rintro ⟨hf, hc⟩
    obtain ⟨l, c, hl, hi⟩ := exists_locate_of_isFile hf
    rw [canonical?_eq_some hl] at hc
    exact ⟨l, c, hl, hi, hc⟩
  · rintro ⟨l, c, hl, hi, hs⟩
    refine ⟨?_, ?_⟩
    · simp [isFile, find?, hl, hi]
    · rwa [canonical?_eq_some hl]

/-- What stands where a path leads is told by its place. -/
theorem SameShape.find?_eq (h : SameShape t t') (hl : ∀ l, t.locate p = .ok l → t'.item? l = t.item? l) :
    t'.find? p = t.find? p := by
  rw [find?, find?, h.locate_eq]
  cases hp : t.locate p with
  | error e => rfl
  | ok l => exact hl l hp

end FileTree

theorem Tally.skipped_foldl : ∀ (ts : List Tally) (t : Tally),
    (ts.foldl (· ++ ·) t).skipped = t.skipped ++ ts.flatMap (·.skipped)
  | [], t => (List.append_nil _).symm
  | s :: ts, t => by rw [List.foldl_cons, skipped_foldl ts, skipped_append, List.append_assoc, List.flatMap_cons]

/-- The job changes a file only if its path is among these, whatever the files hold. -/
def Job.Confined (files : FileTree) (among : Path → Prop) (j : Job) : Prop :=
  ∀ files', SameShape files files' → (j.part files').changes ≠ [] → among j.path

namespace Annotator

variable {a : Annotator} {files : FileTree} {p root : Path} {l : Location} {targets : List Target} {t : Target}
  {jobs : List Job} {r : Run} {among : Path → Prop}

/-- Who is kept below the root touches nothing but files there. -/
theorem holdsBelow_of_admits (hroot : files.canonical? a.root = some root) (ho : a.allowOutside = false)
    (h : a.admits files p) : files.holdsBelow root p := by
  rw [admits, ho, Bool.false_or, Bool.and_eq_true, Bool.and_eq_true] at h
  obtain ⟨⟨hfile, hin⟩, -⟩ := h
  obtain ⟨l, c, hl, hi⟩ := exists_locate_of_isFile hfile
  rw [isWithinRoot, canonical, canonical, canonical?_eq_some hl, hroot, Option.getD_some, Option.getD_some] at hin
  exact holdsBelow_iff.2 ⟨l, c, hl, hi, hin⟩

/-! ### Jobs that are confined -/

/-- What the jobs come to is told from files of the shape of the first ones. -/
theorem exists_of_mem_parts (a : Annotator) : ∀ (jobs : List Job) (files : FileTree), ∀ t ∈ a.parts files jobs,
    ∃ j ∈ jobs, ∃ files', SameShape files files' ∧ t = j.part files'
  | [], _, t, ht => by cases ht
  | j :: jobs, files, t, ht => by
    rcases List.mem_cons.1 ht with rfl | ht
    · exact ⟨j, List.mem_cons_self, files, .refl files, rfl⟩
    · have hshape : SameShape files (a.made files (j.part files).changes) :=
        (a.sameLayout_work { files := files } j).sameShape
      obtain ⟨k, hk, files', hs, rfl⟩ := exists_of_mem_parts a jobs _ t ht
      exact ⟨k, List.mem_cons_of_mem j hk, files', hshape.trans hs, rfl⟩

/-- Confined jobs change what is among the paths to which they are confined. -/
theorem exists_of_mem_changes (hjobs : ∀ j ∈ jobs, j.Confined files among) :
    ∀ c ∈ (a.parts files jobs).flatMap (·.changes), ∃ j ∈ jobs, j.path = c.path ∧ among c.path := by
  intro c hc
  obtain ⟨t, ht, hc⟩ := List.mem_flatMap.1 hc
  obtain ⟨j, hj, files', hs, rfl⟩ := exists_of_mem_parts a jobs files t ht
  have hin := hjobs j hj files' hs (List.ne_nil_of_mem hc)
  rcases j.concerns files' with ⟨h0, -⟩ | ⟨x, y, h1, -⟩
  · rw [h0] at hc
    cases hc
  · rw [h1, List.mem_singleton] at hc
    rw [hc]
    exact ⟨j, hj, rfl, hin⟩

/-- Where something else stands after a run, a text stood, and a change leads there. -/
theorem exists_of_item?_ne (a : Annotator) : ∀ (jobs : List Job) (r : Run),
    (jobs.foldl a.work r).files.item? l ≠ r.files.item? l →
    ∃ c ∈ (a.parts r.files jobs).flatMap (·.changes), r.files.leadsTo c.path l
  | [], _, h => absurd rfl h
  | j :: jobs, r, h => by
    rw [parts, List.flatMap_cons]
    by_cases hstep : (a.work r j).files.item? l = r.files.item? l
    · obtain ⟨c, hc, hl⟩ := exists_of_item?_ne a jobs (a.work r j) (by rwa [hstep])
      rw [(a.sameLayout_work r j).sameShape.leadsTo_eq] at hl
      exact ⟨c, List.mem_append_right _ hc, hl⟩
    · have hmade : a.made r.files (j.part r.files).changes ≠ r.files := fun h => hstep (by rw [work, h])
      rcases j.concerns r.files with ⟨h0, -⟩ | ⟨x, y, h1, -, hr, -⟩
      · rw [h0, made_nil] at hmade
        exact absurd rfl hmade
      · obtain ⟨m, hm, -, hput⟩ := exists_make_eq (c := ⟨j.path, x, y⟩) hr
        refine ⟨⟨j.path, x, y⟩, by simp [h1], ?_⟩
        by_contra hl
        refine hstep ?_
        have hne : l ≠ m := fun he => hl (he ▸ hm)
        show (a.made r.files (j.part r.files).changes).item? l = _
        unfold made
        split
        · rfl
        · rw [h1, List.foldl_cons, List.foldl_nil, hput, item?_put_of_ne _ hne]

/-- The paths that may not be touched are skipped. -/
theorem skipped_sublist (a : Annotator) (tag : Tag) : ∀ (paths : List Path) (files : FileTree),
    ((paths.filter fun p => !a.admits files p).map Path.toString).Sublist
      ((a.parts files (paths.map fun p => guarded a (clearJob tag p))).flatMap (·.skipped))
  | [], _ => .slnil
  | p :: paths, files => by
    have hshape : SameShape files (a.made files ((guarded a (clearJob tag p)).part files).changes) :=
      (a.sameLayout_work { files := files } _).sameShape
    have ih := skipped_sublist a tag paths (a.made files ((guarded a (clearJob tag p)).part files).changes)
    simp only [admits_eq hshape] at ih
    rw [List.map_cons, parts, List.flatMap_cons, List.filter_cons]
    by_cases hp : a.admits files p
    · rw [if_neg (by simp [hp])]
      exact ih.trans (List.sublist_append_right _ _)
    · have hpart : (guarded a (clearJob tag p)).part files = { skipped := [p.toString] } := if_neg hp
      rw [hpart] at ih ⊢
      rw [if_pos (by simp [hp]), List.map_cons, List.singleton_append]
      exact ih.cons_cons _

end Annotator

/-! ### The runs -/

namespace Step

variable {a : Annotator} {files : FileTree} {root p : Path} {s : Step}

/-- The files and the tally after a step. -/
def outcome (files : FileTree) : Step → Run
  | apply a targets => a.applyAll files targets
  | remove a targets => a.removeAll files targets
  | removeFrom a paths tag => a.removeFrom files paths tag

/-- What a step is asked to handle: the identifier under which it is counted, and the path, if there is one. -/
def asked : Step → List (String × Option Path)
  | apply _ targets => targets.map fun t => (t.identifier, t.file)
  | remove _ targets => targets.map fun t => (t.identifier, t.file)
  | removeFrom _ paths _ => paths.map fun p => (p.toString, some p)

/-- The jobs of a step. -/
def jobs (files : FileTree) : Step → List Job
  | apply a targets => a.applyJobs files targets
  | remove a targets => a.removeJobs files targets
  | removeFrom a paths tag => paths.map fun p => Annotator.guarded a (Annotator.clearJob tag p)

/-- What a step skips before it starts. -/
def refused (files : FileTree) : Step → List String
  | apply a targets => a.refused files targets
  | remove a targets => a.refused files targets
  | removeFrom _ _ _ => []

/-- Every step works off its jobs. -/
theorem outcome_eq (files : FileTree) (s : Step) : s.outcome files =
    (s.jobs files).foldl s.annotator.work { tally := { skipped := s.refused files }, files := files } := by
  cases s with
  | apply a targets => exact a.applyAll_eq files targets
  | remove a targets => exact a.removeAll_eq files targets
  | removeFrom a paths tag => exact a.removeFrom_eq files paths tag

/-- Every job is asked for, and changes its file only if it may be touched. -/
theorem confined_jobs (files : FileTree) (s : Step) : ∀ j ∈ s.jobs files, (∃ x ∈ s.asked, x.2 = some j.path) ∧
    j.Confined files fun p => s.annotator.admits files p := by
  -- a group has the path of a target that was admitted
  have hgroup {a : Annotator} {targets : List Target} {g : Path × List Target} (hg : g ∈ a.groups files targets) :
      (∃ x ∈ targets.map fun t => (t.identifier, t.file), x.2 = some g.1) ∧ a.admits files g.1 := by
    obtain ⟨t, ht, hadm⟩ := Annotator.exists_of_mem_groups g hg
    obtain ⟨hfile, hadm⟩ := Option.filter_eq_some_iff.1 hadm
    exact ⟨⟨_, List.mem_map_of_mem ht, hfile⟩, hadm⟩
  intro j hj
  cases s with
  | apply a targets =>
    obtain ⟨g, hg, rfl⟩ := List.mem_map.1 hj
    exact ⟨(hgroup hg).1, fun _ _ _ => (hgroup hg).2⟩
  | remove a targets =>
    obtain ⟨g, hg, rfl⟩ := List.mem_map.1 hj
    exact ⟨(hgroup hg).1, fun _ _ _ => (hgroup hg).2⟩
  | removeFrom a paths tag =>
    obtain ⟨p, hp, rfl⟩ := List.mem_map.1 hj
    refine ⟨⟨_, List.mem_map_of_mem hp, rfl⟩, fun files' hs hne => ?_⟩
    by_contra hadm
    have hadm' : ¬ a.admits files' p := by rwa [Annotator.admits_eq hs]
    exact hne (congrArg Tally.changes (if_neg hadm'))

/-- What may not be touched is skipped. -/
theorem skipped_of_not_admits (files : FileTree) (s : Step) :
    ((s.asked.filter fun x => !x.2.any (s.annotator.admits files)).map (·.1)).Sublist (s.outcome files).tally.skipped := by
  have hrefused (a : Annotator) (targets : List Target) :
      ((targets.map fun t => (t.identifier, t.file)).filter fun x => !x.2.any (a.admits files)).map (·.1) =
        a.refused files targets := by
    rw [Annotator.refused, List.filter_map, List.map_map]
    refine congrArg (List.map _) (List.filter_congr fun t _ => ?_)
    cases hf : t.file with
    | none => simp [Annotator.admitted?, hf]
    | some p => by_cases hp : a.admits files p <;> simp [Annotator.admitted?, hf, hp, Option.filter]
  rw [outcome_eq, Annotator.tally_foldl_work, Tally.skipped_foldl]
  cases s with
  | apply a targets => exact hrefused a targets ▸ List.sublist_append_left _ _
  | remove a targets => exact hrefused a targets ▸ List.sublist_append_left _ _
  | removeFrom a paths tag =>
    have h := a.skipped_sublist tag paths files
    rw [asked, List.filter_map, List.map_map]
    exact h

/-- **Writes stay below the root.** If files outside the root may not be written and the root leads somewhere,
what a step writes are the changes that it lists, each of them at a path that was asked for and leads to a
file below the root; nothing changes but where such a path leads. All that was asked for at no such path is
skipped, and what stands where another path leads stays. -/
theorem writes_stay_below_root (hroot : files.canonical? s.annotator.root = some root)
    (ho : s.annotator.allowOutside = false) :
    (s.outcome files).files = s.annotator.made files (s.outcome files).tally.changes ∧
    (∀ c ∈ (s.outcome files).tally.changes,
      (∃ x ∈ s.asked, x.2 = some c.path) ∧ files.holdsBelow root c.path) ∧
    (∀ l, (s.outcome files).files.item? l ≠ files.item? l →
      ∃ c ∈ (s.outcome files).tally.changes, files.leadsTo c.path l) ∧
    ((s.asked.filter fun x => !x.2.any (files.holdsBelow root)).map (·.1)).Sublist (s.outcome files).tally.skipped ∧
    ∀ p, ¬ files.holdsBelow root p → (s.outcome files).files.find? p = files.find? p := by
  have hchanges : (s.outcome files).tally.changes =
      (s.annotator.parts files (s.jobs files)).flatMap (·.changes) := by
    rw [outcome_eq, Annotator.tally_foldl_work, Tally.changes_foldl, List.nil_append]
  have hlisted : ∀ c ∈ (s.outcome files).tally.changes,
      (∃ x ∈ s.asked, x.2 = some c.path) ∧ files.holdsBelow root c.path := by
    intro c hc
    rw [hchanges] at hc
    obtain ⟨j, hj, hpath, hadm⟩ := Annotator.exists_of_mem_changes (fun j hj => (confined_jobs files s j hj).2) c hc
    exact ⟨hpath ▸ (confined_jobs files s j hj).1, Annotator.holdsBelow_of_admits hroot ho hadm⟩
  have hwritten : ∀ l, (s.outcome files).files.item? l ≠ files.item? l →
      ∃ c ∈ (s.outcome files).tally.changes, files.leadsTo c.path l := by
    intro l hl
    rw [outcome_eq] at hl
    rw [hchanges]
    exact s.annotator.exists_of_item?_ne (s.jobs files) _ hl
  refine ⟨?_, hlisted, hwritten, ?_, fun p hp => ?_⟩
  · rw [hchanges, outcome_eq, Annotator.files_foldl_work]
  · refine List.Sublist.trans (List.Sublist.map _ ?_) (skipped_of_not_admits files s)
    refine List.monotone_filter_right _ fun x hx => ?_
    cases hfile : x.2 with
    | none => rfl
    | some p =>
      simp only [hfile, Option.any_some, Bool.not_eq_true'] at hx ⊢
      exact Bool.eq_false_iff.2 fun hadm => Bool.eq_false_iff.1 hx (Annotator.holdsBelow_of_admits hroot ho hadm)
  · have hshape : SameShape files (s.outcome files).files := by
      rw [outcome_eq]
      exact (s.annotator.sameLayout_foldl_work (s.jobs files)
        { tally := { skipped := s.refused files }, files := files }).sameShape
    refine hshape.find?_eq fun l hl => ?_
    by_contra hne
    obtain ⟨c, hc, hlead⟩ := hwritten l hne
    -- the path leads where the change leads, to a file below the root
    obtain ⟨m, content, hm, hfile, hstarts⟩ := holdsBelow_iff.1 (hlisted c hc).2
    obtain rfl : m = l := Except.ok.inj (hm.symm.trans (leadsTo_iff.1 hlead))
    exact hp (holdsBelow_iff.2 ⟨m, content, hl, hfile, hstarts⟩)

/-- A project with a folder of models, one of which is a link to a file elsewhere. -/
def linkedFiles : FileTree where
  entries := [(["project".toList], .folder), (["project".toList, "app".toList], .folder),
    (["project".toList, "lib".toList], .folder),
    (["project".toList, "app".toList, "user.rb".toList], .file (.text "class User\nend\n".toList)),
    (["project".toList, "lib".toList, "role.rb".toList], .file (.text "class Role\nend\n".toList)),
    (["project".toList, "app".toList, "role.rb".toList], .link ⟨"../lib/role.rb".toList⟩)]
  workingFolder := ["project".toList]

/-- An annotator of the models. -/
def appAnnotator : Annotator where
  root := ⟨"app".toList⟩
  position := .before
  parse := Index.ofSource

/-- A target at a class in a file of the project. -/
def linkedTarget (name file : String) : Target where
  identifier := name
  file := some ⟨file.toList⟩
  anchor := .declaration name
  tag := .schema
  payload := "id".toList

/-- Annotating the models, by paths with links and steps up. -/
def linkedStep : Step :=
  apply appAnnotator [linkedTarget "Role" "app/role.rb", linkedTarget "User" "app/../app/user.rb",
    linkedTarget "Role" "app/../lib/role.rb"]

/-- A model is annotated; what a link or a step up leads to elsewhere is skipped and stays. -/
theorem writes_stay_below_root_linked :
    linkedFiles.canonical? linkedStep.annotator.root = some ⟨"/project/app".toList⟩ ∧
      linkedStep.annotator.allowOutside = false ∧
      ["Role", "Role"].Sublist (linkedStep.outcome linkedFiles).tally.skipped ∧
      (linkedStep.outcome linkedFiles).files.find? ⟨"lib/role.rb".toList⟩ =
        some (.file (.text "class Role\nend\n".toList)) ∧
      (linkedStep.outcome linkedFiles).files.find? ⟨"app/user.rb".toList⟩ = some (.file (.text
        "# --- BEGIN annotate:schema ---\n# id\n# --- END annotate:schema ---\nclass User\nend\n".toList)) := by
  have hroot : linkedFiles.canonical? linkedStep.annotator.root = some ⟨"/project/app".toList⟩ := by
    decide
  obtain ⟨-, -, -, hskipped, hkept⟩ := writes_stay_below_root (s := linkedStep) hroot rfl
  refine ⟨hroot, rfl, ?_, ?_, by decide +kernel⟩
  · have hasked : (linkedStep.asked.filter fun x => !x.2.any (linkedFiles.holdsBelow ⟨"/project/app".toList⟩)).map
        (·.1) = ["Role", "Role"] := by decide
    rwa [hasked] at hskipped
  · rw [hkept _ (by decide)]
    decide

end Step
end Marginalia
