/-
# Dry runs

A dry run reads the same files at every step, a real one what its steps before
have left. If no file is named by two paths, a step that changes the file of
one path leaves what is read at all others, so both runs tell the same
(`Annotator.parts_eq_map`), and what the dry run tells is what the real run does
(`Annotator.dryRun_foretells`).

Key definitions: `FileTree.Apart`, `FileTree.Made`, `Foretells`.
Key theorems: `FileTree.made_foldl`, `Annotator.parts_eq_map`, `Annotator.foretells_work`,
`Annotator.dryRun_foretells`.
-/
import Marginalia.Proofs.Annotation.Jobs

namespace Marginalia

namespace FileTree

variable {files files' : FileTree} {p q : Path} {x : Text} {l : Location} {c : FileChange} {cs : List FileChange}

/-- Nothing is named by both paths. -/
def Apart (files : FileTree) (p q : Path) : Prop := ∀ l, files.leadsTo p l → ¬ files.leadsTo q l

theorem SameShape.apart (h : SameShape files files') (hp : files.Apart p q) : files'.Apart p q := fun l => by
  rw [h.leadsTo_eq, h.leadsTo_eq]
  exact hp l

/-! ### Making changes -/

theorem eq_of_leadsTo {m : Location} (hl : files.leadsTo p l) (hm : files.leadsTo p m) : l = m :=
  Except.ok.inj ((leadsTo_iff.1 hl).symm.trans (leadsTo_iff.1 hm))

theorem textAt_make_self (hr : files.read c.path = .ok x) (hl : files.leadsTo c.path l) :
    (files.make c).textAt l = some c.after := by
  obtain ⟨m, hm, hx, he⟩ := exists_make_eq hr
  rw [he, eq_of_leadsTo hl hm, textAt_put_self hx]

theorem item?_make_of_not_leadsTo (hr : files.read c.path = .ok x) (hl : ¬ files.leadsTo c.path l) :
    (files.make c).item? l = files.item? l := by
  obtain ⟨m, hm, -, he⟩ := exists_make_eq hr
  rw [he]
  exact item?_put_of_ne _ (fun h => by rw [h] at hl; exact hl hm) _

/-- A change leaves what is read at a path that names another file. -/
theorem read_make_of_apart (hr : files.read c.path = .ok x) (h : files.Apart c.path q) :
    (files.make c).read q = files.read q := by
  unfold read
  rw [(sameShape_make hr).locate_eq]
  cases hq : files.locate q with
  | error e => rfl
  | ok l =>
    have hl : ¬ files.leadsTo c.path l := fun hl => h l hl (leadsTo_iff.2 hq)
    simp only [bind, Except.bind, item?_make_of_not_leadsTo hr hl]

/-- The changes are made, and no others. -/
structure Made (files files' : FileTree) (cs : List FileChange) : Prop where
  /-- The trees have the same shape. -/
  shape : SameShape files files'
  /-- Each file to which the path of a change leads holds the text that the change gives it. -/
  after : ∀ c ∈ cs, ∀ l, files.leadsTo c.path l → files'.textAt l = some c.after
  /-- All else stays. -/
  others : ∀ l, (∀ c ∈ cs, ¬ files.leadsTo c.path l) → files'.item? l = files.item? l

/-- Changes of files that are apart are all made, each of the text that it tells. -/
theorem made_foldl : ∀ (cs : List FileChange) (files : FileTree), (∀ c ∈ cs, files.read c.path = .ok c.before) →
    (cs.Pairwise fun c d => files.Apart c.path d.path) → Made files (cs.foldl make files) cs
  | [], files, _, _ => ⟨.refl files, by simp, fun _ _ => rfl⟩
  | c :: cs, files, hr, hp => by
    rw [List.forall_mem_cons] at hr
    rw [List.pairwise_cons] at hp
    have hs := sameShape_make hr.1
    have ih : Made (files.make c) (cs.foldl make (files.make c)) cs :=
      made_foldl cs (files.make c) (fun d hd => (read_make_of_apart hr.1 (hp.1 d hd)).trans (hr.2 d hd))
        (hp.2.imp fun h => hs.apart h)
    have hothers (l : Location) (h : ∀ d ∈ cs, ¬ files.leadsTo d.path l) :
        (cs.foldl make (files.make c)).item? l = (files.make c).item? l :=
      ih.others l fun d hd => by rw [hs.leadsTo_eq]; exact h d hd
    refine ⟨hs.trans ih.shape, List.forall_mem_cons.2 ⟨fun l hl => ?_, fun d hd l hl => ?_⟩, fun l h => ?_⟩
    · rw [List.foldl_cons, textAt, hothers l fun d hd => hp.1 d hd l hl]
      exact textAt_make_self hr.1 hl
    · exact ih.after d hd l (by rw [hs.leadsTo_eq]; exact hl)
    · rw [List.forall_mem_cons] at h
      rw [List.foldl_cons, hothers l h.2, item?_make_of_not_leadsTo hr.1 h.1]

/-- Something else stands at a location exactly if a change leads there that is one. -/
theorem Made.item?_ne_iff (h : Made files files' cs) (hr : ∀ c ∈ cs, files.read c.path = .ok c.before)
    (hne : ∀ c ∈ cs, c.before ≠ c.after) (l : Location) :
    files'.item? l ≠ files.item? l ↔ ∃ c ∈ cs, files.leadsTo c.path l := by
  constructor
  · intro hl
    by_contra hn
    exact hl (h.others l fun c hc hcl => hn ⟨c, hc, hcl⟩)
  · rintro ⟨c, hc, hcl⟩ he
    obtain ⟨m, hm, hx⟩ := read_eq_ok_iff.1 (hr c hc)
    rw [← eq_of_leadsTo hcl (leadsTo_iff.2 hm), textAt, ← he, ← textAt, h.after c hc l hcl] at hx
    exact hne c hc (Option.some.inj hx).symm

end FileTree

open FileTree

/-- A dry run over files foretells another run: it leaves the files and tells what the other one does. -/
structure Foretells (files : FileTree) (dry run : Run) : Prop where
  /-- Both runs tell the same. -/
  tally : dry.tally = run.tally
  /-- The dry run leaves all files. -/
  leaves : dry.files = files
  /-- A change is told with the text that was read, and the file holds the other text now. -/
  changes : ∀ c ∈ run.tally.changes,
    c.before ≠ c.after ∧ files.read c.path = .ok c.before ∧ run.files.read c.path = .ok c.after
  /-- Each file is told once. -/
  once : run.tally.changes.Pairwise fun c d => files.Apart c.path d.path
  /-- Something else stands where the changes lead, and nowhere else. -/
  differs : ∀ l, run.files.item? l ≠ files.item? l ↔ ∃ c ∈ run.tally.changes, files.leadsTo c.path l

namespace Annotator

variable {a dry run : Annotator} {files files' : FileTree} {targets : List Target} {paths : List Path} {j : Job}
  {jobs : List Job} {c : FileChange}

theorem made_made (a : Annotator) (files : FileTree) (cs ds : List FileChange) :
    a.made (a.made files cs) ds = a.made files (cs ++ ds) := by
  unfold made
  split
  · rfl
  · rw [List.foldl_append]

/-- The files after jobs are those in which all their changes are made. -/
theorem files_foldl_work (a : Annotator) : ∀ (jobs : List Job) (r : Run),
    (jobs.foldl a.work r).files = a.made r.files ((a.parts r.files jobs).flatMap (·.changes))
  | [], r => (a.made_nil r.files).symm
  | j :: jobs, r => by
    rw [List.foldl_cons, files_foldl_work a jobs, parts, List.flatMap_cons, ← made_made]
    rfl

/-- A job leaves what is read at the paths that name other files. -/
theorem read_made_of_apart (a : Annotator) (j : Job) (files : FileTree) :
    SameShape files (a.made files (j.part files).changes) ∧
      ∀ q, files.Apart j.path q → (a.made files (j.part files).changes).read q = files.read q := by
  rcases a.made_part j files with he | ⟨c, hp, hr, he⟩
  · rw [he]
    exact ⟨.refl files, fun _ _ => rfl⟩
  · rw [he, ← hp]
    exact ⟨sameShape_make hr, fun q hq => read_make_of_apart hr hq⟩

/-- Each of several jobs on files that are apart comes to the same as if it were the only one. -/
theorem parts_eq_map (a : Annotator) (hp : jobs.Pairwise fun i j => files.Apart i.path j.path)
    (hs : SameShape files files') (hr : ∀ j ∈ jobs, files'.read j.path = files.read j.path) :
    a.parts files' jobs = jobs.map fun j => j.part files := by
  induction jobs generalizing files' with
  | nil => rfl
  | cons j jobs ih =>
    rw [List.pairwise_cons] at hp
    rw [List.forall_mem_cons] at hr
    obtain ⟨hs', hr'⟩ := a.read_made_of_apart j files'
    rw [parts, List.map_cons, j.isLocal hs hr.1, ← j.isLocal hs hr.1]
    refine congrArg _ (ih hp.2 (hs.trans hs') fun i hi => ?_)
    rw [hr' i.path (hs.apart (hp.1 i hi)), hr.2 i hi]

/-- A change of some job is one of the file that the job reads. -/
theorem read_of_mem_changes (hc : c ∈ (jobs.map fun j => j.part files).flatMap (·.changes)) :
    c.before ≠ c.after ∧ files.read c.path = .ok c.before := by
  obtain ⟨t, ht, hc⟩ := List.mem_flatMap.1 hc
  obtain ⟨j, -, rfl⟩ := List.mem_map.1 ht
  rcases j.concerns files with ⟨h0, -⟩ | ⟨x, y, h1, -, hr, hne⟩
  · rw [h0] at hc
    cases hc
  · rw [h1, List.mem_singleton] at hc
    subst hc
    exact ⟨hne, hr⟩

/-- Over jobs on files that are apart, the dry run foretells the other one. -/
theorem foretells_work (hdry : dry.dryRun = true) (hrun : run.dryRun = false) (jobs : List Job) (r : Run)
    (h0 : r.tally.changes = []) (hp : jobs.Pairwise fun i j => r.files.Apart i.path j.path) :
    Foretells r.files (jobs.foldl dry.work r) (jobs.foldl run.work r) := by
  have hparts (a : Annotator) : a.parts r.files jobs = jobs.map fun j => j.part r.files :=
    a.parts_eq_map hp (.refl _) fun _ _ => rfl
  have hchanges : (jobs.foldl run.work r).tally.changes = (jobs.map fun j => j.part r.files).flatMap (·.changes) := by
    rw [tally_foldl_work, Tally.changes_foldl, h0, List.nil_append, hparts]
  have hmem : ∀ c ∈ (jobs.foldl run.work r).tally.changes, c.before ≠ c.after ∧ r.files.read c.path = .ok c.before :=
    fun c hc => read_of_mem_changes (hchanges ▸ hc)
  have honce : (jobs.foldl run.work r).tally.changes.Pairwise fun c d => r.files.Apart c.path d.path := by
    have hpaths : (jobs.map (·.path)).Pairwise r.files.Apart := List.pairwise_map.2 hp
    have hsub := run.paths_changes_sublist jobs r.files
    rw [hparts, ← hchanges] at hsub
    exact List.pairwise_map.1 (hpaths.sublist hsub)
  have hfiles : (jobs.foldl run.work r).files = (jobs.foldl run.work r).tally.changes.foldl make r.files := by
    rw [files_foldl_work, hparts, ← hchanges, made, hrun]
    rfl
  have hmade : Made r.files (jobs.foldl run.work r).files (jobs.foldl run.work r).tally.changes :=
    hfiles ▸ made_foldl _ _ (fun c hc => (hmem c hc).2) honce
  refine ⟨?_, ?_, fun c hc => ⟨(hmem c hc).1, (hmem c hc).2, ?_⟩, honce,
    hmade.item?_ne_iff (fun c hc => (hmem c hc).2) fun c hc => (hmem c hc).1⟩
  · rw [tally_foldl_work, tally_foldl_work, hparts, hparts]
  · rw [files_foldl_work, made, if_pos hdry]
  · obtain ⟨l, hl, -⟩ := read_eq_ok_iff.1 (hmem c hc).2
    exact read_eq_ok_iff.2 ⟨l, (hmade.shape.locate_eq _).trans hl, hmade.after c hc l (leadsTo_iff.2 hl)⟩

/-- No file is named by two paths that targets name. -/
def NamedOnce (files : FileTree) (targets : List Target) : Prop :=
  ∀ x ∈ targets, ∀ y ∈ targets, ∀ p ∈ x.file, ∀ q ∈ y.file, ∀ l, files.leadsTo p l → files.leadsTo q l → p.same q

theorem apart_of_locate_ne {p q : Path} (h : files.locate p ≠ files.locate q) : files.Apart p q :=
  fun _ hp hq => h ((leadsTo_iff.1 hp).trans (leadsTo_iff.1 hq).symm)

theorem namedOnce_of_locate_ne (h : ∀ x ∈ targets, ∀ y ∈ targets, ∀ p ∈ x.file, ∀ q ∈ y.file,
    p.same q ∨ files.locate p ≠ files.locate q) : NamedOnce files targets :=
  fun x hx y hy p hp q hq l hpl hql =>
    (h x hx y hy p hp q hq).resolve_right fun hne => apart_of_locate_ne hne l hpl hql

/-- The groups are apart if no file is named by two paths. -/
theorem pairwise_groups_apart (a : Annotator) (h : NamedOnce files targets) :
    (a.groups files targets).Pairwise fun g h => files.Apart g.1 h.1 := by
  refine (pairwise_groups a files targets).imp_of_mem fun {g g'} hg hg' hne l hl hl' => hne ?_
  obtain ⟨x, hx, hxg⟩ := exists_of_mem_groups g hg
  obtain ⟨y, hy, hyg⟩ := exists_of_mem_groups g' hg'
  exact h x hx y hy g.1 (Option.filter_eq_some_iff.1 hxg).1 g'.1 (Option.filter_eq_some_iff.1 hyg).1 l hl hl'

/-- A dry run tells what the real run does, and leaves all files: over targets if no file is named by two paths,
and over paths if they name different files. -/
theorem dryRun_foretells (a : Annotator) (files : FileTree) :
    let dry := { a with dryRun := true }
    let run := { a with dryRun := false }
    (∀ targets, NamedOnce files targets →
      Foretells files (dry.applyAll files targets) (run.applyAll files targets) ∧
      Foretells files (dry.removeAll files targets) (run.removeAll files targets)) ∧
    ∀ paths tag, paths.Pairwise files.Apart →
      Foretells files (dry.removeFrom files paths tag) (run.removeFrom files paths tag) := by
  intro dry run
  refine ⟨fun targets h => ?_, fun paths tag h => ?_⟩
  · have hgroups := a.pairwise_groups_apart h
    have happly : (a.applyJobs files targets).Pairwise fun i j => files.Apart i.path j.path :=
      List.pairwise_map.2 hgroups
    have hremove : (a.removeJobs files targets).Pairwise fun i j => files.Apart i.path j.path :=
      List.pairwise_map.2 hgroups
    let start : Run := { tally := { skipped := a.refused files targets }, files := files }
    rw [applyAll_eq, applyAll_eq, removeAll_eq, removeAll_eq]
    exact ⟨foretells_work rfl rfl (a.applyJobs files targets) start rfl happly,
      foretells_work rfl rfl (a.removeJobs files targets) start rfl hremove⟩
  · have hpaths : (paths.map fun p => guarded a (clearJob tag p)).Pairwise fun i j => files.Apart i.path j.path :=
      List.pairwise_map.2 h
    rw [removeFrom_eq, removeFrom_eq]
    exact foretells_work rfl rfl (paths.map fun p => guarded a (clearJob tag p)) { files := files } rfl hpaths

/-! ### Two models in two files -/

/-- A file of a model with a block, and one of a model without. -/
def twoFiles : FileTree where
  entries := [
    (["user.rb".toList], .file (.text
      ("# --- BEGIN annotate:schema ---\n# id\n# --- END annotate:schema ---\n".toList ++ "class User\nend\n".toList))),
    (["role.rb".toList], .file (.text "class Role\nend\n".toList))]

/-- The models of the two files, and one that has no class. -/
def twoModels : List Target :=
  [Step.userTarget "User" (.declaration "User") .schema "id\nname",
    { Step.userTarget "Role" (.declaration "Role") .schema "id" with file := some ⟨"role.rb".toList⟩ },
    Step.userTarget "Ghost" (.declaration "Ghost") .schema "id"]

theorem dryRun_foretells_users :
    let a := Step.rubyAnnotator .before
    let dry := { a with dryRun := true }
    let run := { a with dryRun := false }
    let paths : List Path := [⟨"user.rb".toList⟩, ⟨"role.rb".toList⟩]
    NamedOnce twoFiles twoModels ∧ paths.Pairwise twoFiles.Apart ∧
      Foretells twoFiles (dry.applyAll twoFiles twoModels) (run.applyAll twoFiles twoModels) ∧
      Foretells twoFiles (dry.removeAll twoFiles twoModels) (run.removeAll twoFiles twoModels) ∧
      Foretells twoFiles (dry.removeFrom twoFiles paths .schema) (run.removeFrom twoFiles paths .schema) ∧
      (dry.applyAll twoFiles twoModels).tally.succeeded = ["User", "Role"] ∧
      (dry.removeAll twoFiles twoModels).tally.succeeded = ["User", "Ghost"] ∧
      (dry.removeFrom twoFiles paths .schema).tally.succeeded = ["user.rb"] := by
  intro a dry run paths
  have hone : NamedOnce twoFiles twoModels := namedOnce_of_locate_ne (by decide)
  have hne : twoFiles.locate ⟨"user.rb".toList⟩ ≠ twoFiles.locate ⟨"role.rb".toList⟩ := by decide
  have hapart : paths.Pairwise twoFiles.Apart := List.pairwise_pair.2 (apart_of_locate_ne hne)
  obtain ⟨happly, hremove⟩ := (dryRun_foretells a twoFiles).1 twoModels hone
  exact ⟨hone, hapart, happly, hremove, (dryRun_foretells a twoFiles).2 paths .schema hapart,
    by decide +kernel, by decide +kernel, by decide +kernel⟩

end Annotator
end Marginalia
