/-
# Runs as lists of jobs

A run goes from file to file. What it does with one is a job: it reads the file
of a path, says what becomes of some entities, and changes this file or none. A
job depends on nothing but what its path leads to, counts each of its entities
once, and changes the file exactly if some entity succeeds. Every run works off
a list of jobs one after the other (`Annotator.applyAll_eq`,
`Annotator.removeAll_eq`, `Annotator.removeFrom_eq`), so its tally is put together
from the parts of the jobs (`Annotator.tally_foldl_work`). No run takes a file
from its place (`Step.sameLayout_runAll`).

Key definitions: `Tally.identifiers`, `Job`, `Annotator.work`, `Annotator.parts`.
Key theorems: `Annotator.applyAll_eq`, `Annotator.removeAll_eq`, `Annotator.removeFrom_eq`,
`Annotator.tally_foldl_work`, `Annotator.identifiers_foldl_work`, `Step.sameLayout_runAll`.
-/
import Marginalia.Proofs.Annotation.Effect
import Marginalia.Proofs.Annotation.Stages
import Marginalia.Proofs.FileTree.Layout

namespace Marginalia

open FileTree

/-! ### Tallies -/

namespace Tally

variable {s t : Tally}

/-- The identifiers of all entities that are counted. -/
def identifiers (t : Tally) : List String := t.succeeded ++ t.skipped ++ t.failed.map (·.identifier)

@[simp] theorem succeeded_append (s t : Tally) : (s ++ t).succeeded = s.succeeded ++ t.succeeded := rfl

@[simp] theorem skipped_append (s t : Tally) : (s ++ t).skipped = s.skipped ++ t.skipped := rfl

@[simp] theorem failed_append (s t : Tally) : (s ++ t).failed = s.failed ++ t.failed := rfl

@[simp] theorem changes_append (s t : Tally) : (s ++ t).changes = s.changes ++ t.changes := rfl

theorem empty_append (t : Tally) : ({} : Tally) ++ t = t := rfl

theorem length_identifiers (t : Tally) : t.identifiers.length = t.total := by
  simp [identifiers, total, Nat.add_assoc]

/-- Two tallies one after the other count the entities of both. -/
theorem identifiers_append_perm (s t : Tally) : (s ++ t).identifiers.Perm (s.identifiers ++ t.identifiers) := by
  rw [List.perm_iff_count]
  intro i
  simp only [identifiers, succeeded_append, skipped_append, failed_append, List.map_append, List.count_append]
  omega

theorem identifiers_failing (ids : List String) (f : Fault) : (failing ids f).identifiers = ids := by
  simp [identifiers, failing, Function.comp_def]

theorem changes_foldl : ∀ (ts : List Tally) (t : Tally),
    (ts.foldl (· ++ ·) t).changes = t.changes ++ ts.flatMap (·.changes)
  | [], t => (List.append_nil _).symm
  | s :: ts, t => by rw [List.foldl_cons, changes_foldl ts, changes_append, List.append_assoc, List.flatMap_cons]

end Tally

/-! ### Jobs -/

/-- What a tally says of the file at a path: it lists a change of the file, from the text that is read there to
another one, exactly if some entity succeeded. -/
def Tally.Concerns (files : FileTree) (p : Path) (t : Tally) : Prop :=
  t.changes = [] ∧ t.succeeded = [] ∨
    ∃ x y, t.changes = [⟨p, x, y⟩] ∧ t.succeeded ≠ [] ∧ files.read p = .ok x ∧ x ≠ y

/-- A tally settles entities that share a path: each is counted once, and the path is in one change if some
entity succeeded, and in none otherwise. -/
structure Tally.Settles (p : Path) (ids : List String) (t : Tally) : Prop where
  /-- Each entity is counted once. -/
  identifiers : t.identifiers.Perm ids
  /-- The paths of the changes. -/
  changes : t.changes.map (·.path) = if t.succeeded = [] then [] else [p]

/-- What a run does with the file of a path. -/
structure Job where
  /-- The path. -/
  path : Path
  /-- The entities for which it is done. -/
  ids : List String
  /-- What becomes of them. -/
  part : FileTree → Tally
  /-- Each of them is counted once. -/
  counted : ∀ files, (part files).identifiers.Perm ids
  /-- No other file is changed. -/
  concerns : ∀ files, (part files).Concerns files path
  /-- It depends on nothing but what the path leads to. -/
  isLocal : ∀ {files files'}, SameShape files files' → files'.read path = files.read path → part files' = part files

namespace Job

/-- The job that reads a file and says what becomes of the entities by its text; where it cannot be read, all of
them fail. -/
def ofText (p : Path) (ids : List String) (f : Text → Tally) (counted : ∀ x, (f x).identifiers.Perm ids)
    (change : ∀ x, (f x).changes = [] ∧ (f x).succeeded = [] ∨
      ∃ y, (f x).changes = [⟨p, x, y⟩] ∧ (f x).succeeded ≠ [] ∧ x ≠ y) : Job where
  path := p
  ids := ids
  part files := match Annotator.read files p with
    | .ok x => f x
    | .error fault => Tally.failing ids fault
  counted files := by
    split
    · exact counted _
    · exact .of_eq (Tally.identifiers_failing ids _)
  concerns files := by
    split
    · next x hr =>
      refine (change x).imp_right ?_
      rintro ⟨y, hc, hs, hne⟩
      exact ⟨x, y, hc, hs, Annotator.read_ok_iff.1 hr, hne⟩
    · exact .inl ⟨rfl, rfl⟩
  isLocal _ h := by simp only [Annotator.read, h]

theorem settles (j : Job) (files : FileTree) : (j.part files).Settles j.path j.ids := by
  refine ⟨j.counted files, ?_⟩
  rcases j.concerns files with ⟨hc, hs⟩ | ⟨x, y, hc, hs, -⟩
  · rw [hc, if_pos hs, List.map_nil]
  · rw [hc, if_neg hs, List.map_singleton]

end Job

namespace Annotation

variable {parse : Text → Index} {pos : Position} {group : List Target} {t : Text}

/-- What is said of a draft while a group is handled: it was placed for entities of the group, and what is
pending is the group's. -/
def Draft.IsFor (group : List Target) (d : Draft) : Prop :=
  d.placed ⊆ group.map (·.identifier) ∧ ∀ p ∈ d.pending, p.1 ∈ group

theorem Draft.IsFor.afterTag {d : Draft} (h : d.IsFor group) (tag : Tag) :
    (d.afterTag parse group tag).IsFor group := by
  rcases afterTag_cases parse group d tag with ⟨-, he⟩ | ⟨target, name, x, hc, -, he⟩ | ⟨-, -, he⟩
  · rwa [he]
  · rw [he]
    have hm : target ∈ group := (mem_atClasses (x := (target, name)) (hc ▸ List.mem_singleton_self _)).1
    exact ⟨List.append_subset.2 ⟨h.1, fun i hi => List.mem_singleton.1 hi ▸ List.mem_map_of_mem hm⟩, h.2⟩
  · rw [he]
    exact ⟨h.1, List.forall_mem_append.2 ⟨h.2, fun p hp => (mem_atClasses hp).1⟩⟩

theorem Draft.IsFor.afterPending {d : Draft} (h : d.IsFor group) : (d.afterPending parse pos).IsFor group := by
  refine ⟨List.append_subset.2 ⟨h.1, fun i hi => ?_⟩, by simp [Draft.afterPending]⟩
  obtain ⟨p, hp, rfl⟩ := List.mem_map.1 hi
  exact List.mem_map_of_mem (h.2 p (List.mem_filter.1 hp).1)

theorem Draft.IsFor.afterLine {d : Draft} (h : d.IsFor group) {target : Target} (hm : target ∈ group) :
    (d.afterLine target).IsFor group := by
  unfold Draft.afterLine
  split
  · exact h
  · simp only
    split
    · exact ⟨List.append_subset.2 ⟨h.1, fun i hi => List.mem_singleton.1 hi ▸ List.mem_map_of_mem hm⟩, h.2⟩
    · exact h

/-- What is placed is among the entities of the group. -/
theorem placed_subset (parse : Text → Index) (pos : Position) (group : List Target) (t : Text) :
    (rewrite parse pos group t).2 ⊆ group.map (·.identifier) := by
  have hstripped : (stripped parse group t).IsFor group :=
    List.foldlRecOn (motive := Draft.IsFor group) Tag.all _ ⟨by simp, by simp⟩ fun d hd tag _ => hd.afterTag tag
  have hsettled : (settled parse pos group t).IsFor group := by
    simp only [settled]
    split
    · exact hstripped
    · exact hstripped.afterPending
  have hdraft : (draft parse pos group t).IsFor group := by
    rw [draft_eq]
    exact List.foldlRecOn (motive := Draft.IsFor group) group _ hsettled fun d hd target hm => hd.afterLine hm
  have hplaced : (rewrite parse pos group t).2 = (draft parse pos group t).placed := by
    simp only [rewrite]
    split <;> rfl
  rw [hplaced]
  exact hdraft.1

/-- A rewrite that places nothing is none. -/
theorem placed_ne_nil (h : (rewrite parse pos group t).1 ≠ t) : (rewrite parse pos group t).2 ≠ [] := by
  intro h0
  refine h (rewrite_eq_self (.inl ?_))
  simp only [rewrite] at h0
  split at h0 <;> exact h0

end Annotation

namespace Annotator

open Annotation

variable {a : Annotator} {files files' : FileTree} {p : Path} {x y : Text} {group targets : List Target} {r : Run}
  {j : Job} {jobs : List Job}

/-! ### What becomes of a group -/

/-- What becomes of the targets of a group in a file with the given text. -/
def applied (a : Annotator) (p : Path) (group : List Target) (x : Text) : Tally :=
  let (after, placed) := rewrite a.parse a.position group x
  let change : FileChange := { path := p, before := x, after := after }
  let done (t : Target) : Bool := !change.isNoop && placed.contains t.identifier
  { succeeded := (group.filter done).map (·.identifier)
    skipped := (group.filter fun t => !done t).map (·.identifier)
    changes := if change.isNoop then [] else [change] }

/-- What becomes of entities whose blocks, by their tags, are taken out of a file with the given text. -/
def cleared (p : Path) (ids : List String) (tags : List Tag) (x : Text) : Tally :=
  if x = unmark tags x then { skipped := ids } else { succeeded := ids, changes := [⟨p, x, unmark tags x⟩] }

theorem mem_succeeded_applied {i : String} : i ∈ (a.applied p group x).succeeded ↔
    (rewrite a.parse a.position group x).1 ≠ x ∧
      i ∈ group.map (·.identifier) ∧ i ∈ (rewrite a.parse a.position group x).2 := by
  simp only [applied, FileChange.isNoop, List.mem_map, List.mem_filter, Bool.and_eq_true, Bool.not_eq_true',
    beq_eq_false_iff_ne, List.contains_iff_mem]
  constructor
  · rintro ⟨t, ⟨hm, hne, hp⟩, rfl⟩
    exact ⟨hne.symm, ⟨t, hm, rfl⟩, hp⟩
  · rintro ⟨hne, ⟨t, hm, rfl⟩, hp⟩
    exact ⟨t, ⟨hm, hne.symm, hp⟩, rfl⟩

theorem identifiers_applied_perm (a : Annotator) (p : Path) (group : List Target) (x : Text) :
    (a.applied p group x).identifiers.Perm (group.map (·.identifier)) := by
  simp only [Tally.identifiers, applied, List.map_nil, List.append_nil, ← List.map_append]
  exact (List.filter_append_perm _ _).map _

theorem changes_applied (a : Annotator) (p : Path) (group : List Target) (x : Text) :
    (a.applied p group x).changes = [] ∧ (a.applied p group x).succeeded = [] ∨
      ∃ y, (a.applied p group x).changes = [⟨p, x, y⟩] ∧ (a.applied p group x).succeeded ≠ [] ∧ x ≠ y := by
  by_cases hx : (rewrite a.parse a.position group x).1 = x
  · refine .inl ⟨?_, List.eq_nil_iff_forall_not_mem.2 fun i hi => (mem_succeeded_applied.1 hi).1 hx⟩
    simp only [applied, FileChange.isNoop, hx, beq_self_eq_true, if_true]
  · refine .inr ⟨(rewrite a.parse a.position group x).1, ?_, ?_, Ne.symm hx⟩
    · simp only [applied, FileChange.isNoop, beq_iff_eq, if_neg (Ne.symm hx)]
    · obtain ⟨i, hi⟩ := List.exists_mem_of_ne_nil _ (placed_ne_nil hx)
      exact List.ne_nil_of_mem (mem_succeeded_applied.2 ⟨hx, placed_subset _ _ _ _ hi, hi⟩)

theorem identifiers_cleared (p : Path) (ids : List String) (tags : List Tag) (x : Text) :
    (cleared p ids tags x).identifiers = ids := by
  unfold cleared
  split <;> simp [Tally.identifiers]

theorem changes_cleared (p : Path) {ids : List String} {tags : List Tag} (h0 : tags = [] ∨ ids ≠ []) (x : Text) :
    (cleared p ids tags x).changes = [] ∧ (cleared p ids tags x).succeeded = [] ∨
      ∃ y, (cleared p ids tags x).changes = [⟨p, x, y⟩] ∧ (cleared p ids tags x).succeeded ≠ [] ∧ x ≠ y := by
  unfold cleared
  split
  · exact .inl ⟨rfl, rfl⟩
  · next hne =>
    refine .inr ⟨_, rfl, h0.resolve_left fun h => hne ?_, hne⟩
    rw [h]
    rfl

/-- Putting a group into its file. -/
def applyJob (a : Annotator) (p : Path) (group : List Target) : Job :=
  .ofText p (group.map (·.identifier)) (a.applied p group) (a.identifiers_applied_perm p group)
    (a.changes_applied p group)

theorem part_applyJob (hr : read files p = .ok x) : (a.applyJob p group).part files = a.applied p group x := by
  simp only [applyJob, Job.ofText, hr]

theorem tagsOf_eq_nil_or (group : List Target) : tagsOf group = [] ∨ group.map (·.identifier) ≠ [] := by
  cases group with
  | nil => exact .inl (by simp [tagsOf])
  | cons t group => exact .inr (List.cons_ne_nil _ _)

/-- Taking the blocks of some tags out of a file. -/
def clearing (p : Path) (ids : List String) (tags : List Tag) (h0 : tags = [] ∨ ids ≠ []) : Job :=
  .ofText p ids (cleared p ids tags) (fun x => .of_eq (identifiers_cleared p ids tags x)) (changes_cleared p h0)

/-- Taking the blocks of a group's tags out of its file. -/
def removeJob (p : Path) (group : List Target) : Job :=
  clearing p (group.map (·.identifier)) (tagsOf group) (tagsOf_eq_nil_or group)

/-- Taking the blocks of a tag out of one file. -/
def clearJob (tag : Tag) (p : Path) : Job := clearing p [p.toString] [tag] (.inr (List.cons_ne_nil _ _))

/-- The job that is done only if the file may be touched; otherwise the entities are skipped. -/
def guarded (a : Annotator) (j : Job) : Job :=
  { j with
    part := fun files => if a.admits files j.path then j.part files else { skipped := j.ids }
    counted := fun files => by
      split
      · exact j.counted files
      · exact .of_eq (by simp [Tally.identifiers])
    concerns := fun files => by
      split
      · exact j.concerns files
      · exact .inl ⟨rfl, rfl⟩
    isLocal := fun hs h => by rw [admits_eq hs, j.isLocal hs h] }

/-! ### Working off jobs -/

/-- Goes on with a run by a job. -/
def work (a : Annotator) (r : Run) (j : Job) : Run where
  tally := r.tally ++ j.part r.files
  files := a.made r.files (j.part r.files).changes

/-- What the jobs come to, one after the other. -/
def parts (a : Annotator) : FileTree → List Job → List Tally
  | _, [] => []
  | files, j :: jobs => j.part files :: a.parts (a.made files (j.part files).changes) jobs

/-- A job leaves the files or changes the one at its path. -/
theorem made_part (a : Annotator) (j : Job) (files : FileTree) : a.made files (j.part files).changes = files ∨
    ∃ c : FileChange, c.path = j.path ∧ files.read c.path = .ok c.before ∧
      a.made files (j.part files).changes = files.make c := by
  unfold made
  split
  · exact .inl rfl
  · rcases j.concerns files with ⟨hc, -⟩ | ⟨x, y, hc, -, hr, -⟩
    · exact .inl (by rw [hc, List.foldl_nil])
    · exact .inr ⟨⟨j.path, x, y⟩, rfl, hr, by rw [hc, List.foldl_cons, List.foldl_nil]⟩

/-- A part that is worked out with what stands at its path in the files. -/
theorem extend_eq_work {ids : List String} {next : FileTree → Except Fault Run}
    (h : ∀ files, (∃ e, next files = .error e ∧ j.part files = Tally.failing ids e) ∨
      next files = .ok { tally := j.part files, files := a.made files (j.part files).changes }) :
    extend r ids next = a.work r j := by
  rcases h r.files with ⟨e, he, hp⟩ | he
  · simp only [extend, work, he, hp, Tally.failing, made_nil]
  · simp only [extend, work, he]

theorem extend_applyGroup (r : Run) (p : Path) (group : List Target) :
    extend r (group.map (·.identifier)) (fun files => a.applyGroup files p group) = a.work r (a.applyJob p group) := by
  refine extend_eq_work fun files => ?_
  cases hr : read files p with
  | error e => exact .inl ⟨e, by simp [applyGroup, hr, bind, Except.bind], by simp [applyJob, Job.ofText, hr]⟩
  | ok x =>
    refine .inr ?_
    simp only [applyGroup, hr, bind, Except.bind, commit_eq hr, applyJob, Job.ofText, applied, FileChange.isNoop,
      beq_iff_eq]
    rfl

theorem extend_clearing (r : Run) (p : Path) (ids : List String) (tags : List Tag) (h0 : tags = [] ∨ ids ≠ []) :
    extend r ids (fun files => do
      let (change, files) ← a.removeTags files p tags
      return match change with
        | some c => { tally := { succeeded := ids, changes := [c] }, files := files }
        | none => { tally := { skipped := ids }, files := files }) = a.work r (clearing p ids tags h0) := by
  refine extend_eq_work fun files => ?_
  cases hr : read files p with
  | error e => exact .inl ⟨e, by simp [removeTags, hr, bind, Except.bind], by simp [clearing, Job.ofText, hr]⟩
  | ok x =>
    refine .inr ?_
    simp only [removeTags_eq hr, bind, Except.bind, clearing, Job.ofText, hr, cleared]
    by_cases hx : x = unmark tags x
    · rw [if_pos hx, if_pos hx, if_pos hx]
      rfl
    · rw [if_neg hx, if_neg hx, if_neg hx]
      rfl

theorem extend_removeGroup (r : Run) (p : Path) (group : List Target) :
    extend r (group.map (·.identifier)) (fun files => a.removeGroup files p group) = a.work r (removeJob p group) :=
  extend_clearing r p _ (tagsOf group) _

theorem removeFromFile_eq_work (a : Annotator) (tag : Tag) (r : Run) (p : Path) :
    a.removeFromFile tag r p = a.work r (guarded a (clearJob tag p)) := by
  unfold removeFromFile
  by_cases hp : a.admits r.files p = true
  · have hpart : (guarded a (clearJob tag p)).part r.files = (clearJob tag p).part r.files := if_pos hp
    have hwork : a.work r (clearJob tag p) = a.work r (guarded a (clearJob tag p)) := by
      rw [work, work, hpart]
    rw [if_pos hp]
    exact (extend_clearing r p [p.toString] [tag] (.inr (List.cons_ne_nil _ _))).trans hwork
  · have hpart : (guarded a (clearJob tag p)).part r.files = { skipped := [p.toString] } := if_neg hp
    rw [if_neg hp, work, hpart, made_nil]

/-- The jobs of putting targets into their files. -/
def applyJobs (a : Annotator) (files : FileTree) (targets : List Target) : List Job :=
  (a.groups files targets).map fun g => a.applyJob g.1 g.2

/-- The jobs of taking the blocks of the targets' tags out of their files. -/
def removeJobs (a : Annotator) (files : FileTree) (targets : List Target) : List Job :=
  (a.groups files targets).map fun g => removeJob g.1 g.2

theorem applyAll_eq (a : Annotator) (files : FileTree) (targets : List Target) : a.applyAll files targets =
    (a.applyJobs files targets).foldl a.work { tally := { skipped := a.refused files targets }, files := files } := by
  simp only [applyAll, overGroups, extend_applyGroup, applyJobs, List.foldl_map]

theorem removeAll_eq (a : Annotator) (files : FileTree) (targets : List Target) : a.removeAll files targets =
    (a.removeJobs files targets).foldl a.work { tally := { skipped := a.refused files targets }, files := files } := by
  simp only [removeAll, overGroups, extend_removeGroup, removeJobs, List.foldl_map]

theorem removeFrom_eq (a : Annotator) (files : FileTree) (paths : List Path) (tag : Tag) :
    a.removeFrom files paths tag = (paths.map fun p => guarded a (clearJob tag p)).foldl a.work { files := files } := by
  simp only [removeFrom, funext fun r => funext (a.removeFromFile_eq_work tag r), List.foldl_map]

/-- The tally of a run is put together from what the jobs come to. -/
theorem tally_foldl_work (a : Annotator) : ∀ (jobs : List Job) (r : Run),
    (jobs.foldl a.work r).tally = (a.parts r.files jobs).foldl (· ++ ·) r.tally
  | [], _ => rfl
  | j :: jobs, r => tally_foldl_work a jobs (a.work r j)

/-- What a job comes to is told from the files as the jobs before it leave them. -/
theorem forall₂_parts (a : Annotator) : ∀ (jobs : List Job) (files : FileTree),
    List.Forall₂ (fun (j : Job) t => ∃ files', t = j.part files') jobs (a.parts files jobs)
  | [], _ => .nil
  | _ :: jobs, files => .cons ⟨files, rfl⟩ (forall₂_parts a jobs _)

/-- The changes of jobs are changes of their paths, at most one for each job. -/
theorem paths_changes_sublist (a : Annotator) : ∀ (jobs : List Job) (files : FileTree),
    (((a.parts files jobs).flatMap (·.changes)).map (·.path)).Sublist (jobs.map (·.path))
  | [], _ => .slnil
  | j :: jobs, files => by
    have ih := paths_changes_sublist a jobs (a.made files (j.part files).changes)
    rw [parts, List.flatMap_cons, List.map_append, (j.settles files).changes, List.map_cons]
    split
    · exact .cons _ ih
    · exact .cons_cons _ ih

/-- All entities of all jobs are counted. -/
theorem identifiers_foldl_work (a : Annotator) : ∀ (jobs : List Job) (r : Run),
    (jobs.foldl a.work r).tally.identifiers.Perm (r.tally.identifiers ++ jobs.flatMap (·.ids))
  | [], r => by rw [List.flatMap_nil, List.append_nil]; rfl
  | j :: jobs, r => by
    have hj : (a.work r j).tally.identifiers.Perm (r.tally.identifiers ++ j.ids) :=
      (Tally.identifiers_append_perm _ _).trans ((j.counted r.files).append_left _)
    rw [List.foldl_cons, List.flatMap_cons, ← List.append_assoc]
    exact (identifiers_foldl_work a jobs (a.work r j)).trans (hj.append_right _)

/-! ### The layout of the files -/

/-- A job leaves every file in its place. -/
theorem sameLayout_work (a : Annotator) (r : Run) (j : Job) : SameLayout r.files (a.work r j).files := by
  rw [work]
  rcases a.made_part j r.files with he | ⟨c, -, hr, he⟩
  · rw [he]
    exact .refl r.files
  · obtain ⟨l, -, hx, hmake⟩ := exists_make_eq hr
    rw [he, hmake]
    exact sameLayout_put hx c.after

theorem sameLayout_foldl_work (a : Annotator) : ∀ (jobs : List Job) (r : Run),
    SameLayout r.files (jobs.foldl a.work r).files
  | [], r => .refl r.files
  | j :: jobs, r => (a.sameLayout_work r j).trans (a.sameLayout_foldl_work jobs (a.work r j))

end Annotator

namespace Step

/-- A step leaves every file in its place. -/
theorem sameLayout_run (files : FileTree) (s : Step) : SameLayout files (s.run files) := by
  cases s with
  | apply a targets =>
    rw [run, a.applyAll_eq]
    exact a.sameLayout_foldl_work _ { tally := { skipped := a.refused files targets }, files := files }
  | remove a targets =>
    rw [run, a.removeAll_eq]
    exact a.sameLayout_foldl_work _ { tally := { skipped := a.refused files targets }, files := files }
  | removeFrom a paths tag =>
    rw [run, a.removeFrom_eq]
    exact a.sameLayout_foldl_work _ { files := files }

theorem sameLayout_runAll : ∀ (steps : List Step) (files : FileTree), SameLayout files (runAll files steps)
  | [], files => .refl files
  | s :: steps, files => (sameLayout_run files s).trans (sameLayout_runAll steps (s.run files))

end Step
end Marginalia
