/-
# What a tally accounts for

No run loses an entity or counts one twice: whatever becomes of a file, each
target of a run is in one of the three lists of the tally as often as it occurs
among the targets. The targets that share a path are one group; it adds one
change to the tally if some of its targets succeeded, and none otherwise. A
run over what a snapshot gives counts the faults besides, below all other
failures (`Annotator.tally_balances`).

Key definitions: `Annotator.contribution`, `Annotator.Accounts`, `Production.failure?`.
Key theorems: `Annotator.accounts_overGroups`, `Annotator.tally_balances`.
-/
import Marginalia.Annotation.Production
import Marginalia.Proofs.Annotation.Jobs

namespace Marginalia

/-- The failure as which an entity without a target is counted. -/
def Production.failure? (tag : Tag) : Production → Option Failure
  | .ok _ => none
  | .error f => some (Annotator.failureOf tag f)

namespace Annotator

variable {a : Annotator} {files : FileTree} {targets : List Target}
  {handle : FileTree → Path → List Target → Except Fault Run}

/-- What handling a group adds to the tally of a run that has come to these files. -/
def contribution (handle : FileTree → Path → List Target → Except Fault Run) (files : FileTree)
    (g : Path × List Target) : Tally :=
  (extend { files := files } (g.2.map (·.identifier)) fun files => handle files g.1 g.2).tally

/-- A tally accounts for the targets of a run that handles them group by group. -/
structure Accounts (a : Annotator) (handle : FileTree → Path → List Target → Except Fault Run) (files : FileTree)
    (targets : List Target) (tally : Tally) : Prop where
  /-- Each target is counted as often as it occurs. -/
  identifiers : tally.identifiers.Perm (targets.map (·.identifier))
  /-- A group is made of the targets that share its path. -/
  shared : ∀ g ∈ a.groups files targets, g.2 = targets.filter fun t => (a.admitted? files t).any (·.same g.1)
  /-- What the groups add is put together below the targets that are refused, and settles each group. -/
  contributions : ∃ parts : List Tally, tally = parts.foldl (· ++ ·) { skipped := a.refused files targets } ∧
    List.Forall₂ (fun g t => (∃ files', t = contribution handle files' g) ∧ t.Settles g.1 (g.2.map (·.identifier)))
      (a.groups files targets) parts
  /-- No path is in two changes. -/
  apart : tally.changes.Pairwise fun c d => ¬ c.path.same d.path

/-- A handler that does a job for each group leaves a tally that accounts for the targets. -/
theorem accounts_overGroups (job : Path → List Target → Job)
    (hjob : ∀ r p group,
      extend r (group.map (·.identifier)) (fun files => handle files p group) = a.work r (job p group))
    (hpath : ∀ p group, (job p group).path = p) (hids : ∀ p group, (job p group).ids = group.map (·.identifier))
    (files : FileTree) (targets : List Target) :
    a.Accounts handle files targets (a.overGroups handle files targets).tally := by
  have hrun : a.overGroups handle files targets = ((a.groups files targets).map fun g => job g.1 g.2).foldl a.work
      { tally := { skipped := a.refused files targets }, files := files } := by
    simp only [overGroups, hjob, List.foldl_map]
  have htally := congrArg Run.tally hrun
  rw [tally_foldl_work] at htally
  refine ⟨?_, fun g hg => snd_of_mem_groups hg, ⟨_, htally, ?_⟩, ?_⟩
  · rw [hrun]
    refine (identifiers_foldl_work a _ _).trans ?_
    simp only [Tally.identifiers, List.nil_append, List.map_nil, List.append_nil, List.flatMap_map, hids]
    exact refused_append_perm a files targets
  · refine (List.forall₂_map_left_iff.1 (forall₂_parts a _ files)).imp ?_
    rintro g t ⟨files', rfl⟩
    refine ⟨⟨files', ?_⟩, ?_⟩
    · rw [contribution, hjob, work, Tally.empty_append]
    · have h := (job g.1 g.2).settles files'
      rwa [hpath, hids] at h
  · rw [htally, Tally.changes_foldl, List.nil_append]
    have hp : (((a.groups files targets).map fun g => job g.1 g.2).map (·.path)).Pairwise
        fun p q : Path => ¬ p.same q := by
      simp only [List.map_map, Function.comp_def, hpath]
      exact List.pairwise_map.2 (pairwise_groups a files targets)
    exact List.pairwise_map.1 (hp.sublist (paths_changes_sublist a _ files))

theorem tally_annotate (a : Annotator) (files : FileTree) (tag : Tag) (ps : List Production) :
    (a.annotate files tag ps).tally = (a.applyAll files (ps.filterMap Except.toOption)).tally ++
      { failed := ps.filterMap (Production.failure? tag) : Tally } := by
  simp only [annotate, List.map_filterMap]
  congr 3
  funext p
  cases p <;> rfl

theorem length_filterMap_add (tag : Tag) : ∀ ps : List Production,
    (ps.filterMap Except.toOption).length + (ps.filterMap (Production.failure? tag)).length = ps.length
  | [] => rfl
  | .ok _ :: ps => by
    have ih := length_filterMap_add tag ps
    simp only [List.filterMap_cons, Except.toOption, Production.failure?, List.length_cons]
    omega
  | .error _ :: ps => by
    have ih := length_filterMap_add tag ps
    simp only [List.filterMap_cons, Except.toOption, Production.failure?, List.length_cons]
    omega

end Annotator
end Marginalia
