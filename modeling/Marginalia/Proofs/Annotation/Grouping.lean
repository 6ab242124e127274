/-
# The groups of a run

The targets of a run are grouped by the paths of their files. No two groups
have the same path (`Annotator.pairwise_groups`), each path is that of a target
whose file may be touched (`Annotator.exists_of_mem_groups`), and each such
target is in one group (`Annotator.flatMap_groups_perm`), with all the others that
have its path (`Annotator.snd_of_mem_groups`).

Key theorems: `Annotator.addToGroup_eq`, `Annotator.pairwise_groups`,
`Annotator.flatMap_groups_perm`, `Annotator.subperm_of_mem_groups`, `Annotator.snd_of_mem_groups`.
-/
import Mathlib.Data.List.Induction
import Mathlib.Data.List.Perm.Subperm
import Marginalia.Annotation.Run

namespace Marginalia
namespace Annotator

variable {a : Annotator} {files : FileTree} {targets : List Target} {p : Path} {t : Target}
  {gs : List (Path × List Target)} {g : Path × List Target}

/-- A target goes to the group of its path, or makes a new group below all others. -/
theorem addToGroup_eq (p : Path) (t : Target) (gs : List (Path × List Target)) :
    (∃ pre g post, gs = pre ++ g :: post ∧ addToGroup p t gs = pre ++ (g.1, g.2 ++ [t]) :: post) ∨
      (∀ g ∈ gs, ¬ g.1.same p) ∧ addToGroup p t gs = gs ++ [(p, [t])] := by
  induction gs with
  | nil => exact .inr ⟨by simp, rfl⟩
  | cons g gs ih =>
    rw [addToGroup]
    split
    · exact .inl ⟨[], g, gs, rfl, rfl⟩
    · next hs =>
      rcases ih with ⟨pre, h, post, rfl, he⟩ | ⟨hn, he⟩
      · exact .inl ⟨g :: pre, h, post, rfl, by rw [he, List.cons_append]⟩
      · exact .inr ⟨List.forall_mem_cons.2 ⟨hs, hn⟩, by rw [he, List.cons_append]⟩

theorem groups_concat (a : Annotator) (files : FileTree) (targets : List Target) (t : Target) :
    a.groups files (targets ++ [t]) = match a.admitted? files t with
      | some p => addToGroup p t (a.groups files targets)
      | none => a.groups files targets := List.foldl_append

/-- What holds of no groups and is kept by adding a target of the run holds of the groups. -/
theorem groups_induction {P : List (Path × List Target) → Prop} (nil : P [])
    (add : ∀ t ∈ targets, ∀ p gs, a.admitted? files t = some p → P gs → P (addToGroup p t gs)) :
    P (a.groups files targets) := by
  induction targets using List.reverseRecOn with
  | nil => exact nil
  | append_singleton targets t ih =>
    have h := ih fun t ht => add t (List.mem_append_left _ ht)
    rw [groups_concat]
    split
    · next p hp => exact add t (List.mem_append_right _ List.mem_cons_self) p _ hp h
    · exact h

/-- No two groups have the same path. -/
theorem pairwise_groups (a : Annotator) (files : FileTree) (targets : List Target) :
    (a.groups files targets).Pairwise fun g h => ¬ g.1.same h.1 := by
  refine groups_induction .nil fun t _ p gs _ ih => ?_
  rcases addToGroup_eq p t gs with ⟨pre, g, post, rfl, he⟩ | ⟨hn, he⟩
  · have hkeys : (addToGroup p t (pre ++ g :: post)).map (·.1) = (pre ++ g :: post).map (·.1) := by
      rw [he, List.map_append, List.map_append, List.map_cons, List.map_cons]
    have h : ((pre ++ g :: post).map (·.1)).Pairwise fun p q : Path => ¬ p.same q := List.pairwise_map.2 ih
    rw [← hkeys] at h
    exact List.pairwise_map.1 h
  · rw [he, List.pairwise_append]
    exact ⟨ih, List.pairwise_singleton _ _, fun g hg h hh => List.mem_singleton.1 hh ▸ hn g hg⟩

/-- The targets of the first group that has a path. -/
def groupOf (p : Path) : List (Path × List Target) → List Target
  | [] => []
  | g :: gs => if g.1.same p then g.2 else groupOf p gs

theorem groupOf_addToGroup (p q : Path) (t : Target) : ∀ gs : List (Path × List Target),
    groupOf p (addToGroup q t gs) = groupOf p gs ++ if q.same p then [t] else []
  | [] => by simp only [addToGroup, groupOf, List.nil_append]
  | g :: gs => by
    have ih := groupOf_addToGroup p q t gs
    rw [addToGroup]
    by_cases hq : g.1.same q
    · have hs : g.1.same p = q.same p := by simp only [Path.same, eq_of_beq hq]
      rw [if_pos hq, groupOf, groupOf, hs]
      by_cases hp : q.same p <;> simp [hp]
    · rw [if_neg hq, groupOf, groupOf, ih]
      by_cases hp : g.1.same p
      · have hqp : ¬ q.same p := fun h => hq (beq_iff_eq.2 ((eq_of_beq hp).trans (eq_of_beq h).symm))
        simp [hp, hqp]
      · simp [hp]

theorem groupOf_groups (a : Annotator) (files : FileTree) (targets : List Target) (p : Path) :
    groupOf p (a.groups files targets) = targets.filter fun t => (a.admitted? files t).any (·.same p) := by
  induction targets using List.reverseRecOn with
  | nil => rfl
  | append_singleton targets t ih =>
    rw [groups_concat, List.filter_append, ← ih, List.filter_singleton]
    cases a.admitted? files t with
    | some q => simp only [groupOf_addToGroup, Option.any_some, Bool.cond_eq_ite]
    | none => simp

theorem groupOf_of_mem (h : gs.Pairwise fun g h => ¬ g.1.same h.1) (hg : g ∈ gs) : groupOf g.1 gs = g.2 := by
  induction gs with
  | nil => cases hg
  | cons g' gs ih =>
    rw [List.pairwise_cons] at h
    rcases List.mem_cons.1 hg with rfl | hm
    · exact if_pos (beq_self_eq_true g.1.components)
    · rw [groupOf, if_neg (h.1 g hm), ih h.2 hm]

/-- A group is made of the targets that have its path. -/
theorem snd_of_mem_groups (hg : g ∈ a.groups files targets) :
    g.2 = targets.filter fun t => (a.admitted? files t).any (·.same g.1) := by
  rw [← groupOf_groups, groupOf_of_mem (pairwise_groups a files targets) hg]

/-- The path of a group is that of a target of the run. -/
theorem exists_of_mem_groups : ∀ g ∈ a.groups files targets, ∃ t ∈ targets, a.admitted? files t = some g.1 := by
  refine groups_induction (P := fun gs => ∀ g ∈ gs, ∃ t ∈ targets, a.admitted? files t = some g.1)
    (by simp) fun t ht p gs hp ih => ?_
  rcases addToGroup_eq p t gs with ⟨pre, g, post, rfl, he⟩ | ⟨-, he⟩
  · rw [List.forall_mem_append, List.forall_mem_cons] at ih
    rw [he, List.forall_mem_append, List.forall_mem_cons]
    exact ih
  · rw [he, List.forall_mem_append, List.forall_mem_singleton]
    exact ⟨ih, t, ht, hp⟩

/-- Targets of one file are one group, if the file may be touched. -/
theorem groups_of_file (hf : ∀ x ∈ targets, x.file = some p) (hp : a.admits files p) (h0 : targets ≠ []) :
    a.groups files targets = [(p, targets)] := by
  induction targets using List.reverseRecOn with
  | nil => exact absurd rfl h0
  | append_singleton targets t ih =>
    rw [List.forall_mem_append, List.forall_mem_singleton] at hf
    have ht : a.admitted? files t = some p := by rw [admitted?, hf.2, Option.filter_some, if_pos hp]
    rw [groups_concat, ht]
    by_cases hn : targets = []
    · subst hn
      rfl
    · have hs : p.same p = true := beq_self_eq_true _
      rw [ih hf.1 hn]
      simp only [addToGroup, hs, if_true]

/-- Targets of a file that may not be touched are refused. -/
theorem groups_of_refused (hf : ∀ x ∈ targets, x.file = some p) (hp : ¬ a.admits files p) :
    a.groups files targets = [] ∧ a.refused files targets = targets.map (·.identifier) := by
  have hn : ∀ x ∈ targets, a.admitted? files x = none := fun x hx => by
    rw [admitted?, hf x hx, Option.filter_some, if_neg hp]
  constructor
  · refine groups_induction (P := fun gs => gs = []) rfl fun t ht q gs hq _ => ?_
    rw [hn t ht] at hq
    cases hq
  · rw [refused, List.filter_eq_self.2 fun x hx => by rw [hn x hx]; rfl]

theorem flatMap_addToGroup_perm (p : Path) (t : Target) (gs : List (Path × List Target)) :
    ((addToGroup p t gs).flatMap (·.2)).Perm (gs.flatMap (·.2) ++ [t]) := by
  rcases addToGroup_eq p t gs with ⟨pre, g, post, rfl, he⟩ | ⟨-, he⟩
  · rw [he, List.flatMap_append, List.flatMap_append, List.flatMap_cons, List.flatMap_cons, List.append_assoc,
      List.append_assoc, List.append_assoc]
    exact .append_left _ (.append_left _ List.perm_append_comm)
  · rw [he, List.flatMap_append, List.flatMap_singleton]

/-- The groups are made of the targets whose files may be touched. -/
theorem flatMap_groups_perm (a : Annotator) (files : FileTree) (targets : List Target) :
    ((a.groups files targets).flatMap (·.2)).Perm
      (targets.filter fun t => (a.admitted? files t).isSome) := by
  induction targets using List.reverseRecOn with
  | nil => exact .nil
  | append_singleton targets t ih =>
    rw [groups_concat, List.filter_append]
    cases hp : a.admitted? files t with
    | some p =>
      rw [List.filter_cons_of_pos (by rw [hp]; rfl)]
      exact (flatMap_addToGroup_perm p t _).trans (ih.append_right _)
    | none =>
      rw [List.filter_cons_of_neg (by simp [hp]), List.filter_nil, List.append_nil]
      exact ih

theorem subperm_of_mem_groups (h : g ∈ a.groups files targets) : g.2.Subperm targets := by
  have hs : g.2.Sublist ((a.groups files targets).flatMap (·.2)) := by
    rw [List.flatMap_def]
    exact List.sublist_flatten_of_mem (List.mem_map_of_mem h)
  exact (hs.subperm.trans (flatMap_groups_perm a files targets).subperm).trans List.filter_sublist.subperm

/-- The groups of a run are made of its targets. -/
theorem subset_of_mem_groups : ∀ g ∈ a.groups files targets, g.2 ⊆ targets :=
  fun _ h => (subperm_of_mem_groups h).subset

/-- Every target is in a group or refused. -/
theorem refused_append_perm (a : Annotator) (files : FileTree) (targets : List Target) :
    (a.refused files targets ++ (a.groups files targets).flatMap fun g => g.2.map (·.identifier)).Perm
      (targets.map (·.identifier)) := by
  have hp : ((targets.filter fun t => (a.admitted? files t).isNone) ++
      (a.groups files targets).flatMap (·.2)).Perm targets := by
    refine ((flatMap_groups_perm a files targets).append_left _).trans ?_
    have hsome : (targets.filter fun t => (a.admitted? files t).isSome) =
        targets.filter fun t => !(a.admitted? files t).isNone :=
      List.filter_congr fun t _ => by cases a.admitted? files t <;> rfl
    rw [hsome]
    exact List.filter_append_perm _ _
  rw [refused, ← List.map_flatMap, ← List.map_append]
  exact hp.map _

end Annotator
end Marginalia
