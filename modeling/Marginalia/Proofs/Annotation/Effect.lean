/-
# What a run does to one file

A run goes over the groups of targets and rewrites, for each of them, the file
to which its path leads. All trees on the way have the same shape, so the file
at a location is rewritten by the groups whose path led there from the start,
one after the other (`Annotator.textAt_applyAll`), and likewise for removals.

Key definitions: `FileTree.make`, `Annotator.made`, `Annotator.groupsAt`, `Annotation.rewriteAll`,
`Annotation.unmark`, `Annotator.Does`, `Step`, `Step.run`.
Key theorems: `Annotator.commit_eq`, `Annotator.textAt_applyAll`, `Annotator.textAt_removeAll`,
`Annotator.textAt_removeFrom`.
-/
import Marginalia.Proofs.Annotation.Grouping
import Marginalia.Proofs.FileTree.Rewriting
import Marginalia.Ruby.Reader

namespace Marginalia

/-- Whether the path leads to the location. -/
def FileTree.leadsTo (t : FileTree) (p : Path) (l : Location) : Bool := (t.locate p).toOption == some l

namespace FileTree

variable {t t' : FileTree} {p : Path} {l : Location} {c : FileChange} {x : Text}

theorem leadsTo_iff : t.leadsTo p l ↔ t.locate p = .ok l := by
  unfold leadsTo
  cases t.locate p <;> simp [Except.toOption]

theorem SameShape.leadsTo_eq (h : SameShape t t') (p : Path) (l : Location) :
    t'.leadsTo p l = t.leadsTo p l := by
  rw [leadsTo, h.locate_eq, leadsTo]

theorem SameShape.isFile_eq (h : SameShape t t') (p : Path) : t'.isFile p = t.isFile p := by
  simp only [isFile, find?, h.locate_eq]
  cases t.locate p with
  | error f => rfl
  | ok l =>
    rcases h.item l with e | ⟨c, c', e, e'⟩
    · simp only [e]
    · simp only [e, e']

/-- The tree in which the change is made, if its file can be written. -/
def make (t : FileTree) (c : FileChange) : FileTree := (t.write c.path c.after).toOption.getD t

theorem exists_make_eq (hr : t.read c.path = .ok x) : ∃ l, t.leadsTo c.path l ∧ t.textAt l = some x ∧
    t.make c = t.put l (.file (.text c.after)) := by
  obtain ⟨l, hl, hx⟩ := read_eq_ok_iff.1 hr
  exact ⟨l, leadsTo_iff.2 hl, hx, by rw [make, write_of_locate hl hx]; rfl⟩

theorem sameShape_make (hr : t.read c.path = .ok x) : SameShape t (t.make c) := by
  obtain ⟨l, -, hx, he⟩ := exists_make_eq hr
  exact he ▸ sameShape_put hx _

end FileTree

namespace Annotation

/-- The text of a file for several groups of targets, one after the other. -/
def rewriteAll (parse : Text → Index) (pos : Position) (groups : List (List Target)) (t : Text) : Text :=
  groups.foldl (fun t g => (rewrite parse pos g t).1) t

/-- The text without the blocks of the tags. -/
def unmark (tags : List Tag) (t : Text) : Text := tags.foldl (fun t tag => Block.removeAll tag t) t

/-- The tags that occur among targets, in the order in which they are handled. -/
def tagsOf (group : List Target) : List Tag := Tag.all.filter fun tag => group.any (·.tag = tag)

theorem tagsOf_subset (group : List Target) : tagsOf group ⊆ group.map (·.tag) := by
  intro tag h
  obtain ⟨target, hm, ht⟩ := List.any_eq_true.1 (List.mem_filter.1 h).2
  exact List.mem_map.2 ⟨target, hm, of_decide_eq_true ht⟩

end Annotation

namespace Annotator

open FileTree Annotation

variable {a : Annotator} {files files' : FileTree} {p : Path} {l : Location} {t x : Text}

theorem admits_eq (h : SameShape files files') (p : Path) : a.admits files' p = a.admits files p := by
  simp only [admits, h.isFile_eq, isWithinRoot, canonical, canonical?, h.locate_eq]

/-- The files stay, but for the one to which the path leads: it is changed by `f`. -/
structure Changes (files files' : FileTree) (p : Path) (f : Text → Text) : Prop where
  /-- The trees have the same shape. -/
  shape : SameShape files files'
  /-- The text of each file. -/
  text : ∀ {l t}, files.textAt l = some t →
    files'.textAt l = some (if files.leadsTo p l then f t else t)

/-- What an annotator that does not write makes of a change. -/
def unlessDry (a : Annotator) (f : Text → Text) (t : Text) : Text := if a.dryRun then t else f t

theorem read_ok_iff : read files p = .ok x ↔ files.read p = .ok x := by
  unfold read
  cases files.read p <;> simp [Except.mapError]

/-- The files once changes are made one after the other, unless the run is dry. -/
def made (a : Annotator) (files : FileTree) (changes : List FileChange) : FileTree :=
  if a.dryRun then files else changes.foldl FileTree.make files

theorem made_nil (a : Annotator) (files : FileTree) : a.made files [] = files := by
  unfold made
  split <;> rfl

/-- A change of a file that was read is made, if it is one. -/
theorem commit_eq (hr : read files p = .ok x) (y : Text) :
    a.commit files ⟨p, x, y⟩ = .ok (a.made files (if x = y then [] else [⟨p, x, y⟩])) := by
  obtain ⟨m, hm, hx⟩ := read_eq_ok_iff.1 (read_ok_iff.1 hr)
  have hw := write_of_locate hm hx y
  unfold commit made
  by_cases hxy : x = y
  · simp [hxy, FileChange.isNoop]
  · cases hd : a.dryRun with
    | true => simp
    | false => simp [hxy, FileChange.isNoop, make, hw, Except.mapError, Except.toOption]

theorem changes_made (a : Annotator) (hr : read files p = .ok x) (f : Text → Text) :
    Changes files (a.made files (if x = f x then [] else [⟨p, x, f x⟩])) p (a.unlessDry f) := by
  unfold made unlessDry
  have hread : files.read p = .ok x := read_ok_iff.1 hr
  by_cases h0 : a.dryRun = true ∨ x = f x
  · have hfiles : (if a.dryRun then files else (if x = f x then [] else [⟨p, x, f x⟩]).foldl make files) = files := by
      rcases h0 with hd | hx
      · rw [if_pos hd]
      · rw [if_pos hx, List.foldl_nil, ite_self]
    rw [hfiles]
    refine ⟨.refl files, fun {l t} ht => ?_⟩
    split
    · next hl =>
      cases hread.symm.trans (read_eq_ok_iff.2 ⟨l, leadsTo_iff.1 hl, ht⟩)
      rw [ht]
      split
      · rfl
      · next hd => rw [← h0.resolve_left hd]
    · exact ht
  · obtain ⟨hd, hx⟩ := not_or.1 h0
    obtain ⟨m, hm, htext, he⟩ := exists_make_eq (c := ⟨p, x, f x⟩) hread
    rw [if_neg hd, if_neg hx, List.foldl_cons, List.foldl_nil, he]
    refine ⟨sameShape_put htext _, fun {l t} ht => ?_⟩
    by_cases hl : l = m
    · subst hl
      cases ht.symm.trans htext
      rw [if_pos hm, textAt_put_self htext, if_neg hd]
    · have hne : ¬ files.leadsTo p l := fun h => hl (Except.ok.inj ((leadsTo_iff.1 h).symm.trans (leadsTo_iff.1 hm)))
      rw [if_neg hne, textAt_put_of_ne hl, ht]

theorem removeTags_eq (hr : read files p = .ok x) (tags : List Tag) :
    a.removeTags files p tags = .ok (if x = unmark tags x then none else some ⟨p, x, unmark tags x⟩,
      a.made files (if x = unmark tags x then [] else [⟨p, x, unmark tags x⟩])) := by
  have hc := commit_eq (a := a) hr (unmark tags x)
  simp only [unmark] at hc ⊢
  simp only [removeTags, hr, bind, Except.bind, hc, FileChange.isNoop, beq_iff_eq]
  rfl

/-- A handler of groups changes the file of a group that it can read, and fails on the others. -/
def Does (handle : FileTree → Path → List Target → Except Fault Run) (f : List Target → Text → Text) :
    Prop :=
  ∀ files p group,
    (∃ r, handle files p group = .ok r ∧ Changes files r.files p (f group)) ∨
    (∃ e, handle files p group = .error e) ∧ ∀ l, files.leadsTo p l → files.textAt l = none

/-- What cannot be read is no text. -/
theorem textAt_of_read_error {e : Fault} (hr : read files p = .error e) (hl : files.leadsTo p l) :
    files.textAt l = none := by
  cases ht : files.textAt l with
  | none => rfl
  | some t =>
    have h : files.read p = .ok t := read_eq_ok_iff.2 ⟨l, leadsTo_iff.1 hl, ht⟩
    rw [read, h] at hr
    cases hr

theorem applyGroup_does (a : Annotator) :
    Does a.applyGroup fun group => a.unlessDry fun t => (rewrite a.parse a.position group t).1 := by
  intro files p group
  cases hr : read files p with
  | error e =>
    refine .inr ⟨⟨e, ?_⟩, fun l => textAt_of_read_error hr⟩
    simp [applyGroup, hr, bind, Except.bind]
  | ok x =>
    have hch := a.changes_made hr fun t => (rewrite a.parse a.position group t).1
    generalize hfiles : a.made files _ = files' at hch
    obtain ⟨tally, he⟩ : ∃ tally, a.applyGroup files p group = .ok { tally := tally, files := files' } := by
      simp only [applyGroup, hr, bind, Except.bind, commit_eq hr, ← hfiles]
      exact ⟨_, rfl⟩
    exact .inl ⟨_, he, hch⟩

theorem removeGroup_does (a : Annotator) :
    Does a.removeGroup fun group => a.unlessDry (unmark (tagsOf group)) := by
  intro files p group
  cases hr : read files p with
  | error e =>
    refine .inr ⟨⟨e, ?_⟩, fun l => textAt_of_read_error hr⟩
    simp [removeGroup, removeTags, hr, bind, Except.bind]
  | ok x =>
    obtain ⟨r, he, hf⟩ : ∃ r, a.removeGroup files p group = .ok r ∧ r.files = a.made files
        (if x = unmark (tagsOf group) x then [] else [⟨p, x, unmark (tagsOf group) x⟩]) := by
      have hc := removeTags_eq (a := a) hr (tagsOf group)
      rw [tagsOf] at hc
      simp only [removeGroup, hc, bind, Except.bind]
      split <;> exact ⟨_, rfl, rfl⟩
    exact .inl ⟨r, he, hf ▸ a.changes_made hr (unmark (tagsOf group))⟩

/-- The targets of the groups whose path leads to the location, group by group. -/
def groupsAt (a : Annotator) (files : FileTree) (targets : List Target) (l : Location) :
    List (List Target) :=
  ((a.groups files targets).filter fun g => files.leadsTo g.1 l).map (·.2)

theorem subset_of_mem_groupsAt {targets group : List Target} (h : group ∈ a.groupsAt files targets l) :
    group ⊆ targets := by
  obtain ⟨g, hg, rfl⟩ := List.mem_map.1 h
  exact subset_of_mem_groups g (List.mem_filter.1 hg).1

/-- Going on with a run that may fail leaves the files or does what it does. -/
theorem files_extend (r : Run) (ids : List String) (next : FileTree → Except Fault Run) :
    (extend r ids next).files = match next r.files with
      | .ok s => s.files
      | .error _ => r.files := by
  cases h : next r.files <;> simp only [extend, h]

section

variable {handle : FileTree → Path → List Target → Except Fault Run} {f : List Target → Text → Text}

theorem Does.sameShape_foldl (hd : Does handle f) : ∀ (gs : List (Path × List Target)) (r : Run),
    SameShape r.files
      (gs.foldl (fun r g => extend r (g.2.map (·.identifier)) fun files => handle files g.1 g.2) r).files
  | [], r => .refl r.files
  | g :: gs, r => by
    have h : SameShape r.files
        (extend r (g.2.map (·.identifier)) fun files => handle files g.1 g.2).files := by
      rw [files_extend]
      rcases hd r.files g.1 g.2 with ⟨s, hs, hch⟩ | ⟨⟨e, he⟩, -⟩
      · rw [hs]
        exact hch.shape
      · rw [he]
        exact .refl r.files
    exact h.trans (hd.sameShape_foldl gs _)

/-- Over the groups of a run, a file is changed by those whose path leads to it. -/
theorem Does.textAt_foldl (hd : Does handle f) : ∀ (gs : List (Path × List Target)) (r : Run) {t : Text},
    r.files.textAt l = some t →
    (gs.foldl (fun r g => extend r (g.2.map (·.identifier)) fun files => handle files g.1 g.2) r).files.textAt l =
      some (((gs.filter fun g => r.files.leadsTo g.1 l).map (·.2)).foldl (fun t group => f group t) t)
  | [], _, _, ht => ht
  | g :: gs, r, t, ht => by
    rw [List.foldl_cons, List.filter_cons]
    rcases hd r.files g.1 g.2 with ⟨s, hs, hch⟩ | ⟨⟨e, he⟩, hn⟩
    · have hf : (extend r (g.2.map (·.identifier)) fun files => handle files g.1 g.2).files = s.files := by
        rw [files_extend, hs]
      rw [hd.textAt_foldl gs _ (by rw [hf]; exact hch.text ht), hf]
      simp only [hch.shape.leadsTo_eq]
      split <;> rfl
    · have hf : (extend r (g.2.map (·.identifier)) fun files => handle files g.1 g.2).files = r.files := by
        rw [files_extend, he]
      have hl : ¬ r.files.leadsTo g.1 l := fun h => by simp [hn l h] at ht
      rw [hd.textAt_foldl gs _ (by rw [hf]; exact ht), hf, if_neg hl]

theorem Does.sameShape_overGroups (hd : Does handle f) (files : FileTree) (targets : List Target) :
    SameShape files (a.overGroups handle files targets).files :=
  hd.sameShape_foldl (a.groups files targets) { tally := { skipped := a.refused files targets }, files := files }

theorem Does.textAt_overGroups (hd : Does handle f) (targets : List Target) (ht : files.textAt l = some t) :
    SameShape files (a.overGroups handle files targets).files ∧
      (a.overGroups handle files targets).files.textAt l =
        some ((a.groupsAt files targets l).foldl (fun t group => f group t) t) :=
  ⟨hd.sameShape_overGroups files targets,
    hd.textAt_foldl (a.groups files targets) { tally := { skipped := a.refused files targets }, files := files } ht⟩

end

/-- The groups that lead to a file rewrite it one after the other. -/
theorem textAt_applyAll (a : Annotator) (targets : List Target) (ht : files.textAt l = some t) :
    SameShape files (a.applyAll files targets).files ∧
      (a.applyAll files targets).files.textAt l = some ((a.groupsAt files targets l).foldl
        (fun t group => a.unlessDry (fun t => (rewrite a.parse a.position group t).1) t) t) :=
  (applyGroup_does a).textAt_overGroups targets ht

theorem textAt_applyAll_of_not_dryRun (hd : a.dryRun = false) (targets : List Target)
    (ht : files.textAt l = some t) : (a.applyAll files targets).files.textAt l =
      some (rewriteAll a.parse a.position (a.groupsAt files targets l) t) := by
  have h := (textAt_applyAll a targets ht).2
  simp only [unlessDry, hd, Bool.false_eq_true, if_false] at h
  exact h

/-- A removal takes the blocks of the tags of each group out of the file. -/
theorem textAt_removeAll (a : Annotator) (targets : List Target) (ht : files.textAt l = some t) :
    SameShape files (a.removeAll files targets).files ∧
      (a.removeAll files targets).files.textAt l = some ((a.groupsAt files targets l).foldl
        (fun t group => a.unlessDry (unmark (tagsOf group)) t) t) :=
  (removeGroup_does a).textAt_overGroups targets ht

theorem textAt_removeFromFile (a : Annotator) (tag : Tag) (r : Run) (p : Path)
    (ht : r.files.textAt l = some t) :
    SameShape r.files (a.removeFromFile tag r p).files ∧
      (a.removeFromFile tag r p).files.textAt l = some
        (if a.admits r.files p && r.files.leadsTo p l then a.unlessDry (Block.removeAll tag) t else t) := by
  unfold removeFromFile
  by_cases hp : a.admits r.files p
  · rw [if_pos hp]
    cases hr : read r.files p with
    | error e =>
      have hl : ¬ r.files.leadsTo p l := fun h => by simp [textAt_of_read_error hr h] at ht
      simp only [extend, removeTags, hr, bind, Except.bind, hp, hl, Bool.and_false]
      exact ⟨.refl _, ht⟩
    | ok x =>
      have hc := removeTags_eq (a := a) hr [tag]
      have hch := a.changes_made hr (unmark [tag])
      simp only [hp, Bool.true_and]
      by_cases hx : x = unmark [tag] x
      · rw [if_pos hx] at hch
        rw [if_pos hx, if_pos hx] at hc
        simp only [extend, hc, bind, Except.bind]
        exact ⟨hch.shape, hch.text ht⟩
      · rw [if_neg hx] at hch
        rw [if_neg hx, if_neg hx] at hc
        simp only [extend, hc, bind, Except.bind]
        exact ⟨hch.shape, hch.text ht⟩
  · rw [if_neg hp]
    simp only [hp, Bool.false_and]
    exact ⟨.refl _, ht⟩

/-- A removal from files takes the blocks of the tag out once for each path that leads to the file. -/
theorem textAt_removeFrom (a : Annotator) (tag : Tag) : ∀ (paths : List Path) (r : Run) {t : Text},
    r.files.textAt l = some t →
    SameShape r.files (paths.foldl (a.removeFromFile tag) r).files ∧
      (paths.foldl (a.removeFromFile tag) r).files.textAt l =
        some ((paths.filter fun p => a.admits r.files p && r.files.leadsTo p l).foldl
          (fun t _ => a.unlessDry (Block.removeAll tag) t) t)
  | [], _, _, ht => ⟨.refl _, ht⟩
  | p :: paths, r, t, ht => by
    obtain ⟨hs, hx⟩ := textAt_removeFromFile a tag r p ht
    obtain ⟨hs', hx'⟩ := textAt_removeFrom a tag paths (a.removeFromFile tag r p) hx
    refine ⟨hs.trans hs', ?_⟩
    simp only [admits_eq hs, hs.leadsTo_eq] at hx'
    rw [List.foldl_cons, hx', List.filter_cons]
    split <;> rfl

end Annotator

/-! ### Histories -/

/-- A run over files as a step of a history. -/
inductive Step where
  /-- The annotations of targets are put into their files. -/
  | apply (a : Annotator) (targets : List Target)
  /-- The blocks of the targets' tags are taken out of their files. -/
  | remove (a : Annotator) (targets : List Target)
  /-- The blocks of a tag are taken out of files. -/
  | removeFrom (a : Annotator) (paths : List Path) (tag : Tag)

namespace Step

/-- The files after a step. -/
def run (files : FileTree) : Step → FileTree
  | apply a targets => (a.applyAll files targets).files
  | remove a targets => (a.removeAll files targets).files
  | removeFrom a paths tag => (a.removeFrom files paths tag).files

/-- The files after several steps. -/
def runAll (files : FileTree) (steps : List Step) : FileTree := steps.foldl run files

/-- The tags that a step handles. -/
def tags : Step → List Tag
  | apply _ targets => targets.map (·.tag)
  | remove _ targets => targets.map (·.tag)
  | removeFrom _ _ tag => [tag]

theorem runAll_append (files : FileTree) (steps : List Step) (s : Step) :
    runAll files (steps ++ [s]) = s.run (runAll files steps) := List.foldl_append

/-! ### The file of the users -/

/-- A target in the file of the users. -/
def userTarget (identifier : String) (anchor : Anchor) (tag : Tag) (payload : String) : Target where
  identifier := identifier
  file := some ⟨"user.rb".toList⟩
  anchor := anchor
  tag := tag
  payload := payload.toList

/-- An annotator of Ruby files. -/
def rubyAnnotator (pos : Position) : Annotator where
  root := ⟨"/".toList⟩
  position := pos
  parse := Index.ofSource

end Step
end Marginalia
