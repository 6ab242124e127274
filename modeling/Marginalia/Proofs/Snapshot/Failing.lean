/-
# Models whose columns could not be had

A model without columns has no comment and so no target. When a snapshot is put
into the files a second time, and some of its models have lost their columns,
the files stay exactly if no file holds both a model that has lost them and one
that has not (`Annotator.annotate_failing_iff`); otherwise the block of a lost
model goes when the others are put in anew (`Annotator.failing_model_loses_block`).

Key definitions: `Schema.Snapshot.failing`, `Annotator.NamesSteady`.
Key theorems: `Schema.Snapshot.comment_failing`, `Schema.Snapshot.production_failing`,
`Annotator.declaredNames_applyAll`, `Annotator.annotate_failing_iff`.
-/
import Marginalia.Proofs.Annotation.Accounting
import Marginalia.Proofs.Annotation.Dropout
import Marginalia.Proofs.Source.Resolving

namespace Marginalia

open Text FileTree

namespace Schema

/-- The model without its columns, if there is a cause for that. -/
def Model.failing (cause? : String → Option String) (m : Model) : Model :=
  match cause? m.entity.name with
  | some cause => { m with columns := .failed cause }
  | none => m

variable {options : Options} {cause? : String → Option String} {s : Snapshot} {e : Entity} {m : Model} {payload : Text}
  {parse : Text → Index} {files files' : FileTree} {r : Resolver} {targets : List Target}

theorem Model.entity_failing (cause? : String → Option String) (m : Model) : (m.failing cause?).entity = m.entity := by
  unfold failing
  split <;> rfl

/-- A comment has a title. -/
theorem not_all_isBlank_of_comment (h : comment options e m = .ok payload) : ¬ payload.all isBlank := by
  unfold comment at h
  cases hc : m.columns.get e.name "columns" with
  | error f =>
    rw [hc] at h
    cases h
  | ok columns =>
    rw [hc] at h
    cases h
    intro hall
    rw [List.all_eq_true] at hall
    exact absurd (hall '=' (List.mem_of_mem_head? rfl)) (by decide)

namespace Snapshot

/-- The snapshot in which the models of some names have lost their columns. -/
def failing (cause? : String → Option String) (s : Snapshot) : Snapshot where
  models := s.models.map (·.failing cause?)

theorem find?_failing (cause? : String → Option String) (s : Snapshot) (name : String) :
    (s.failing cause?).find? name = (s.find? name).map (·.failing cause?) := by
  rw [find?, failing, List.find?_map, find?]
  simp only [Function.comp_def, Model.entity_failing]

/-- A model has the comment that it had, or fails. -/
theorem comment_failing (cause? : String → Option String) (h : s.comment options e = .ok payload) :
    (s.failing cause?).comment options e =
      match cause? e.name with
      | some cause => .error (.unavailable e.name "columns" cause)
      | none => .ok payload := by
  unfold comment at h ⊢
  rw [find?_failing]
  cases hm : s.find? e.name with
  | none =>
    rw [hm] at h
    cases h
  | some m =>
    have hname : m.entity.name = e.name := by simpa using List.find?_some hm
    rw [hm] at h
    simp only [Option.map_some, Model.failing, hname]
    cases cause? e.name with
    | none => exact h
    | some cause => rfl

/-- The class of a model with its comment. -/
def subject (options : Options) (s : Snapshot) (m : Model) : Subject where
  name := m.entity.name
  sourceFile := m.entity.sourceFile
  comment := s.comment options m.entity

theorem production_eq (hr : r.UpToDate parse files) : s.production parse files r options =
    s.models.map fun m => (s.comment options m.entity).map ((s.subject options m).target parse files .schema r) := by
  have h := classTargets_eq .schema (s.models.map (s.subject options)) hr
  rwa [List.map_map] at h

/-- What the models of a snapshot give, where all of them are rendered. -/
theorem forall₂_production (hr : r.UpToDate parse files) (hs : s.production parse files r options = targets.map .ok) :
    List.Forall₂ (fun m x => ∃ payload, s.comment options m.entity = .ok payload ∧
      x = (s.subject options m).target parse files .schema r payload) s.models targets := by
  rw [production_eq hr, ← List.forall₂_eq_eq_eq, List.forall₂_map_left_iff, List.forall₂_map_right_iff] at hs
  refine hs.imp fun m x hx => ?_
  cases hc : s.comment options m.entity with
  | error f =>
    rw [hc] at hx
    cases hx
  | ok payload =>
    rw [hc] at hx
    exact ⟨payload, rfl, (Except.ok.inj hx).symm⟩

/-- The target of a model, or the fault that it has lost its columns. -/
def lostOr (cause? : String → Option String) (x : Target) : Production :=
  match cause? x.identifier with
  | some cause => .error (.unavailable x.identifier "columns" cause)
  | none => .ok x

theorem toOption_lostOr (cause? : String → Option String) (x : Target) :
    (lostOr cause? x).toOption = Option.guard (fun x : Target => (cause? x.identifier).isNone) x := by
  unfold lostOr Option.guard
  split <;> next h => simp [h, Except.toOption]

theorem failure?_lostOr (cause? : String → Option String) (x : Target) :
    Production.failure? .schema (lostOr cause? x) =
      (cause? x.identifier).map fun cause => ⟨x.identifier, "columns unavailable: " ++ cause⟩ := by
  unfold lostOr
  split <;> next h => rw [h]; rfl

/-- The models that have lost their columns fail, and the others give the targets that they gave. -/
theorem production_failing (cause? : String → Option String) (hr : r.UpToDate parse files) (hr' : r.UpToDate parse files')
    (hplace : ∀ name known, r.place? parse files' name known = r.place? parse files name known)
    (hs : s.production parse files r options = targets.map .ok) :
    (s.failing cause?).production parse files' r options = targets.map (lostOr cause?) := by
  rw [production_eq hr', failing, List.map_map, ← List.forall₂_eq_eq_eq, List.forall₂_map_left_iff,
    List.forall₂_map_right_iff]
  refine (forall₂_production hr hs).imp fun m x ⟨payload, hc, hx⟩ => ?_
  have hcomment := comment_failing cause? hc
  have hid : x.identifier = m.entity.name := congrArg Target.identifier hx
  rw [failing] at hcomment
  rw [Function.comp_apply, Model.entity_failing, lostOr, hid, hcomment]
  cases cause? m.entity.name with
  | some cause => rfl
  | none =>
    rw [hx]
    simp only [Except.map, Subject.target, subject, Model.entity_failing, hplace]

/-- The target of a model stands at its class and says something. -/
theorem target_of_production (hr : r.UpToDate parse files)
    (hs : s.production parse files r options = targets.map .ok) :
    ∀ x ∈ targets, x.tag = .schema ∧ x.pattern? = none ∧ x.block ≠ [] := by
  intro x hx
  obtain ⟨i, hi, rfl⟩ := List.getElem_of_mem hx
  have hf := forall₂_production hr hs
  obtain ⟨payload, hc, he⟩ := hf.get (hf.length_eq ▸ hi) hi
  rw [List.get_eq_getElem] at he
  rw [he]
  refine ⟨rfl, rfl, fun h0 => ?_⟩
  unfold comment at hc
  split at hc
  · exact not_all_isBlank_of_comment hc (Target.block_eq_nil_iff.1 h0)
  · cases hc

end Snapshot
end Schema

namespace Annotator

open Annotation

variable {a : Annotator} {files : FileTree} {tag : Tag} {r : Resolver} {targets : List Target}

theorem files_annotate (a : Annotator) (files : FileTree) (tag : Tag) (ps : List Production) :
    (a.annotate files tag ps).files = (a.applyAll files (ps.filterMap Except.toOption)).files := rfl

/-- Adding and deleting notes does not change which names are declared. -/
def NamesSteady (parse : Text → Index) (t : Text) : Prop :=
  ∀ u, codeLines u = codeLines t → Resolver.declaredNames (parse u) = Resolver.declaredNames (parse t)

theorem namesSteady_ofCode (t : Text) : NamesSteady Index.ofCode t := by
  intro u hu
  have hnames (x : Text) : Resolver.declaredNames (Index.ofCode x) =
      (((Index.ofSource (paragraph (codeLines x))).classes.filter fun d =>
          0 < d.line ∧ d.endLine ≤ (codeLines x).length) ++
        (Index.ofSource (paragraph (codeLines x))).modules).map (·.fullName) := by
    simp only [Resolver.declaredNames, Index.ofCode, List.map_append, List.map_map]
    rfl
  rw [hnames, hnames, hu]

/-- What is declared in a file stays when targets at classes are put into it. -/
theorem declaredNames_applyAll (hd : a.dryRun = false) (ht : ∀ x ∈ targets, x.tag = tag) (hg : AtClasses targets)
    (hone : OnePath files targets) (hr : Prepared a files tag targets)
    (hn : ∀ x ∈ targets, ∀ p ∈ a.admitted? files x, ∀ t, files.read p = .ok t → NamesSteady a.parse t) (p : Path) :
    Resolver.declaredNames (Resolver.indexOf a.parse (a.applyAll files targets).files p) =
      Resolver.declaredNames (Resolver.indexOf a.parse files p) := by
  have hlayout : SameLayout files (a.applyAll files targets).files := Step.sameLayout_run files (.apply a targets)
  simp only [Resolver.indexOf]
  cases hread : files.read p with
  | error f =>
    cases hread' : (a.applyAll files targets).files.read p with
    | error f' => rfl
    | ok u =>
      obtain ⟨l, hl, hu⟩ := read_eq_ok_iff.1 hread'
      cases ht : files.textAt l with
      | none =>
        rw [hlayout.textAt_eq_none_iff.2 ht] at hu
        cases hu
      | some t =>
        rw [read_eq_ok_iff.2 ⟨l, hlayout.sameShape.locate_eq p ▸ hl, ht⟩] at hread
        cases hread
  | ok t =>
    obtain ⟨l, hl, htext⟩ := read_eq_ok_iff.1 hread
    rw [read_eq_ok_iff.2 ⟨l, by rw [hlayout.sameShape.locate_eq, hl], textAt_applyAll_eq hd hone htext⟩]
    rcases List.eq_nil_or_concat (a.targetsAt files targets l) with h0 | ⟨xs, x, hx⟩
    · rw [h0, rewrite_eq_self (.inl rfl)]
    · have hx : x ∈ a.targetsAt files targets l := by simp [hx]
      have hsub : a.targetsAt files targets l ⊆ targets := fun y hy => (List.mem_filter.1 hy).1
      obtain ⟨u, hu, htidy, -⟩ := hr.text hx
      obtain rfl : u = t := Option.some.inj (hu.symm.trans htext)
      obtain ⟨hxt, q, hq, hql⟩ := mem_targetsAt.1 hx
      exact hn x hxt q hq u (read_eq_ok_iff.2 ⟨l, leadsTo_iff.1 hql, hu⟩) _
        (htidy.codeLines_rewrite a.position (hg.of_subset hsub) fun y hy => ht y (hsub hy))

/-- When the models are put into the files once more and some of them have lost their columns, the files stay
exactly if no file has both models that have lost them and models that have not. If so, those that have lost
them fail, and the others are skipped. -/
theorem annotate_failing_iff {options : Schema.Options} {s : Schema.Snapshot} (cause? : String → Option String)
    (hd : a.dryRun = false) (hup : r.UpToDate a.parse files)
    (hs : s.production a.parse files r options = targets.map .ok)
    (hu : ∀ x ∈ targets, x.Unmarked ∧ x.Plain) (hone : OnePath files targets) (hr : Prepared a files .schema targets)
    (hn : ∀ x ∈ targets, ∀ p ∈ a.admitted? files x, ∀ t, files.read p = .ok t → NamesSteady a.parse t) :
    let first := a.annotate files .schema (s.production a.parse files r options)
    let second := a.annotate first.files .schema ((s.failing cause?).production a.parse first.files r options)
    let together := a.Undivided files targets fun x => (cause? x.identifier).isNone
    (second.files = first.files ↔ together) ∧
      (together → second.tally.succeeded = [] ∧ second.tally.changes = [] ∧
        second.tally.failed = targets.filterMap (fun x =>
          (cause? x.identifier).map fun cause => ⟨x.identifier, "columns unavailable: " ++ cause⟩) ∧
        second.tally.skipped.Perm
          ((targets.filter fun x => (cause? x.identifier).isNone).map (·.identifier))) := by
  intro first second together
  have hx := Schema.Snapshot.target_of_production hup hs
  have ht : ∀ x ∈ targets, x.tag = .schema := fun x hm => (hx x hm).1
  have hg : AtClasses targets := ⟨fun x hm => (hx x hm).2.1, fun x hm => (hu x hm).1, fun x hm => (hu x hm).2⟩
  have hfirst : first.files = (a.applyAll files targets).files := by
    rw [files_annotate, hs, List.filterMap_map]
    rw [show (Except.toOption ∘ Except.ok : Target → Option Target) = some from rfl, List.filterMap_some]
  have hlayout : SameLayout files (a.applyAll files targets).files := Step.sameLayout_run files (.apply a targets)
  have hnames := declaredNames_applyAll hd ht hg hone hr hn
  have hprod := Schema.Snapshot.production_failing cause? hup (hup.of_sameLayout hlayout hnames)
    (Resolver.place?_eq hlayout hnames) hs
  have htargets : ((s.failing cause?).production a.parse first.files r options).filterMap Except.toOption =
      targets.filter fun x => (cause? x.identifier).isNone := by
    rw [hfirst, hprod, List.filterMap_map, ← List.filterMap_eq_filter]
    exact List.filterMap_congr fun x _ => Schema.Snapshot.toOption_lostOr cause? x
  have hfaults : ((s.failing cause?).production a.parse first.files r options).filterMap
      (Production.failure? .schema) = targets.filterMap fun x =>
        (cause? x.identifier).map fun cause => ⟨x.identifier, "columns unavailable: " ++ cause⟩ := by
    rw [hfirst, hprod, List.filterMap_map]
    exact List.filterMap_congr fun x _ => Schema.Snapshot.failure?_lostOr cause? x
  have hsecond : second.files = (a.applyAll first.files
      (targets.filter fun x => (cause? x.identifier).isNone)).files := by
    rw [← htargets, files_annotate]
  have htally : second.tally = _ := tally_annotate a first.files .schema _
  rw [htargets, hfaults] at htally
  refine ⟨⟨fun hf => undivided_of_files_eq hd ht hg hone hr (fun x hm => (hx x hm).2.2) ?_, fun h => ?_⟩, fun h => ?_⟩
  · rw [← hfirst, ← hsecond, hf]
  · obtain ⟨ids, -, hrun⟩ := applyAll_filter hd ht hg hone hr h
    rw [hsecond, hfirst, hrun]
  · obtain ⟨ids, hids, hrun⟩ := applyAll_filter hd ht hg hone hr h
    rw [hfirst, hrun] at htally
    rw [htally]
    exact ⟨rfl, rfl, rfl, by simpa [Tally.append] using hids⟩

/-- A run with one group leaves what is committed for it. -/
theorem files_applyAll_of_group {p : Path} {group : List Target} {t t' : Text} {files' : FileTree}
    (hg : a.groups files targets = [(p, group)]) (hr : files.read p = .ok t)
    (ht : (rewrite a.parse a.position group t).1 = t') (hc : a.commit files ⟨p, t, t'⟩ = .ok files') :
    (a.applyAll files targets).files = files' := by
  have hread : read files p = .ok t := by
    rw [read, hr]
    rfl
  rw [applyAll, overGroups, hg, List.foldl_cons, List.foldl_nil, extend, applyGroup, hread]
  simp only [bind, Except.bind, ht, hc]
  rfl

/-! ### Two models in one file -/

/-- A model whose class is in the file of the users. -/
def usersModel (name table column : String) : Schema.Model where
  entity := { name := name, table := table, sourceFile := some "user.rb" }
  columns := .items [{ name := column, type := "integer" }]

/-- Two models of one file. -/
def pairSnapshot : Schema.Snapshot where
  models := [usersModel "Role" "roles" "id", usersModel "User" "users" "id"]

/-- Their classes. -/
def pairFile : Text := "class User\nend\nclass Role\nend\n".toList

/-- Finds recorded files. -/
def pairResolver : Resolver where
  root := ⟨".".toList⟩
  folders := []

/-- The annotation of a model. -/
def pairTarget (name table : String) : Target where
  identifier := name
  file := some ⟨"./user.rb".toList⟩
  anchor := .declaration name
  tag := .schema
  payload := "== Schema Information\n\nTable name: ".toList ++ table.toList ++ "\n\n id :integer".toList

/-- The annotations of both models. -/
def pairTargets : List Target := [pairTarget "Role" "roles", pairTarget "User" "users"]

/-- The file with the annotations. -/
def pairAnnotated : Text :=
  "# --- BEGIN annotate:schema ---\n# == Schema Information\n#\n# Table name: users\n#\n#  id :integer\n".toList ++
    "# --- END annotate:schema ---\nclass User\nend\n# --- BEGIN annotate:schema ---\n".toList ++
    "# == Schema Information\n#\n# Table name: roles\n#\n#  id :integer\n# --- END annotate:schema ---\n".toList ++
    "class Role\nend\n".toList

/-- The file with the annotation of one model. -/
def pairHalved : Text :=
  "# --- BEGIN annotate:schema ---\n# == Schema Information\n#\n# Table name: users\n#\n#  id :integer\n".toList ++
    "# --- END annotate:schema ---\nclass User\nend\nclass Role\nend\n".toList

/-- The second model has lost its columns. -/
def roleLost (name : String) : Option String := if name = "Role" then some "gone" else none

theorem oneTag_pairTargets : OneTag .schema pairTargets :=
  ⟨by decide, .inl (by decide), by decide, fun x hx =>
    x.plain_of_not_mem ((by decide : ∀ x ∈ pairTargets, '\r' ∉ x.payload) x hx)⟩

theorem rewrite_pairFile : (rewrite Index.ofSource .before pairTargets pairFile).1 = pairAnnotated := by
  have hsorted : batch Index.ofSource .before .schema pairTargets pairFile = Placement.resolved (Index.ofSource pairFile)
      ((atClasses .schema pairTargets).map fun p => { name := p.2, block := p.1.block }) :=
    Placement.bottomUp_of_pairwise (by decide)
  rw [rewrite_of_fresh oneTag_pairTargets (by decide) (by decide), hsorted]
  -- the texts are spelled out, as a literal is decoded anew wherever it is compared
  unfold pairTargets pairTarget pairFile pairAnnotated
  repeat rewrite [String.toList_ofList]
  decide +kernel

theorem rewrite_pairAnnotated :
    (rewrite Index.ofSource .before [pairTarget "User" "users"] pairAnnotated).1 = pairHalved := by
  unfold pairTarget pairAnnotated pairHalved
  repeat rewrite [String.toList_ofList]
  decide +kernel

/-- The file of the users with a text in it. -/
def pairFiles (t : Text) : FileTree := FileTree.single "user.rb".toList t

theorem read_pairFiles (t : Text) : (pairFiles t).read ⟨"./user.rb".toList⟩ = .ok t := by
  unfold pairFiles
  repeat rewrite [String.toList_ofList]
  rfl

theorem commit_pairFiles {t t' : Text} (h : t ≠ t') :
    (Step.rubyAnnotator .before).commit (pairFiles t) ⟨⟨"./user.rb".toList⟩, t, t'⟩ = .ok (pairFiles t') := by
  have hwrites : ¬((⟨⟨"./user.rb".toList⟩, t, t'⟩ : FileChange).isNoop || (Step.rubyAnnotator .before).dryRun) := by
    simpa [FileChange.isNoop, Step.rubyAnnotator] using h
  rw [commit, if_neg hwrites]
  unfold pairFiles
  repeat rewrite [String.toList_ofList]
  rfl

theorem groups_pairFiles (t : Text) : (Step.rubyAnnotator .before).groups (pairFiles t) pairTargets =
    [(⟨"./user.rb".toList⟩, pairTargets)] := by
  unfold pairFiles pairTargets pairTarget
  repeat rewrite [String.toList_ofList]
  rfl

theorem files_applyAll_pairFile :
    ((Step.rubyAnnotator .before).applyAll (pairFiles pairFile) pairTargets).files = pairFiles pairAnnotated :=
  files_applyAll_of_group (groups_pairFiles _) (read_pairFiles _) rewrite_pairFile (commit_pairFiles (by decide))

theorem files_applyAll_pairAnnotated :
    ((Step.rubyAnnotator .before).applyAll (pairFiles pairAnnotated) [pairTarget "User" "users"]).files =
      pairFiles pairHalved := by
  have hg : (Step.rubyAnnotator .before).groups (pairFiles pairAnnotated) [pairTarget "User" "users"] =
      [(⟨"./user.rb".toList⟩, [pairTarget "User" "users"])] := by
    unfold pairFiles pairTarget
    repeat rewrite [String.toList_ofList]
    rfl
  have hne : pairAnnotated ≠ pairHalved := by
    unfold pairAnnotated pairHalved
    repeat rewrite [String.toList_ofList]
    decide
  exact files_applyAll_of_group hg (read_pairFiles _) rewrite_pairAnnotated (commit_pairFiles hne)

/-- When one of two models of a file has lost its columns, its annotation goes when the other is put in once more. -/
theorem failing_model_loses_block :
    let a := Step.rubyAnnotator .before
    let first := a.annotate (pairFiles pairFile) .schema
      (pairSnapshot.production a.parse (pairFiles pairFile) pairResolver {})
    let second := a.annotate first.files .schema
      ((pairSnapshot.failing roleLost).production a.parse first.files pairResolver {})
    pairSnapshot.production a.parse (pairFiles pairFile) pairResolver {} = pairTargets.map .ok ∧
      (∀ x ∈ pairTargets, x.isFound a.parse pairFile) ∧
      first.files = pairFiles pairAnnotated ∧ second.files = pairFiles pairHalved ∧ second.files ≠ first.files := by
  intro a first second
  have hprod : pairSnapshot.production a.parse (pairFiles pairFile) pairResolver {} = pairTargets.map .ok := by
    decide
  have hok : (pairTargets.map .ok : List Production).filterMap Except.toOption = pairTargets := rfl
  have hfirst : first.files = pairFiles pairAnnotated := by
    rw [files_annotate, hprod, hok, files_applyAll_pairFile]
  have hlost : ((pairSnapshot.failing roleLost).production a.parse (pairFiles pairAnnotated)
      pairResolver {}).filterMap Except.toOption = [pairTarget "User" "users"] := by
    unfold pairAnnotated
    repeat rewrite [String.toList_ofList]
    decide
  have hsecond : second.files = pairFiles pairHalved := by
    rw [files_annotate, hfirst, hlost, files_applyAll_pairAnnotated]
  refine ⟨hprod, by decide, hfirst, hsecond, ?_⟩
  rw [hfirst, hsecond]
  unfold pairHalved pairAnnotated
  repeat rewrite [String.toList_ofList]
  decide

theorem annotate_failing_iff_pair :
    let a := { Step.rubyAnnotator .before with parse := Index.ofCode }
    let files := pairFiles pairFile
    (Index.ofCode pairFile).classes = (Index.ofSource pairFile).classes ∧
      a.dryRun = false ∧ pairResolver.UpToDate a.parse files ∧
      pairSnapshot.production a.parse files pairResolver {} = pairTargets.map .ok ∧
      (∀ x ∈ pairTargets, x.Unmarked ∧ x.Plain) ∧ OnePath files pairTargets ∧ Prepared a files .schema pairTargets ∧
      (∀ x ∈ pairTargets, ∀ p ∈ a.admitted? files x, ∀ t, files.read p = .ok t → NamesSteady a.parse t) ∧
      let first := a.annotate files .schema (pairSnapshot.production a.parse files pairResolver {})
      let second := a.annotate first.files .schema
        ((pairSnapshot.failing roleLost).production a.parse first.files pairResolver {})
      let together := a.Undivided files pairTargets fun x => (roleLost x.identifier).isNone
      (second.files = first.files ↔ together) ∧
        (together → second.tally.succeeded = [] ∧ second.tally.changes = [] ∧
          second.tally.failed = pairTargets.filterMap (fun x =>
            (roleLost x.identifier).map fun cause => ⟨x.identifier, "columns unavailable: " ++ cause⟩) ∧
          second.tally.skipped.Perm
            ((pairTargets.filter fun x => (roleLost x.identifier).isNone).map (·.identifier))) := by
  intro a files
  have hup : pairResolver.UpToDate a.parse files := fun _ h => by cases h
  have hs : pairSnapshot.production a.parse files pairResolver {} = pairTargets.map .ok := by decide
  have hu : ∀ x ∈ pairTargets, x.Unmarked ∧ x.Plain :=
    fun x hx => ⟨oneTag_pairTargets.unmarked x hx, oneTag_pairTargets.plain x hx⟩
  have hfile : ∀ x ∈ pairTargets, x.file = some ⟨"./user.rb".toList⟩ := by decide
  have hone : OnePath files pairTargets := by
    intro x hx y hy p hp q hq _ _ _
    rw [hfile x hx] at hp
    rw [hfile y hy] at hq
    cases hp
    cases hq
    decide
  have hr : Prepared a files .schema pairTargets := by
    intro x hx p hp
    have hp := file_of_admitted? hp
    rw [hfile x hx] at hp
    cases hp
    have hfound : ∀ x ∈ pairTargets, x.isFound a.parse pairFile := by decide
    have hm : WellMarked pairFile := by decide
    have hnotes : ∀ tag ∈ Tag.all, ∀ ls ∈ blocks tag pairFile, ∀ l ∈ ls, isNote l = true := by decide
    exact ⟨pairFile, read_pairFiles _, ⟨hm, fun tag => hnotes tag (by cases tag <;> decide), Index.steady_ofCode _⟩,
      fun _ => by decide, hfound x hx⟩
  have hn : ∀ x ∈ pairTargets, ∀ p ∈ a.admitted? files x, ∀ t, files.read p = .ok t → NamesSteady a.parse t :=
    fun _ _ _ _ t _ => namesSteady_ofCode t
  exact ⟨by decide, rfl, hup, hs, hu, hone, hr, hn, annotate_failing_iff roleLost rfl hup hs hu hone hr hn⟩

end Annotator
end Marginalia
