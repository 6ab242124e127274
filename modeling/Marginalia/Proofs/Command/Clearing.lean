/-
# Taking out what the commands put in

The commands that annotate are steps of a history: each is a run over the
targets of its snapshot, or leaves the files as they are. The removal of all
tags looks, for each tag, into the files that the settings name for it. A file
into which the commands put blocks is rid of them exactly if, for each tag of
which it holds a block, one of these files is the file itself and may be
touched (`Command.cleared_iff_reached`). A recorded file need not be one of them
(`Command.recorded_file_keeps_block`).

Key definitions: `Command.filesAfter`, `Command.Requests`, `Command.annotated`, `Command.history`,
`Command.cleared`, `Command.Reaches`.
Key theorems: `Command.annotated_eq`, `Command.keeps_cleared`, `Command.cleared_iff_reached`.
-/
import Marginalia.Command.Basic
import Marginalia.Proofs.Annotation.Jobs
import Marginalia.Proofs.Annotation.Preservation
import Marginalia.Proofs.Annotation.Repetition

namespace Marginalia

open Text FileTree

namespace Text

variable {tag : Tag} {t : Text}

/-- A well-marked text holds no block of a tag if none of its parts is one. -/
theorem WellMarked.isIn_eq_false_iff (h : WellMarked t) : Block.isIn tag t = false ↔ blocks tag t = [] := by
  rw [← Bool.not_eq_true, h.hasParts.isIn_iff, blocks, List.filterMap_eq_nil_iff]
  simp [Part.Avoids]

/-- However often the blocks of a tag are taken out, it is the first time that counts. -/
theorem blocks_foldl_removeAll {α : Type} : ∀ {xs : List α} {t : Text}, WellMarked t →
    blocks tag (xs.foldl (fun t _ => Block.removeAll tag t) t) = if xs = [] then blocks tag t else []
  | [], _, _ => rfl
  | _ :: _, _, h => by
    rw [List.foldl_cons, blocks_foldl_removeAll (keeps_removeAll h tag).1, blocks_removeAll h tag, ite_self,
      if_neg (List.cons_ne_nil _ _)]

end Text

namespace Command

/-- The files as a command leaves them. One that ends early leaves them as they are. -/
def filesAfter (files : FileTree) : Except CommandFault CommandRun → FileTree
  | .ok r => r.files
  | .error _ => files

/-- What the commands that annotate are asked for. -/
structure Requests where
  /-- The snapshot of the tables, if it is not the one of the settings. -/
  schemaSnapshot : Option Path := none
  /-- The snapshot of the mailers, if it is not the one of the settings. -/
  mailerSnapshot : Option Path := none
  /-- The snapshot of the routes, if it is not the one of the settings. -/
  routesSnapshot : Option Path := none
  /-- The routes file, if it is not the one of the settings. -/
  routesFile : Option Path := none

variable {files files' : FileTree} {s : Settings} {q : Requests} {json : Bool} {a : Annotator} {l : Location}
  {t : Text} {tag : Tag} {tags : List Tag}

/-! ### Annotation -/

/-- The files once the models, the mailers and the routes were annotated. -/
def annotated (files : FileTree) (s : Settings) (json : Bool) (q : Requests) : FileTree :=
  let files := filesAfter files (models files s json q.schemaSnapshot)
  let files := filesAfter files (mailers files s json q.mailerSnapshot)
  filesAfter files (routes files s json q.routesSnapshot q.routesFile)

/-- The run that annotates what a snapshot gives, if there is one. -/
def stepsOf (s : Settings) (productions : Except CommandFault (List Production)) : List Step :=
  match productions.toOption, (annotator s).toOption with
  | some ps, some a => [.apply a (ps.filterMap Except.toOption)]
  | _, _ => []

/-- The runs of the commands that annotate. Each reads its snapshot from the files as the runs before
it leave them. -/
@[irreducible]
def history (files : FileTree) (s : Settings) (q : Requests) : List Step :=
  let first := stepsOf s (modelProductions files s q.schemaSnapshot)
  let second := stepsOf s (mailerProductions (Step.runAll files first) s q.mailerSnapshot)
  let third := stepsOf s
    (routesProductions (Step.runAll files (first ++ second)) s q.routesSnapshot q.routesFile)
  first ++ second ++ third

theorem filesAfter_annotating (ps : Except CommandFault (List Production)) :
    filesAfter files (annotating files s json tag ps) = Step.runAll files (stepsOf s ps) := by
  unfold annotating stepsOf
  cases ps with
  | error f => rfl
  | ok ps => cases annotator s <;> rfl

/-- The commands that annotate do what their runs do. -/
theorem annotated_eq (json : Bool) : annotated files s json q = Step.runAll files (history files s q) := by
  have happ (files : FileTree) (xs ys : List Step) :
      Step.runAll files (xs ++ ys) = Step.runAll (Step.runAll files xs) ys := List.foldl_append
  simp only [annotated, history, models, mailers, routes, filesAfter_annotating, happ]

/-! ### Removal -/

/-- The files once the blocks of the tags were taken out of those that may hold them. -/
def cleared (a : Annotator) (s : Settings) (files : FileTree) (tags : List Tag) : FileTree :=
  (tags.foldl (removeTag a s) { files := files }).files

/-- One of the files that may hold blocks of the tag is the one at the location, and may be
touched. -/
def Reaches (a : Annotator) (s : Settings) (files : FileTree) (l : Location) (tag : Tag) : Prop :=
  ∃ p ∈ candidates files s tag, a.admits files p ∧ files.leadsTo p l

/-- Which files are looked into does not depend on what files hold. -/
theorem reaches_iff (h : SameLayout files files') : Reaches a s files' l tag ↔ Reaches a s files l tag := by
  have hc : candidates files' s tag = candidates files s tag := by
    cases tag with
    | schema => exact h.sourceFiles_eq s.modelPaths
    | routes => rfl
    | mailer => exact h.sourceFiles_eq s.mailerPaths
  simp only [Reaches, hc, Annotator.admits_eq h.sameShape, h.sameShape.leadsTo_eq]

theorem cleared_cons : cleared a s files (tag :: tags) = cleared a s (cleared a s files [tag]) tags := by
  have (r r' : Run) (h : r.files = r'.files) :
      (tags.foldl (removeTag a s) r).files = (tags.foldl (removeTag a s) r').files := by
    induction tags generalizing r r' with
    | nil => exact h
    | cons tag tags ih => exact ih _ _ (by simp only [removeTag, h])
  exact this _ _ rfl

/-- Taking out one tag takes it out of the files that it reaches. -/
theorem keeps_cleared_singleton (hd : a.dryRun = false) (tag : Tag) (ht : files.textAt l = some t)
    (h : WellMarked t) :
    ∃ t', (cleared a s files [tag]).textAt l = some t' ∧ Keeps [tag] t t' ∧
      (blocks tag t' = [] ↔ blocks tag t = [] ∨ Reaches a s files l tag) := by
  have hx := (Annotator.textAt_removeFrom a tag (candidates files s tag) { files := files } ht).2
  simp only [Annotator.unlessDry, hd, Bool.false_eq_true, if_false] at hx
  refine ⟨_, hx, Step.keeps_foldl (fun _ _ t h => keeps_removeAll h tag) h, ?_⟩
  have hr : Reaches a s files l tag ↔
      (candidates files s tag).filter (fun p => a.admits files p && files.leadsTo p l) ≠ [] := by
    simp [Reaches, List.filter_eq_nil_iff]
  rw [blocks_foldl_removeAll h, hr]
  split <;> simp [*]

/-- A removal leaves the blocks of the tags that it is not asked for, and those of the tags that do not
reach the file. -/
theorem keeps_cleared (hd : a.dryRun = false) : ∀ {tags : List Tag} {files : FileTree} {t : Text}, tags.Nodup →
    files.textAt l = some t → WellMarked t →
    ∃ t', (cleared a s files tags).textAt l = some t' ∧ Keeps tags t t' ∧
      ∀ tag ∈ tags, blocks tag t' = [] ↔ blocks tag t = [] ∨ Reaches a s files l tag
  | [], _, t, _, ht, h => ⟨t, ht, keeps_refl h _, by simp⟩
  | tag :: tags, files, t, hn, ht, h => by
    rw [List.nodup_cons] at hn
    have hlayout : SameLayout files (cleared a s files [tag]) :=
      Step.sameLayout_run files (.removeFrom a (candidates files s tag) tag)
    obtain ⟨t₁, ht₁, hk₁, hb₁⟩ := keeps_cleared_singleton (s := s) hd tag ht h
    obtain ⟨t₂, ht₂, hk₂, hb₂⟩ := keeps_cleared hd hn.2 ht₁ hk₁.1
    refine ⟨t₂, by rwa [cleared_cons], (hk₁.mono (by simp)).trans (hk₂.mono (by simp)), ?_⟩
    refine List.forall_mem_cons.2 ⟨?_, fun tag' hm => ?_⟩
    · rw [hk₂.blocks_eq hn.1, hb₁]
    · have hne : tag' ∉ [tag] := fun he => hn.1 (List.mem_singleton.1 he ▸ hm)
      rw [hb₂ tag' hm, hk₁.blocks_eq hne, reaches_iff hlayout]

/-! ### Annotation and removal -/

theorem dryRun_annotator (h : annotator s = .ok a) : a.dryRun = s.dryRun := by
  unfold annotator plainly Settings.annotator at h
  split at h
  · cases h
    rfl
  · cases h

theorem filesAfter_remove (h : annotator s = .ok a) :
    filesAfter files (remove files s json []) = cleared a s files Tag.all := by
  simp only [remove, h, bind, Except.bind]
  rfl

/-- Where runs cannot be made, none was. -/
theorem history_eq_nil {f : CommandFault} (h : annotator s = .error f) : history files s q = [] := by
  have hnone (ps : Except CommandFault (List Production)) : stepsOf s ps = [] := by
    rw [stepsOf, h]
    cases ps <;> rfl
  simp only [history, hnone, List.append_nil]

/-- Once the commands that annotate have run and all blocks were asked to be taken out, a file that held
no marker in the beginning has the lines that it had then, and no block exactly if, for each tag of
which blocks were put into it, the file was one of those into which the removal of the tag looks, and
could be touched. -/
theorem cleared_iff_reached (hd : s.dryRun = false) (ht : files.textAt l = some t) (hm : ¬ HoldsMarker t)
    (hf : Step.AllFit l files (history files s q)) :
    ∃ t₁ t₂, (annotated files s json q).textAt l = some t₁ ∧
      (filesAfter (annotated files s json q) (remove (annotated files s json q) s json [])).textAt l = some t₂ ∧
      sourceLines t₂ = sourceLines t ∧
      ((∀ tag, Block.isIn tag t₂ = false) ↔ ∀ tag, Block.isIn tag t₁ →
        ∃ a, annotator s = .ok a ∧ Reaches a s files l tag) := by
  have h := wellMarked_of_not_holdsMarker hm
  obtain ⟨t₁, ht₁, h₁, he₁⟩ := Step.keeps_runAll ht h hf
  have hlayout : SameLayout files (annotated files s json q) := by
    rw [annotated_eq]
    exact Step.sameLayout_runAll _ files
  rw [← annotated_eq json] at ht₁
  cases ha : annotator s with
  | error f =>
    have hremove : filesAfter (annotated files s json q) (remove (annotated files s json q) s json []) =
        annotated files s json q := by
      simp only [remove, ha, bind, Except.bind, filesAfter]
    have heq : annotated files s json q = files := by rw [annotated_eq, history_eq_nil ha]; rfl
    obtain rfl : t₁ = t := Option.some.inj (ht₁.symm.trans (by rw [heq, ht]))
    have hnone (tag : Tag) : Block.isIn tag t₁ = false := by
      rw [Block.isIn, Excerpt.find?_eq_none fun hb => hm ⟨.opening tag, hb⟩, Option.isSome_none]
    exact ⟨t₁, t₁, ht₁, by rw [hremove, ht₁], rfl, by simp [hnone]⟩
  | ok a =>
    obtain ⟨t₂, ht₂, hk, hb⟩ := keeps_cleared (s := s) (dryRun_annotator ha ▸ hd) (by decide : Tag.all.Nodup) ht₁ h₁
    refine ⟨t₁, t₂, ht₁, by rw [filesAfter_remove ha, ht₂], hk.sourceLines_eq.trans he₁, forall_congr' fun tag => ?_⟩
    rw [hk.1.isIn_eq_false_iff, hb tag (by cases tag <;> decide), ← h₁.isIn_eq_false_iff, reaches_iff hlayout]
    cases Block.isIn tag t₁ <;> simp

/-! ### A recorded file -/

/-- The file of a model. -/
def recordedFile : Location := ["lib".toList, "user.rb".toList]

/-- What the file holds. -/
def recordedText : Text := "class User\nend\n".toList

/-- The model, whose file is recorded and is in none of the folders with models. -/
def recordedProject : FileTree where
  entries := [(["lib".toList], .folder), (recordedFile, .file (.text recordedText)),
    (["schema.json".toList], .file (.text ("\x7b\"models\": [\x7b\"name\": \"User\", ".toList ++
      "\"table_name\": \"users\", \"source_location\": \"lib/user.rb\", \"columns\": []\x7d]\x7d".toList)))]

/-- Blocks go before their classes, and no file is left alone. -/
def recordedSettings : Settings where
  position := .before
  schemaSnapshot := "schema.json"
  exclude := []

/-- The annotation of the model. -/
def recordedUser : Target where
  identifier := "User"
  file := some ⟨"./lib/user.rb".toList⟩
  anchor := .declaration "User"
  tag := .schema
  payload := "== Schema Information\n\nTable name: users\n".toList

/-- How runs are made under the settings. -/
def recordedAnnotator : Annotator where
  root := ⟨".".toList⟩
  position := .before
  parse := Index.ofSource

/-- What the file holds once the model is annotated. -/
def recordedBlock : Text :=
  "# --- BEGIN annotate:schema ---\n# == Schema Information\n#\n# Table name: users\n".toList ++
    "# --- END annotate:schema ---\n".toList ++ recordedText

/-- The one run that annotates the model: there are no other snapshots. -/
theorem history_recorded :
    history recordedProject recordedSettings {} = [.apply recordedAnnotator [recordedUser]] := by
  have ha : (annotator recordedSettings).toOption = some recordedAnnotator := rfl
  have hmodels : (modelProductions recordedProject recordedSettings none).toOption = some [.ok recordedUser] := by
    -- the file is spelled out, as a literal is decoded anew wherever it is compared
    unfold recordedProject
    repeat rewrite [String.toList_ofList]
    decide
  have hmailers : (mailerProductions
      (Step.runAll recordedProject [.apply recordedAnnotator [recordedUser]]) recordedSettings none).toOption = none := by
    unfold recordedProject
    repeat rewrite [String.toList_ofList]
    decide +kernel
  have hroutes : (routesProductions
      (Step.runAll recordedProject [.apply recordedAnnotator [recordedUser]]) recordedSettings none none).toOption =
      none := by
    decide +kernel
  have hfirst : stepsOf recordedSettings (modelProductions recordedProject recordedSettings none) =
      [.apply recordedAnnotator [recordedUser]] := by
    rw [stepsOf, hmodels, ha]
    rfl
  have hnone {ps : Except CommandFault (List Production)} (h : ps.toOption = none) :
      stepsOf recordedSettings ps = [] := by
    rw [stepsOf, h]
  simp only [history, hfirst]
  rw [hnone hmailers, List.append_nil, hnone hroutes, List.append_nil]

theorem allFit_recorded : Step.AllFit recordedFile recordedProject (history recordedProject recordedSettings {}) := by
  rw [history_recorded]
  decide

theorem textAt_recorded :
    (Step.runAll recordedProject [.apply recordedAnnotator [recordedUser]]).textAt recordedFile =
      some recordedBlock := by
  have ht : recordedProject.textAt recordedFile = some recordedText := by decide
  have hg : recordedAnnotator.groupsAt recordedProject [recordedUser] recordedFile = [[recordedUser]] := by
    decide
  have hone : Annotation.OneTag .schema [recordedUser] :=
    ⟨by decide, .inl (by decide), by decide, by decide⟩
  have hplaced : Placement.placeAll .before recordedText
      (((Index.ofSource recordedText).resolve? "User").map fun d =>
        (d, { name := "User", block := recordedUser.block })).toList = recordedBlock := by
    unfold recordedBlock recordedText
    repeat rewrite [String.toList_ofList]
    decide
  refine (Annotator.textAt_applyAll_of_not_dryRun rfl [recordedUser] ht).trans (congrArg some ?_)
  rw [hg, ← hplaced, ← Annotation.batch_singleton rfl rfl]
  exact Annotation.rewrite_of_fresh hone (by decide) (by decide)

/-- No folder with models is there, so the removal of their blocks looks into no file. -/
theorem not_reaches_recorded : ¬ Reaches recordedAnnotator recordedSettings recordedProject recordedFile .schema := by
  have hnone : recordedSettings.modelPaths.flatMap recordedProject.filesBelow = [] := by decide
  rintro ⟨p, hp, -⟩
  rw [candidates, sourceFiles, hnone] at hp
  simp [Path.sorted, Path.sorted.go] at hp

/-- The block of the recorded file stays. -/
theorem recorded_file_keeps_block :
    let files := annotated recordedProject recordedSettings false {}
    recordedSettings.dryRun = false ∧ recordedProject.textAt recordedFile = some recordedText ∧
      ¬ HoldsMarker recordedText ∧ ∃ t,
        (filesAfter files (remove files recordedSettings false [])).textAt recordedFile = some t ∧
          Block.isIn .schema t := by
  refine ⟨rfl, by decide, by decide, ?_⟩
  have h : WellMarked recordedBlock := by
    unfold recordedBlock
    repeat rewrite [String.toList_ofList]
    decide
  have hin : Block.isIn .schema recordedBlock := by
    unfold recordedBlock
    repeat rewrite [String.toList_ofList]
    decide
  obtain ⟨t, ht', hk, hb⟩ := keeps_cleared (a := recordedAnnotator) (s := recordedSettings)
    rfl (by decide : Tag.all.Nodup) textAt_recorded h
  rw [annotated_eq, history_recorded, filesAfter_remove (a := recordedAnnotator) rfl]
  refine ⟨t, ht', ?_⟩
  by_contra hnot
  rw [Bool.not_eq_true, hk.1.isIn_eq_false_iff, hb .schema (by decide), ← h.isIn_eq_false_iff] at hnot
  rcases hnot with hnot | hnot
  · rw [hin] at hnot
    cases hnot
  · exact not_reaches_recorded ((reaches_iff (Step.sameLayout_runAll _ recordedProject)).1 hnot)

theorem cleared_iff_reached_recorded :
    let files := annotated recordedProject recordedSettings false {}
    recordedSettings.dryRun = false ∧ recordedProject.textAt recordedFile = some recordedText ∧
      ¬ HoldsMarker recordedText ∧
      Step.AllFit recordedFile recordedProject (history recordedProject recordedSettings {}) ∧
      ∃ t₁ t₂, files.textAt recordedFile = some t₁ ∧
        (filesAfter files (remove files recordedSettings false [])).textAt recordedFile = some t₂ ∧
        sourceLines t₂ = sourceLines recordedText ∧
        ((∀ tag, Block.isIn tag t₂ = false) ↔ ∀ tag, Block.isIn tag t₁ →
          ∃ a, annotator recordedSettings = .ok a ∧
            Reaches a recordedSettings recordedProject recordedFile tag) := by
  have ht : recordedProject.textAt recordedFile = some recordedText := by decide
  have hm : ¬ HoldsMarker recordedText := by decide
  exact ⟨rfl, ht, hm, allFit_recorded, cleared_iff_reached rfl ht hm allFit_recorded⟩

end Command
end Marginalia
