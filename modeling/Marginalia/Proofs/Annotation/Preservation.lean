/-
# Runs preserve the source

Over any sequence of runs that put annotations into files or take them out, a
well-marked text stays well-marked, its lines outside all blocks stay as they
are, and a step leaves the blocks of the tags that it does not handle
(`Step.source_preserved`). What is asked of each step that annotates is asked
on the text on which it works: the payloads hold no marker, and no class or
pattern is found inside a block (`Annotation.Fits`).

Key definitions: `Step.Fits`, `Step.AllFit`.
Key theorems: `Step.keeps_run`, `Step.source_preserved`.
-/
import Marginalia.Proofs.Annotation.Effect
import Marginalia.Proofs.Annotation.Keeping
import Marginalia.Pattern.Reader

namespace Marginalia

open Text

namespace Annotation

/-- Each of the groups can be put into the text as the groups before it leave it. -/
def GroupsFit (parse : Text → Index) (pos : Position) : List (List Target) → Text → Prop
  | [], _ => True
  | group :: groups, t => Fits parse pos group t ∧ GroupsFit parse pos groups (rewrite parse pos group t).1

instance decidableGroupsFit (parse : Text → Index) (pos : Position) :
    (groups : List (List Target)) → (t : Text) → Decidable (GroupsFit parse pos groups t)
  | [], _ => inferInstanceAs (Decidable True)
  | _ :: groups, _ => @instDecidableAnd _ _ _ (decidableGroupsFit parse pos groups _)

end Annotation

namespace Step

open Annotation (GroupsFit rewriteAll unmark tagsOf_subset keeps_rewrite)

/-- The step can be taken without regard to what stands in the blocks of the file at the location. -/
def Fits (files : FileTree) (l : Location) : Step → Prop
  | apply a targets => a.dryRun = false → ∀ t ∈ files.textAt l,
      GroupsFit a.parse a.position (a.groupsAt files targets l) t
  | remove .. => True
  | removeFrom .. => True

instance (files : FileTree) (l : Location) : (s : Step) → Decidable (s.Fits files l)
  | apply .. => inferInstanceAs (Decidable (_ → _))
  | remove .. => inferInstanceAs (Decidable True)
  | removeFrom .. => inferInstanceAs (Decidable True)

/-- Each of the steps can be taken on the files as the steps before it leave them. -/
def AllFit (l : Location) : FileTree → List Step → Prop
  | _, [] => True
  | files, s :: steps => s.Fits files l ∧ AllFit l (s.run files) steps

instance decidableAllFit (l : Location) :
    (files : FileTree) → (steps : List Step) → Decidable (AllFit l files steps)
  | _, [] => inferInstanceAs (Decidable True)
  | _, _ :: steps => @instDecidableAnd _ _ _ (decidableAllFit l _ steps)

section

variable {a : Annotator} {files : FileTree} {l : Location} {t : Text} {targets : List Target}

theorem keeps_unmark : ∀ {tags : List Tag} {t : Text}, WellMarked t → Keeps tags t (unmark tags t)
  | [], _, h => keeps_refl h _
  | tag :: _, _, h => by
    have hk := keeps_removeAll h tag
    exact (hk.mono (by simp)).trans ((keeps_unmark hk.1).mono (by simp))

/-- Groups that fit a text, one after the other, keep all but the blocks of their tags. -/
theorem keeps_groups {parse : Text → Index} {pos : Position} {tags : List Tag} :
    ∀ {groups : List (List Target)} {t : Text}, WellMarked t → (∀ g ∈ groups, g.map (·.tag) ⊆ tags) →
      GroupsFit parse pos groups t → Keeps tags t (rewriteAll parse pos groups t)
  | [], _, h, _, _ => keeps_refl h _
  | _ :: _, _, h, hg, hf => by
    rw [List.forall_mem_cons] at hg
    have hk := (keeps_rewrite h hf.1).mono hg.1
    exact hk.trans (keeps_groups hk.1 hg.2 hf.2)

theorem keeps_foldl {α : Type} {tags : List Tag} {f : α → Text → Text} :
    ∀ {xs : List α} {t : Text}, (∀ x ∈ xs, ∀ t, WellMarked t → Keeps tags t (f x t)) → WellMarked t →
      Keeps tags t (xs.foldl (fun t x => f x t) t)
  | [], _, _, h => keeps_refl h _
  | _ :: _, _, hf, h => by
    rw [List.forall_mem_cons] at hf
    have hk := hf.1 _ h
    exact hk.trans (keeps_foldl hf.2 hk.1)

theorem keeps_unlessDry {tags : List Tag} {f : Text → Text} (h : WellMarked t) (hf : Keeps tags t (f t)) :
    Keeps tags t (a.unlessDry f t) := by
  unfold Annotator.unlessDry
  split
  · exact keeps_refl h _
  · exact hf

/-- What one step does to a well-marked file. -/
theorem keeps_run {s : Step} (ht : files.textAt l = some t) (h : WellMarked t) (hs : s.Fits files l) :
    ∃ t', (s.run files).textAt l = some t' ∧ Keeps s.tags t t' := by
  cases s with
  | apply a targets =>
    refine ⟨_, (Annotator.textAt_applyAll a targets ht).2, ?_⟩
    cases hd : a.dryRun with
    | true =>
      exact keeps_foldl (fun _ _ t h => by rw [Annotator.unlessDry, if_pos hd]; exact keeps_refl h _) h
    | false =>
      have hk : Keeps (targets.map (·.tag)) t (rewriteAll a.parse a.position (a.groupsAt files targets l) t) :=
        keeps_groups h (fun g hg => List.map_subset _ (Annotator.subset_of_mem_groupsAt hg)) (hs hd t ht)
      simp only [Annotator.unlessDry, hd, Bool.false_eq_true, if_false]
      exact hk
  | remove a targets =>
    refine ⟨_, (Annotator.textAt_removeAll a targets ht).2, keeps_foldl (fun g hg t h => ?_) h⟩
    refine keeps_unlessDry h ((keeps_unmark h).mono (List.Subset.trans (tagsOf_subset g) ?_))
    exact List.map_subset _ (Annotator.subset_of_mem_groupsAt hg)
  | removeFrom a paths tag =>
    refine ⟨_, (Annotator.textAt_removeFrom a tag paths { files := files } ht).2, keeps_foldl ?_ h⟩
    exact fun _ _ t h => keeps_unlessDry h (keeps_removeAll h tag)

/-- After all steps a well-marked file is well-marked and has its source lines. -/
theorem keeps_runAll : ∀ {steps : List Step} {files : FileTree} {t : Text}, files.textAt l = some t →
    WellMarked t → AllFit l files steps →
    ∃ t', (runAll files steps).textAt l = some t' ∧ WellMarked t' ∧ sourceLines t' = sourceLines t
  | [], _, t, ht, h, _ => ⟨t, ht, h, rfl⟩
  | _ :: _, _, _, ht, h, hs => by
    obtain ⟨t₁, ht₁, hk⟩ := keeps_run ht h hs.1
    obtain ⟨t₂, ht₂, h₂, he⟩ := keeps_runAll ht₁ hk.1 hs.2
    exact ⟨t₂, ht₂, h₂, he.trans hk.sourceLines_eq⟩

theorem AllFit.split : ∀ {done rest : List Step} {s : Step} {files : FileTree},
    AllFit l files (done ++ s :: rest) → AllFit l files done ∧ s.Fits (runAll files done) l
  | [], _, _, _, h => ⟨trivial, h.1⟩
  | _ :: _, _, _, _, h => by
    obtain ⟨h₁, h₂⟩ := AllFit.split h.2
    exact ⟨⟨h.1, h₁⟩, h₂⟩

end

/-- After every step of a history a file that was well-marked in the beginning is well-marked, has
the lines outside all blocks that it had in the beginning, and has the blocks of the tags that the
step does not handle as they were before it. -/
theorem source_preserved {files : FileTree} {l : Location} {t : Text} (ht : files.textAt l = some t)
    (h : WellMarked t) {done rest : List Step} {s : Step} (hs : AllFit l files (done ++ s :: rest)) :
    ∃ t₁ t₂, (runAll files done).textAt l = some t₁ ∧
      (runAll files (done ++ [s])).textAt l = some t₂ ∧
      WellMarked t₂ ∧ sourceLines t₂ = sourceLines t ∧
      ∀ tag ∉ s.tags, blocks tag t₂ = blocks tag t₁ := by
  obtain ⟨hd, hf⟩ := hs.split
  obtain ⟨t₁, ht₁, h₁, he₁⟩ := keeps_runAll ht h hd
  obtain ⟨t₂, ht₂, hk⟩ := keeps_run ht₁ h₁ hf
  rw [← runAll_append] at ht₂
  exact ⟨t₁, t₂, ht₁, ht₂, hk.1, hk.sourceLines_eq.trans he₁, fun tag hn => hk.blocks_eq hn⟩

/-! ### A history of one file -/

/-- Two classes below a directive and the block of another tag, without a final newline. -/
def userFile : Text :=
  "# frozen_string_literal: true\n\n# --- BEGIN annotate:mailer ---\n# welcome\n".toList ++
    "# --- END annotate:mailer ---\n\nclass User\n  class Role\n  end\nend".toList

/-- The models of the file. -/
def userModels : List Target :=
  [userTarget "User" (.declaration "User") .schema "id\nname", userTarget "Role" (.declaration "Role") .schema "id"]

/-- The routes, below the first line on which a class is opened. -/
def userRoutes : Target :=
  userTarget "routes" (.line ((Pattern.ofText? "^class ".toList).getD .empty)) .routes "GET /"

/-- One model is annotated, then the routes are, and the models' blocks are taken out. -/
def userHistory : List Step :=
  [apply (rubyAnnotator .before) (userModels.take 1), apply (rubyAnnotator .top) [userRoutes],
    remove (rubyAnnotator .top) userModels]

theorem source_preserved_users :
    let files := FileTree.single "user.rb".toList userFile
    let s := apply (rubyAnnotator .after) userModels
    files.textAt ["user.rb".toList] = some userFile ∧ WellMarked userFile ∧
      AllFit ["user.rb".toList] files (userHistory ++ s :: []) ∧
      ∃ t₁ t₂, (runAll files userHistory).textAt ["user.rb".toList] = some t₁ ∧
        (runAll files (userHistory ++ [s])).textAt ["user.rb".toList] = some t₂ ∧
        WellMarked t₂ ∧ sourceLines t₂ = sourceLines userFile ∧
        ∀ tag ∉ s.tags, blocks tag t₂ = blocks tag t₁ := by
  -- the text is spelled out, as a literal is decoded anew wherever it is compared
  have hs : AllFit ["user.rb".toList] (FileTree.single "user.rb".toList userFile)
      (userHistory ++ apply (rubyAnnotator .after) userModels :: []) := by
    unfold userFile
    repeat rewrite [String.toList_ofList]
    decide +kernel
  intro files s
  have ht : files.textAt ["user.rb".toList] = some userFile := FileTree.textAt_single _ _
  have h : WellMarked userFile := by
    unfold userFile
    repeat rewrite [String.toList_ofList]
    decide
  exact ⟨ht, h, hs, source_preserved ht h hs⟩

end Step
end Marginalia
