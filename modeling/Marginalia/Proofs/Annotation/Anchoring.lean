/-
# The block of a target at a line

A target at a line is put in by `Block.upsert`, which exchanges the first block
of the tag or adds one below the line. Either way the first block is the
target's, and there are as many as before, one at least (`Block.Seam.count_eq`).
So a file ends up with the target's block as the only one of its tag exactly if
it held no more than one (`Annotator.sole_block_iff`): of several blocks, all but
the first are left behind.

Key theorems: `Annotation.rewrite_of_line`, `Annotation.exists_find?_rewrite`, `Annotator.sole_block_iff`.
-/
import Marginalia.Proofs.Annotation.Idempotence
import Marginalia.Proofs.Annotation.Tracing
import Marginalia.Proofs.Pattern.Literal

namespace Marginalia

open Text Block

namespace Annotation

variable {target : Target} {pattern : Pattern} {t : Text}

/-- A file of a target at a line is rewritten, unless that comes down to folding its blank runs. -/
theorem rewrite_of_line (parse : Text → Index) (pos : Position) (h : target.pattern? = some pattern)
    (t : Text) :
    (rewrite parse pos [target] t).1 = Block.upsert target.tag target.block pattern.isIn t ∨
      (rewrite parse pos [target] t).1 = t ∧
        foldBlankRuns t = Block.upsert target.tag target.block pattern.isIn t := by
  have ha := pattern?_eq_some_iff.1 h
  have htext : (Draft.afterLine { text := t } target).text =
      Block.upsert target.tag target.block pattern.isIn t := by
    rw [text_afterLine, h]
  simp only [rewrite, draft_of_line ha, htext]
  split
  · next hs =>
    rw [Bool.or_eq_true, List.isEmpty_iff, beq_iff_eq] at hs
    rcases hs with hs | hs
    · refine .inl ?_
      simp only [Draft.afterLine, ha, List.nil_append] at hs
      split at hs
      · cases hs
      · next hn =>
        simp only [Bool.or_eq_true, decide_eq_true_eq, ne_eq, not_or, not_not] at hn
        exact hn.1.1.symm
    · exact .inr ⟨rfl, hs⟩
  · exact .inl rfl

/-- In a file that is rewritten for a target at a line, the first block of the tag is the target's. -/
theorem exists_find?_rewrite (parse : Text → Index) (pos : Position) (h : WellMarked t)
    (hp : target.pattern? = some pattern) (hu : target.Unmarked) (h0 : ¬ target.payload.all isBlank)
    (hplace : isIn target.tag t ∨ ∃ l ∈ rawLines t, pattern.isIn (anchorText l)) :
    ∃ e, Excerpt.find? target.tag (rewrite parse pos [target] t).1 = some e ∧ e.text = target.block ∧
      count target.tag (rewrite parse pos [target] t).1 = max 1 (count target.tag t) := by
  have hblock0 : target.block ≠ [] := render_eq_nil_iff.not.2 (lines_ofText_eq_nil_iff.not.2 h0)
  obtain ⟨cs, hc, hblock⟩ := hu.block.resolve_left hblock0
  obtain ⟨above, below, hseam⟩ : ∃ above below, Seam target.tag pattern.isIn t above below := by
    refine (exists_seam target.tag pattern.isIn t).resolve_right fun ⟨hnone, hlines⟩ => ?_
    rcases hplace with hin | ⟨l, hl, hl'⟩
    · rw [isIn, hnone] at hin
      cases hin
    · exact hlines l hl hl'
  have hup : Block.upsert target.tag target.block pattern.isIn t = spliceApart above target.block below :=
    hseam.upsert_eq hblock0
  have hfind := (sealed_frame hc).find?_spliceApart (hseam.not_infix (h.not_infix_or_isIn target.tag)) below
  have hcount := hseam.count_eq h hc
  rw [← hblock] at hfind hcount
  rcases rewrite_of_line parse pos hp t with hr | ⟨hr, hfold⟩
  · exact ⟨_, by rw [hr, hup]; exact hfind, rfl, by rw [hr, hup, hcount]⟩
  · -- the file is left as it is: with its blank runs folded it is what the block would have been put in
    rw [hup] at hfold
    rw [← hfold] at hfind hcount
    have hrows : [] ∉ rows target.block := by
      rw [hblock, rows_frame .nil hc]
      exact fun hm => ne_nil_of_mem_framed .nil hc [] hm rfl
    obtain ⟨e, he, htext⟩ := Excerpt.exists_find?_of_foldBlankRuns h hfind hrows
    refine ⟨e, by rw [hr, he], htext, ?_⟩
    rw [hr, ← hcount, count_eq_countIn, count_eq_countIn, solidLines_foldBlankRuns]

end Annotation

namespace Annotator

open Annotation

variable {a : Annotator} {files : FileTree} {l : Location} {p : Path} {targets : List Target} {target : Target}

/-- The only target that names a file is the only one of the only group that leads to the file. -/
theorem groupsAt_of_sole (hone : (targets.filter fun x => x.file.any fun q => files.leadsTo q l) = [target])
    (hf : target.file = some p) (hp : a.admits files p) : a.groupsAt files targets l = [[target]] := by
  have hmem (x : Target) : x = target ↔ x ∈ targets ∧ ∃ q, x.file = some q ∧ files.leadsTo q l := by
    rw [← List.mem_singleton, ← hone, List.mem_filter, Option.any_eq_true]
  obtain ⟨ht, q, hq, hl⟩ := (hmem target).1 rfl
  obtain rfl : p = q := Option.some.inj (hf.symm.trans hq)
  obtain ⟨g, hg, htg⟩ : ∃ g ∈ a.groups files targets, target ∈ g.2 := by
    rw [← List.mem_flatMap, (flatMap_groups_perm a files targets).mem_iff, List.mem_filter]
    exact ⟨ht, by simp [admitted?, hf, hp]⟩
  obtain ⟨q, hq', -, hsame⟩ := leadsTo_eq_of_mem_groups hg htg
  obtain rfl : p = q := Option.some.inj (hf.symm.trans hq')
  have hgl : files.leadsTo g.1 l := hsame l ▸ hl
  have hgroup : g.2 = [target] := by
    have hlead : ∀ x ∈ g.2, x.file.any fun q => files.leadsTo q l := fun x hx => by
      obtain ⟨q, hq, -, he⟩ := leadsTo_eq_of_mem_groups hg hx
      exact (Option.any_eq_true _ _).2 ⟨q, hq, (he l).trans hgl⟩
    have hsub : g.2.Sublist [target] := by
      rw [← hone, ← List.filter_eq_self.2 hlead, snd_of_mem_groups hg]
      exact List.filter_sublist.filter _
    exact (List.sublist_singleton.1 hsub).resolve_left (List.ne_nil_of_mem htg)
  rw [groupsAt_eq_singleton (fun x hx y hy q hq r hr hl hl' => ?_) hg hgl, hgroup]
  have hxy : x = y := ((hmem x).2 ⟨hx, q, hq, hl⟩).trans ((hmem y).2 ⟨hy, r, hr, hl'⟩).symm
  obtain rfl : q = r := Option.some.inj (hq.symm.trans (hxy ▸ hr))
  exact beq_self_eq_true q.components

/-- **A target at a line leaves one block behind exactly if there was no more than one.** After a run
in which it is the only target for a well-marked file, and finds its place there, the first block of
its tag in the file is its own. It is the only one exactly if the file held at most one before. -/
theorem sole_block_iff (hd : a.dryRun = false) {pattern : Pattern} {t : Text} (hp : a.admits files p)
    (ht : files.textAt l = some t) (hm : WellMarked t) (hf : target.file = some p)
    (hone : (targets.filter fun x => x.file.any fun q => files.leadsTo q l) = [target])
    (hx : target.pattern? = some pattern) (hu : target.Unmarked) (h0 : ¬ target.payload.all isBlank)
    (hplace : isIn target.tag t ∨ ∃ line ∈ rawLines t, pattern.isIn (anchorText line)) :
    ∃ t' e, (a.applyAll files targets).files.textAt l = some t' ∧ Excerpt.find? target.tag t' = some e ∧
      e.text = target.block ∧ (count target.tag t' = 1 ↔ (blocks target.tag t).length ≤ 1) := by
  obtain ⟨e, he, htext, hcount⟩ := exists_find?_rewrite a.parse a.position hm hx hu h0 hplace
  refine ⟨(rewrite a.parse a.position [target] t).1, e, ?_, he, htext, ?_⟩
  · rw [textAt_applyAll_of_not_dryRun hd targets ht, groupsAt_of_sole hone hf hp]
    rfl
  · rw [hcount, count_eq_length_blocks hm]
    omega

/-- The routes, below the line that opens them. -/
def routesTarget : Target := Step.userTarget "routes" (.line (.literal "draw do".toList)) .routes "GET /"

/-- Routes with an old block. -/
def routesFile : Text := ("draw do\n  # --- BEGIN annotate:routes ---\n  # GET /old\n" ++
  "  # --- END annotate:routes ---\nend\n").toList

theorem sole_block_iff_routes :
    let files := FileTree.single "user.rb".toList routesFile
    let a := Step.rubyAnnotator .top
    let l := ["user.rb".toList]
    a.admits files ⟨"user.rb".toList⟩ ∧ files.textAt l = some routesFile ∧ WellMarked routesFile ∧
      routesTarget.Unmarked ∧ isIn routesTarget.tag routesFile ∧
      ∃ t' e, (a.applyAll files [routesTarget]).files.textAt l = some t' ∧
        Excerpt.find? routesTarget.tag t' = some e ∧ e.text = routesTarget.block ∧
        (count routesTarget.tag t' = 1 ↔ (blocks routesTarget.tag routesFile).length ≤ 1) := by
  intro files a l
  have hp : a.admits files ⟨"user.rb".toList⟩ := by decide
  have ht : files.textAt l = some routesFile := FileTree.textAt_single _ _
  have hm : WellMarked routesFile := by
    unfold routesFile
    rewrite [String.toList_append]
    repeat rewrite [String.toList_ofList]
    decide
  have hf : routesTarget.file = some ⟨"user.rb".toList⟩ := rfl
  have hone : ([routesTarget].filter fun x => x.file.any fun q => files.leadsTo q l) = [routesTarget] := by
    decide
  have hx : routesTarget.pattern? = some (.literal "draw do".toList) := rfl
  have hu : routesTarget.Unmarked := by decide
  have h0 : ¬ routesTarget.payload.all isBlank := by decide
  have hin : isIn routesTarget.tag routesFile := by
    unfold routesFile
    rewrite [String.toList_append]
    repeat rewrite [String.toList_ofList]
    decide
  exact ⟨hp, ht, hm, hu, hin, sole_block_iff rfl hp ht hm hf hone hx hu h0 (.inl hin)⟩

/-- Routes with a block above the line and one below it. -/
def mergedRoutes : Text := ("# --- BEGIN annotate:routes ---\n# GET /a\n# --- END annotate:routes ---\ndraw do\n" ++
  "# --- BEGIN annotate:routes ---\n# GET /b\n# --- END annotate:routes ---\nend\n").toList

/-- The lower block is left behind. -/
theorem second_block_stays :
    let files := FileTree.single "user.rb".toList mergedRoutes
    let a := Step.rubyAnnotator .top
    WellMarked mergedRoutes ∧ routesTarget.Unmarked ∧ isIn .routes mergedRoutes ∧
      ∃ t', (a.applyAll files [routesTarget]).files.textAt ["user.rb".toList] = some t' ∧ count .routes t' = 2 ∧
        "# GET /b".toList <:+: t' := by
  have hrun : ((Step.rubyAnnotator .top).applyAll (FileTree.single "user.rb".toList mergedRoutes)
      [routesTarget]).files.textAt ["user.rb".toList] =
        some (Block.upsert .routes routesTarget.block (Pattern.literal "draw do".toList).isIn mergedRoutes) := by
    unfold mergedRoutes routesTarget Step.userTarget
    rewrite [String.toList_append]
    repeat rewrite [String.toList_ofList]
    decide
  refine ⟨?_, by decide, ?_, _, hrun, ?_, ?_⟩
  all_goals
    unfold mergedRoutes
    rewrite [String.toList_append]
    repeat rewrite [String.toList_ofList]
    decide +kernel

end Annotator
end Marginalia
