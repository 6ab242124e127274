/-
# Excluded files

Whether a file is excluded is asked of the path that is handed in: of its
written form, and of what follows the root in it where it starts with the root
as that is written. A file is left alone by all runs that name it in certain
ways exactly if each of these is excluded (`Step.untouched_iff_excluded`); one
that is named otherwise is written even if a glob describes the place at which
it lies (`Step.excluded_file_written`). Names that go on from the root are
compared as the place below it (`Path.dropLead?_join`).

Key definitions: `Path.ofNames`, `Step.annotator`, `Step.paths`.
Key theorems: `Path.dropLead?_join`, `Step.textAt_run_of_refused`, `Step.untouched_iff_excluded`.
-/
import Marginalia.Proofs.Annotation.Straying
import Marginalia.Proofs.FileTree.Naming

namespace Marginalia

open Text Block

/-! ### Paths that go on from a folder -/

namespace Path

/-- Names one below the other, as a path. -/
def ofNames (names : List Text) : Path := ⟨['/'].intercalate names⟩

/-- A part of a path that is the name of a file or folder. -/
def IsName (part : Text) : Prop := '/' ∉ part ∧ innerComponent? part = some (.name part)

theorem IsName.ne_nil {part : Text} (h : IsName part) : part ≠ [] := by
  rintro rfl
  exact absurd h.2 (by decide)

theorem IsName.leadPiece_eq {part : Text} (h : IsName part) : leadPiece part = innerPiece part := by
  have hdot : part ≠ ['.'] := by
    rintro rfl
    exact absurd h.2 (by decide)
  rw [leadPiece, if_neg h.ne_nil, if_neg hdot, innerPiece]

theorem splitParts_append (x y : Text) : splitParts (x ++ '/' :: y) = splitParts x ++ splitParts y := by
  induction x with
  | nil => rfl
  | cons c x ih =>
    obtain ⟨p, ps, hp⟩ := exists_splitParts_eq x
    rw [List.cons_append, splitParts, splitParts, ih, hp]
    split <;> rfl

theorem splitParts_of_not_mem {t : Text} (h : '/' ∉ t) : splitParts t = [t] := by
  induction t with
  | nil => rfl
  | cons c t ih =>
    rw [List.mem_cons, not_or] at h
    rw [splitParts, if_neg (Ne.symm h.1), ih h.2]

theorem splitParts_intercalate {names : List Text} (h0 : names ≠ []) (hn : ∀ n ∈ names, '/' ∉ n) :
    splitParts (['/'].intercalate names) = names := by
  induction names with
  | nil => exact absurd rfl h0
  | cons n names ih =>
    rw [List.forall_mem_cons] at hn
    cases names with
    | nil => simpa [List.intercalate] using splitParts_of_not_mem hn.1
    | cons m names =>
      have he : ['/'].intercalate (n :: m :: names) = n ++ '/' :: ['/'].intercalate (m :: names) := by
        simp [List.intercalate]
      rw [he, splitParts_append, splitParts_of_not_mem hn.1, ih (List.cons_ne_nil _ _) hn.2]
      rfl

variable {folder : Path} {names : List Text}

/-- Once all that the pieces say is dropped, what is left starts with a piece that says something. -/
theorem dropWhile_dropComponents (qs : List (Text × Option Component)) :
    ∀ ps : List (Text × Option Component),
      (dropComponents (ps.filterMap (·.2)).length (ps ++ qs)).dropWhile (·.2.isNone) = qs.dropWhile (·.2.isNone)
  | [] => by simp [dropComponents]
  | (x, some c) :: ps => by simpa [dropComponents] using dropWhile_dropComponents qs ps
  | (x, none) :: ps => by
    have ih := dropWhile_dropComponents qs ps
    rw [List.filterMap_cons_none rfl, List.cons_append]
    cases hn : (ps.filterMap (·.2)).length with
    | zero =>
      rw [hn] at ih
      simpa [dropComponents] using ih
    | succ n =>
      rw [hn] at ih
      rw [dropComponents]
      exact ih

/-! ### Names below a folder -/

theorem parts_ofNames (h0 : names ≠ []) (hn : ∀ n ∈ names, IsName n) : (ofNames names).parts = names :=
  splitParts_intercalate h0 fun n h => (hn n h).1

theorem isAbsolute_ofNames (h0 : names ≠ []) (hn : ∀ n ∈ names, IsName n) : (ofNames names).isAbsolute = false := by
  rw [isAbsolute, beq_eq_false_iff_ne]
  intro h
  obtain ⟨t, ht⟩ := List.head?_eq_some_iff.1 h
  have hm : [] ∈ names := by
    rw [← parts_ofNames h0 hn, parts, ht]
    exact List.mem_cons_self
  exact (hn [] hm).ne_nil rfl

theorem pieces_ofNames (h0 : names ≠ []) (hn : ∀ n ∈ names, IsName n) :
    (ofNames names).pieces = names.map innerPiece := by
  have hparts := parts_ofNames h0 hn
  cases names with
  | nil => exact absurd rfl h0
  | cons n names =>
    have hn := hn n List.mem_cons_self
    rw [pieces_eq hparts fun h => absurd h hn.ne_nil, hn.leadPiece_eq, List.map_cons]

/-- All names say something, so none is dropped at either end. -/
theorem trim_map_innerPiece (h0 : names ≠ []) (hn : ∀ n ∈ names, IsName n) :
    (names.map innerPiece).dropWhile (·.2.isNone) = names.map innerPiece ∧
      dropEndWhile (·.2.isNone) (names.map innerPiece) = names.map innerPiece := by
  have hsaid : ∀ x ∈ names.map innerPiece, x.2.isNone = false := by
    intro x hx
    obtain ⟨n, hm, rfl⟩ := List.mem_map.1 hx
    simp [innerPiece, (hn n hm).2]
  constructor
  · cases names with
    | nil => exact absurd rfl h0
    | cons n names => rw [List.map_cons, List.dropWhile_cons, if_neg (by simp [hsaid _ List.mem_cons_self])]
  · have h := dropEndWhile_append (p := fun x : Text × Option Component => x.2.isNone)
      (a := names.map innerPiece) (b := []) (by simp) fun x hx => by simp [hsaid x (List.mem_of_getLast? hx)]
    simpa using h.1

/-- A folder says what the parts in front of the names say, whether or not it ends with a slash. -/
theorem exists_pieces_join (hf : folder.text ≠ []) (h0 : names ≠ []) (hn : ∀ n ∈ names, IsName n) :
    ∃ (first : Text) (rest : List Text) (tail : List (Text × Option Component)),
      folder.pieces = leadPiece first :: rest.map innerPiece ++ tail ∧ tail.filterMap (·.2) = [] ∧
      (folder.join (ofNames names)).pieces = leadPiece first :: rest.map innerPiece ++ names.map innerPiece := by
  have hrel := isAbsolute_ofNames h0 hn
  -- in front of the names stands the folder, without its last slash
  have hjoin {x first : Text} {rest : List Text} (hp : splitParts x = first :: rest)
      (hx : (folder.join (ofNames names)).text = x ++ '/' :: (ofNames names).text) :
      (folder.join (ofNames names)).pieces = leadPiece first :: rest.map innerPiece ++ names.map innerPiece := by
    have hparts : (folder.join (ofNames names)).parts = first :: (rest ++ names) := by
      rw [parts, hx, splitParts_append, hp, ← parts, parts_ofNames h0 hn, List.cons_append]
    rw [pieces_eq hparts fun _ h => h0 (List.append_eq_nil_iff.1 h).2, List.map_append, List.cons_append]
  by_cases he : folder.text.getLast? = some '/'
  · obtain ⟨x, hx⟩ := List.getLast?_eq_some_iff.1 he
    obtain ⟨first, rest, hp⟩ := exists_splitParts_eq x
    have hfolder : folder.parts = first :: (rest ++ [[]]) := by
      rw [parts, hx, splitParts_append, hp]
      rfl
    refine ⟨first, rest, [innerPiece []], ?_, rfl, hjoin hp ?_⟩
    · rw [pieces_eq hfolder fun _ => by simp, List.map_append]
      rfl
    · rw [join, hrel, if_neg Bool.false_ne_true, if_pos (.inr he), hx, List.append_assoc]
      rfl
  · obtain ⟨first, rest, hp⟩ := exists_splitParts_eq folder.text
    refine ⟨first, rest, [], ?_, rfl, hjoin hp ?_⟩
    · rw [List.append_nil]
      refine pieces_eq hp fun h h' => hf ?_
      subst h h'
      exact eq_nil_of_splitParts hp
    · rw [join, hrel, if_neg Bool.false_ne_true, if_neg (by simp [hf, he])]

/-- What follows the folder in a path that goes on from it is the rest of that path. -/
theorem dropLead?_join (folder : Path) (h0 : names ≠ []) (hn : ∀ n ∈ names, IsName n) :
    dropLead? folder (folder.join (ofNames names)) = some (ofNames names) := by
  have hmap : (names.map innerPiece).map (·.1) = names := by simp [innerPiece, Function.comp_def]
  obtain ⟨hstart, hend⟩ := trim_map_innerPiece h0 hn
  by_cases hf : folder.text = []
  · have hjoin : folder.join (ofNames names) = ofNames names := by
      rw [join, isAbsolute_ofNames h0 hn, if_neg Bool.false_ne_true, if_pos (.inl hf), hf, List.nil_append]
    have hcomp : folder.components = [] := by
      rw [components, pieces, parts, hf]
      rfl
    simp only [dropLead?, startsWith, hjoin, hcomp, pieces_ofNames h0 hn, List.isPrefixOf, Bool.not_true,
      List.length_nil, dropComponents, List.isEmpty_nil, if_true, hend, hmap, Bool.false_eq_true, if_false]
    rfl
  · obtain ⟨first, rest, tail, hp, htail, hj⟩ := exists_pieces_join hf h0 hn
    have hcomp : folder.components = (leadPiece first :: rest.map innerPiece).filterMap (·.2) := by
      rw [components, hp, List.filterMap_append, htail, List.append_nil]
    have hpre : (folder.join (ofNames names)).startsWith folder = true := by
      rw [startsWith, List.isPrefixOf_iff_prefix, hcomp, components, hj, List.filterMap_append]
      exact List.prefix_append _ _
    have hne : folder.components.isEmpty = false := by
      obtain ⟨c, hc⟩ := Option.ne_none_iff_exists'.1 (leadPiece_ne_none first)
      rw [hcomp, List.filterMap_cons_some hc]
      rfl
    have hdrop := dropWhile_dropComponents (names.map innerPiece) (leadPiece first :: rest.map innerPiece)
    rw [← hcomp, ← hj, hstart] at hdrop
    simp only [dropLead?, hpre, hne, hdrop, hend, hmap, Bool.not_true, Bool.false_eq_true, if_false]
    rfl

end Path

/-! ### Steps that leave a file alone -/

namespace Step

open FileTree Annotation

/-- How the runs of a step are made. -/
def annotator : Step → Annotator
  | apply a _ => a
  | remove a _ => a
  | removeFrom a _ _ => a

/-- The paths that are handed in. -/
def paths : Step → List Path
  | apply _ targets => targets.filterMap (·.file)
  | remove _ targets => targets.filterMap (·.file)
  | removeFrom _ paths _ => paths

section

variable {a : Annotator} {files : FileTree} {l : Location} {t : Text} {p : Path}

/-- No group leads to a file if no target leads there whose file may be touched. -/
theorem groupsAt_eq_nil {targets : List Target}
    (h : ∀ p ∈ targets.filterMap (·.file), files.leadsTo p l → a.admits files p = false) :
    a.groupsAt files targets l = [] := by
  rw [Annotator.groupsAt, List.map_eq_nil_iff, List.filter_eq_nil_iff]
  intro g hg hl
  obtain ⟨x, hx, hadm⟩ := Annotator.exists_of_mem_groups g hg
  obtain ⟨hfile, hp⟩ := Option.filter_eq_some_iff.1 hadm
  rw [h g.1 (List.mem_filterMap.2 ⟨x, hx, hfile⟩) hl] at hp
  exact Bool.false_ne_true hp

/-- A file stays as it is if no path leads to it that may be touched. -/
theorem textAt_run_of_refused {s : Step} (ht : files.textAt l = some t)
    (h : ∀ p ∈ s.paths, files.leadsTo p l → s.annotator.admits files p = false) :
    (s.run files).textAt l = some t := by
  cases s with
  | apply a targets =>
    have hx := (Annotator.textAt_applyAll a targets ht).2
    have hnone : a.groupsAt files targets l = [] := groupsAt_eq_nil h
    rwa [hnone] at hx
  | remove a targets =>
    have hx := (Annotator.textAt_removeAll a targets ht).2
    have hnone : a.groupsAt files targets l = [] := groupsAt_eq_nil h
    rwa [hnone] at hx
  | removeFrom a paths tag =>
    have hx := (Annotator.textAt_removeFrom a tag paths { files := files } ht).2
    have hnone : (paths.filter fun p => a.admits files p && files.leadsTo p l) = [] := by
      refine List.filter_eq_nil_iff.2 fun p hp hl => ?_
      rw [Bool.and_eq_true] at hl
      exact Bool.false_ne_true ((h p hp hl.2).symm.trans hl.1)
    rwa [hnone] at hx

/-- Whether a file may be touched, for all that is known of its place. -/
theorem admits_eq_of_leadsTo (ht : files.textAt l = some t) (hl : files.leadsTo p l) :
    a.admits files p =
      ((a.allowOutside || (pathOf l).startsWith (Annotator.canonical files a.root)) && !a.isExcluded p) := by
  have hloc : files.locate p = .ok l := leadsTo_iff.1 hl
  have hfile : files.isFile p = true := by
    simp only [isFile, find?, hloc, textAt_eq_some_iff.1 ht]
  have hcan : Annotator.canonical files p = pathOf l := by
    rw [Annotator.canonical, canonical?, hloc]
    rfl
  rw [Annotator.admits, hfile, Annotator.isWithinRoot, hcan, Bool.true_and]

/-- A file is left alone if a glob describes its place below the root, and every path that leads to
it is that place, by itself or as it goes on from the root. -/
theorem textAt_run_of_joined {s : Step} (ht : files.textAt l = some t) {names : List Text} (h0 : names ≠ [])
    (hn : ∀ n ∈ names, Path.IsName n) (hg : ∃ g ∈ s.annotator.exclude, g.accepts (Path.ofNames names).text)
    (hs : ∀ p ∈ s.paths, files.leadsTo p l →
      p = Path.ofNames names ∨ p = s.annotator.root.join (Path.ofNames names)) :
    (s.run files).textAt l = some t := by
  refine textAt_run_of_refused ht fun p hp hl => ?_
  obtain ⟨g, hm, hg⟩ := hg
  have hex : s.annotator.isExcluded p = true := by
    refine List.any_eq_true.2 ⟨g, hm, ?_⟩
    rcases hs p hp hl with rfl | rfl
    · rw [hg, Bool.or_true]
    · rw [Path.dropLead?_join _ h0 hn, Option.getD_some, hg, Bool.true_or]
  rw [admits_eq_of_leadsTo ht hl, hex, Bool.not_true, Bool.and_false]

/-- A target below the first line of a file, whose annotation has `n` characters. -/
def longTarget (p : Path) (n : Nat) : Target where
  identifier := "long"
  file := some p
  anchor := .line (.literal [])
  tag := .schema
  payload := List.replicate n 'x'

theorem length_lt_block (p : Path) (n : Nat) : n < (longTarget p (n + 1)).block.length := by
  have hn : '\n' ∉ List.replicate (n + 1) 'x' := fun h => absurd (List.eq_of_mem_replicate h) (by decide)
  have hend : dropEndNewlines (List.replicate (n + 1) 'x') = List.replicate (n + 1) 'x' := by
    have h := dropEndWhile_append (p := isNewline) (a := List.replicate (n + 1) 'x') (b := []) (by simp) fun c hc => by
      rw [List.eq_of_mem_replicate (List.mem_of_getLast? hc)]
      decide
    rw [dropEndNewlines]
    simpa using h.1
  have hlines : (Block.ofText .schema (List.replicate (n + 1) 'x')).lines = [List.replicate (n + 1) 'x'] := by
    have hb : (List.replicate (n + 1) 'x').all isBlank = false := by
      rw [List.replicate_succ, List.all_cons]
      rfl
    have h : lines (joinLines ([] ++ [List.replicate (n + 1) 'x'])) =
        [].map dropReturn ++ [List.replicate (n + 1) 'x'] :=
      lines_joinLines hn (by simp) (by simp)
    simpa [Block.ofText, hb, hend, joinLines] using h
  have h0 : (Block.ofText .schema (List.replicate (n + 1) 'x')).lines ≠ [] := hlines ▸ List.cons_ne_nil _ _
  have hblock : (longTarget p (n + 1)).block = frame .schema [] [commentLine (List.replicate (n + 1) 'x')] := by
    rw [Target.block, longTarget, render_eq_frame h0, commentLines, hlines]
    rfl
  have hc : commentLine (List.replicate (n + 1) 'x') = Tag.commentSign :: ' ' :: List.replicate (n + 1) 'x' := by
    simp [commentLine]
  rw [hblock, frame_eq, List.map_singleton, paragraph_cons, hc]
  simp only [List.length_append, List.length_cons, List.length_replicate]
  omega

/-- An annotation longer than a file changes the file. -/
theorem rewrite_longTarget_ne {parse : Text → Index} {pos : Position} (h0 : t ≠ []) (p : Path) :
    (rewrite parse pos [longTarget p (t.length + 1)] t).1 ≠ t := by
  let target := longTarget p (t.length + 1)
  have hlong : t.length < target.block.length := length_lt_block p t.length
  have hany (x : Text) : (Pattern.literal []).isIn x = true := Pattern.isIn_literal_iff.2 ⟨[], x, rfl⟩
  have hup : ∃ before after, upsert target.tag target.block (Pattern.literal []).isIn t =
      spliceApart before target.block after := by
    rw [upsert, if_neg (List.length_pos_iff.1 (Nat.zero_lt_of_lt hlong))]
    split
    · exact ⟨_, _, rfl⟩
    · cases hr : rawLines t with
      | nil => exact absurd (rawLines_eq_nil_iff.1 hr) h0
      | cons l ls => exact ⟨[l].flatten, ls.flatten, by simp only [splitBelow?, hany, if_true]⟩
  obtain ⟨before, after, hup⟩ := hup
  have hlen : t.length < (upsert target.tag target.block (Pattern.literal []).isIn t).length := by
    rw [hup, spliceApart]
    simp only [List.length_append]
    omega
  have hanchor : target.anchor = .line (.literal []) := rfl
  have hdraft : draft parse pos [target] t =
      { text := upsert target.tag target.block (Pattern.literal []).isIn t, placed := ["long"] } := by
    rw [draft_of_line hanchor, Draft.afterLine]
    simp only [target, longTarget, hany, Bool.or_true, if_true, List.nil_append]
  have hfold : ¬ foldBlankRuns t = upsert target.tag target.block (Pattern.literal []).isIn t := by
    intro h
    have := (foldBlankRuns_sublist t).length_le
    rw [h] at this
    omega
  have hrw : (rewrite parse pos [target] t).1 = upsert target.tag target.block (Pattern.literal []).isIn t := by
    simp only [rewrite, hdraft, List.isEmpty_cons, Bool.false_or, beq_iff_eq, if_neg hfold]
  rw [hrw]
  intro h
  rw [h] at hlen
  exact Nat.lt_irrefl _ hlen

end

/-- A file at a place where files may be written is left alone by all runs that name it in certain
ways exactly if a glob describes each of these as it is written, or what follows the root in it. -/
theorem untouched_iff_excluded {a : Annotator} (hd : a.dryRun = false) {files : FileTree} {l : Location}
    {t : Text} (ht : files.textAt l = some t) (h0 : t ≠ [])
    (hin : a.allowOutside || (pathOf l).startsWith (Annotator.canonical files a.root)) (named : Path → Prop) :
    (∀ s : Step, s.annotator = a → (∀ p ∈ s.paths, files.leadsTo p l → named p) →
      (s.run files).textAt l = some t) ↔
    ∀ p, named p → files.leadsTo p l → ∃ g ∈ a.exclude,
      g.accepts ((Path.dropLead? a.root p).getD p).text ∨ g.accepts p.text := by
  have hadm : ∀ p, files.leadsTo p l → (a.admits files p = false ↔ ∃ g ∈ a.exclude,
      g.accepts ((Path.dropLead? a.root p).getD p).text ∨ g.accepts p.text) := by
    intro p hl
    rw [admits_eq_of_leadsTo ht hl, hin, Bool.true_and, Bool.not_eq_false', Annotator.isExcluded, List.any_eq_true]
    simp only [Bool.or_eq_true]
  constructor
  · intro h p hp hl
    by_contra hne
    have hp' : a.admits files p = true := by
      rw [← hadm p hl] at hne
      simpa using hne
    have hs := h (apply a [longTarget p (t.length + 1)]) rfl (by simp [paths, longTarget, hp])
    have hx := Annotator.textAt_applyAll_of_not_dryRun hd [longTarget p (t.length + 1)] ht
    rw [groupsAt_singleton rfl hp' hl] at hx
    exact rewrite_longTarget_ne h0 p (Option.some.inj (hx.symm.trans hs))
  · rintro h s rfl hs
    exact textAt_run_of_refused ht fun p hp hl => (hadm p hl).2 (h p (hs p hp hl) hl)

/-- A class in the folder of what comes from elsewhere. -/
def vendorFiles : FileTree where
  entries := [(["vendor".toList], .folder),
    (["vendor".toList, "user.rb".toList], .file (.text "class User\nend\n".toList))]

/-- Where the class lies. -/
def vendorUser : Location := ["vendor".toList, "user.rb".toList]

/-- An annotator that writes nothing that comes from elsewhere. -/
def vendorAnnotator : Annotator where
  root := ⟨".".toList⟩
  position := .before
  exclude := (Glob.ofText? "vendor/**".toList).toList
  parse := Index.ofSource

/-- The annotation of the class, with its file named from the root of all files. -/
def vendorTarget : Target where
  identifier := "User"
  file := some ⟨"/vendor/user.rb".toList⟩
  anchor := .declaration "User"
  tag := .schema
  payload := "id".toList

/-- A glob describes the place of the class below the root, and the class is annotated. -/
theorem excluded_file_written :
    vendorFiles.leadsTo vendorAnnotator.root [] ∧ vendorFiles.leadsTo ⟨"/vendor/user.rb".toList⟩ vendorUser ∧
      (∃ g ∈ vendorAnnotator.exclude, g.accepts (Path.ofNames vendorUser).text) ∧
      ∃ t t', vendorFiles.textAt vendorUser = some t ∧
        ((apply vendorAnnotator [vendorTarget]).run vendorFiles).textAt vendorUser = some t' ∧ t' ≠ t := by
  refine ⟨by decide, by decide, by decide, "class User\nend\n".toList,
    "# --- BEGIN annotate:schema ---\n# id\n# --- END annotate:schema ---\nclass User\nend\n".toList, ?_, ?_, ?_⟩ <;>
    decide +kernel

/-- Named by its place below the root, the class stays as it is. -/
theorem untouched_iff_excluded_vendor :
    vendorAnnotator.dryRun = false ∧ vendorFiles.textAt vendorUser = some "class User\nend\n".toList ∧
      "class User\nend\n".toList ≠ [] ∧
      (vendorAnnotator.allowOutside ||
        (pathOf vendorUser).startsWith (Annotator.canonical vendorFiles vendorAnnotator.root)) ∧
      ∀ s : Step, s.annotator = vendorAnnotator →
        (∀ p ∈ s.paths, vendorFiles.leadsTo p vendorUser → p = ⟨"vendor/user.rb".toList⟩) →
        (s.run vendorFiles).textAt vendorUser = some "class User\nend\n".toList := by
  have ht : vendorFiles.textAt vendorUser = some "class User\nend\n".toList := by decide
  have hin : (vendorAnnotator.allowOutside ||
      (pathOf vendorUser).startsWith (Annotator.canonical vendorFiles vendorAnnotator.root)) = true := by
    decide
  refine ⟨rfl, ht, by decide, hin, (untouched_iff_excluded rfl ht (by decide) hin
    fun p => p = ⟨"vendor/user.rb".toList⟩).2 ?_⟩
  rintro p rfl -
  decide

end Step
end Marginalia
