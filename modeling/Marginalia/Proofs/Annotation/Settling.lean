/-
# Runs of two producers

Two producers annotate one file with blocks of two tags, one after the other.
After that runs of either change nothing (`Annotator.applyAll_settled`), if the
first producer has one target alone, whose block is exchanged where it stands,
or if no blocks of the two go to the same place. Otherwise the first producer's
blocks are put in anew, next to their place, and so go past the second one's
(`Annotator.applyAll_not_settled`).

Key definitions: `Annotation.places`, `Annotation.Compatible`.
Key theorems: `Annotation.Producers.rewrite_first`, `Annotation.Producers.rewrite_second`,
`Annotator.applyAll_settled`.
-/
import Marginalia.Proofs.Annotation.Idempotence
import Marginalia.Proofs.Placement.Neighbours

namespace Marginalia

open Text Block

namespace Text

variable {t : Text}

/-- Code lines of a text without markers are outside all blocks. -/
theorem outside_lineOf (h : ¬ HoldsMarker t) {i : Nat} (hi : i < (codeLines t).length) : Outside t (lineOf t i) := by
  refine outside_of_le_length h (Nat.succ_ne_zero _) ?_
  rw [length_rows]
  exact codeIndex_lt_length hi

end Text

namespace Annotation

/-- The place of a target's block in a text, if it has a block and its class is found: at the top there
is one place for all, beside classes there is one a line. -/
def place? (parse : Text → Index) (pos : Position) (t : Text) (target : Target) : Option Nat :=
  if target.block = [] then none
  else (target.className?.bind (parse t).resolve?).map fun d =>
    if pos = .top then 0 else Placement.anchorLine pos d

/-- The places at which blocks of targets go into a text. -/
def places (parse : Text → Index) (pos : Position) (t : Text) (group : List Target) : List Nat :=
  group.filterMap (place? parse pos t)

/-- Two producers for a text without markers. -/
structure Producers (parse : Text → Index) (s s' : Tag) (first second : List Target) (t : Text) : Prop where
  /-- The tags are different. -/
  tags : s ≠ s'
  /-- The targets of the first one. -/
  oneTag : OneTag s first
  /-- The targets of the second one. -/
  oneTag' : OneTag s' second
  /-- All are placed at classes. -/
  classes : ∀ target ∈ first ++ second, target.pattern? = none
  /-- The text. -/
  unmarked : ¬ HoldsMarker t
  /-- The reader. -/
  steady : Index.Steady parse t

/-- The first producer has one target alone, or no place in common with the second one. -/
structure Compatible (parse : Text → Index) (pos : Position) (first second : List Target) (t : Text) : Prop where
  /-- One target, or no place in common. -/
  apart : first.length ≤ 1 ∨ ∀ i ∈ places parse pos t first, i ∉ places parse pos t second
  /-- Where the first one puts several blocks to the top, no directive stands below empty lines there. -/
  top : pos = .top → places parse pos t first ≠ [] → first.length ≤ 1 ∨ Directive.Clear t
  /-- Nor does one where the second one does so and the first one puts nothing there. -/
  top' : pos = .top → places parse pos t first = [] → places parse pos t second ≠ [] →
    second.length ≤ 1 ∨ Directive.Clear t

section

variable {parse : Text → Index} {pos : Position} {group : List Target} {tag : Tag} {t x : Text}

/-- The place of a block in a batch. -/
theorem mem_places {y : Declaration × Placement.Request} (hy : y ∈ batch parse pos tag group t)
    (h0 : y.2.block ≠ []) :
    (if pos = .top then 0 else Placement.anchorLine pos y.1) ∈ places parse pos t group := by
  obtain ⟨target, hm, -, hn, hb, hd⟩ := exists_of_mem_batch hy
  refine List.mem_filterMap.2 ⟨target, hm, ?_⟩
  rw [place?, if_neg (hb ▸ h0), hn, Option.bind_some, hd, Option.map_some]

/-- Without places there is nothing to put in. -/
theorem places_eq_nil_iff (hg : OneTag tag group) : places parse pos t group = [] ↔
    ∀ y ∈ batch parse pos tag group t, y.2.block = [] := by
  constructor
  · intro h y hy
    by_contra h0
    have hm := mem_places hy h0
    rw [h] at hm
    cases hm
  · intro h
    rw [places, List.filterMap_eq_nil_iff]
    intro target hm
    by_cases h0 : target.block = []
    · rw [place?, if_pos h0]
    · rw [place?, if_neg h0, Option.map_eq_none_iff, Option.bind_eq_none_iff]
      intro name hn
      by_contra hd
      obtain ⟨d, hd⟩ := Option.ne_none_iff_exists'.1 hd
      have hc : (target, name) ∈ atClasses tag group :=
        List.mem_filterMap.2 ⟨target, hm, by simp only [hn, hg.tag target hm, if_true]⟩
      refine h0 (h (d, { name := name, block := target.block }) ?_)
      rw [batch, Placement.bottomUp, List.mem_mergeSort]
      refine List.mem_filterMap.2 ⟨{ name := name, block := target.block }, ?_, by rw [hd]; rfl⟩
      exact List.mem_map.2 ⟨_, hc, rfl⟩

/-- Where there is nothing to put into a text, there is nothing to put into another one with its code. -/
theorem rewrite_of_places_eq_nil {u : Text} (hg : OneTag tag group) (hp : ∀ target ∈ group, target.pattern? = none)
    (hs : Index.Steady parse t) (hu : codeLines u = codeLines t) (hm : ¬ tag.beginMarker <:+: u)
    (h : places parse pos t group = []) : (rewrite parse pos group u).1 = u := by
  rw [places_eq_nil_iff hg] at h
  refine rewrite_of_empty hg hp hm fun y hy => ?_
  have hsame := Placement.map_snd_of_keeps₂ (forall₂_batch pos tag group hs rfl hu)
  have hmem : y.2 ∈ (batch parse pos tag group t).map (·.2) := hsame ▸ List.mem_map_of_mem hy
  obtain ⟨z, hz, hzy⟩ := List.mem_map.1 hmem
  rw [← hzy, h z hz]

theorem exists_sits_of_mem_batch (hs : Index.Steady parse t) :
    ∀ y ∈ batch parse pos tag group t, ∃ i j, y.1.Sits t i j := by
  intro y hy
  have hself := forall₂_batch pos tag group hs rfl rfl
  obtain ⟨i, j, hi, -⟩ := (List.forall₂_same.1 hself y hy).1.lines
  exact ⟨i, j, hi⟩

theorem codeLines_rewrite (hg : OneTag tag group) (hp : ∀ target ∈ group, target.pattern? = none)
    (hm : ¬ tag.beginMarker <:+: t) : codeLines (rewrite parse pos group t).1 = codeLines t := by
  rw [rewrite_of_fresh hg hp hm, Placement.codeLines_placeAll hg.isPlain]

/-- Putting blocks into a text without markers keeps the source. -/
theorem keeps_rewrite_of_unmarked (pos : Position) (hg : OneTag tag group)
    (hp : ∀ target ∈ group, target.pattern? = none)
    (hm : ¬ HoldsMarker t) (hs : Index.Steady parse t) : Keeps [tag] t (rewrite parse pos group t).1 := by
  rw [rewrite_of_fresh hg hp fun h => hm ⟨.opening tag, h⟩]
  refine Placement.keeps_insertAll (wellMarked_of_not_holdsMarker hm) (fun r hr => ?_) fun d hd => ?_
  · obtain ⟨p, hp, rfl⟩ := List.mem_map.1 hr
    refine (hg.unmarked p.1 (mem_atClasses hp).1).block.imp_right fun ⟨ls, hl, hb⟩ => ?_
    exact ⟨p.1.tag, List.mem_singleton.2 (mem_atClasses hp).2, ls, hl, hb⟩
  · obtain ⟨i, j, hi, -⟩ := (List.forall₂_same.1 (hs t t rfl rfl) d hd).lines
    rw [hi.line, hi.endLine]
    exact ⟨outside_lineOf hm hi.start_lt, outside_lineOf hm hi.stop_lt⟩

end

namespace Producers

variable {parse : Text → Index} {pos : Position} {s s' : Tag} {first second : List Target} {t : Text}

/-- The text once both producers have run. -/
def settled (parse : Text → Index) (pos : Position) (first second : List Target) (t : Text) : Text :=
  (rewrite parse pos second (rewrite parse pos first t).1).1

theorem classes_first (h : Producers parse s s' first second t) : ∀ target ∈ first, target.pattern? = none :=
  fun target hm => h.classes target (List.mem_append_left _ hm)

theorem classes_second (h : Producers parse s s' first second t) : ∀ target ∈ second, target.pattern? = none :=
  fun target hm => h.classes target (List.mem_append_right _ hm)

theorem lacks_marker (h : Producers parse s s' first second t) (tag : Tag) : ¬ tag.beginMarker <:+: t :=
  fun hm => h.unmarked ⟨.opening tag, hm⟩

/-- The first producer leaves a text for the second one. -/
theorem after_first (h : Producers parse s s' first second t) :
    WellMarked (rewrite parse pos first t).1 ∧ ¬ s'.beginMarker <:+: (rewrite parse pos first t).1 ∧
      codeLines (rewrite parse pos first t).1 = codeLines t := by
  have hk := keeps_rewrite_of_unmarked pos h.oneTag h.classes_first h.unmarked h.steady
  refine ⟨hk.1, ?_, codeLines_rewrite h.oneTag h.classes_first (h.lacks_marker s)⟩
  rw [hk.infix_iff (wellMarked_of_not_holdsMarker h.unmarked) (by simpa using h.tags.symm)]
  exact h.lacks_marker s'

theorem codeLines_settled (h : Producers parse s s' first second t) :
    codeLines (settled parse pos first second t) = codeLines t := by
  obtain ⟨-, hm, hc⟩ := h.after_first
  rw [settled, codeLines_rewrite h.oneTag' h.classes_second hm, hc]

/-- The second producer leaves what it brought. -/
theorem rewrite_second (h : Producers parse s s' first second t)
    (htop : pos = .top → places parse pos t first = [] → places parse pos t second ≠ [] →
      second.length ≤ 1 ∨ Directive.Clear t) :
    (rewrite parse pos second (settled parse pos first second t)).1 = settled parse pos first second t := by
  obtain ⟨hw, hm, hc⟩ := h.after_first
  by_cases hsec : places parse pos t second = []
  · have hx := rewrite_of_places_eq_nil h.oneTag' h.classes_second h.steady hc hm hsec
    rw [settled, hx, hx]
  have hr : removeAll s' (rewrite parse pos first t).1 = (rewrite parse pos first t).1 :=
    removeAll_of_not_isIn (by rw [isIn, Excerpt.find?_eq_none hm]; rfl)
  refine rewrite_rewrite_of_declarations h.oneTag' h.classes_second hw ?_ fun hp => ?_
  · rw [hr]
    exact h.steady.of_codeLines hc
  · rw [hr]
    by_cases hfst : places parse pos t first = []
    · rw [rewrite_of_places_eq_nil h.oneTag h.classes_first h.steady rfl (h.lacks_marker s) hfst]
      exact htop hp hfst hsec
    · rw [places_eq_nil_iff h.oneTag] at hfst
      subst hp
      rw [rewrite_of_fresh h.oneTag h.classes_first (h.lacks_marker s)]
      have hhead := Placement.placeAll_top_induction (P := fun u => u.head? ≠ some '\n') (t := t)
        (h.oneTag.isPlain : ∀ y ∈ batch parse .top s first t, Placement.IsPlain s y.2.block)
        (fun u _ hb => Placement.head?_atTop hb u)
        (.inr (by simpa using hfst))
      exact .inr (Directive.clear_of_head? hhead)

/-- The only block of the first producer stays where it is. -/
theorem rewrite_first_of_lone {target : Target} (h : Producers parse s s' [target] second t)
    (hne : ∃ y ∈ batch parse pos s [target] t, y.2.block ≠ []) :
    (rewrite parse pos [target] (settled parse pos [target] second t)).1 =
      settled parse pos [target] second t := by
  obtain ⟨-, hm, hc'⟩ := h.after_first
  obtain ⟨a, c, cs, name, hn, hb, hc, hr, hamid⟩ :=
    exists_amid_anew h.oneTag h.classes_first (h.lacks_marker s) hne
  rw [text_anew, ← rewrite_of_fresh h.oneTag h.classes_first (h.lacks_marker s)] at hamid
  have hplain : ∀ y ∈ batch parse pos s' second (rewrite parse pos [target] t).1,
      Placement.IsPlain s' y.2.block := h.oneTag'.isPlain
  obtain ⟨a', c', hamid'⟩ := hamid.placeAll hc h.tags hplain (Placement.pairwise_bottomUp pos _)
    (exists_sits_of_mem_batch (h.steady.of_codeLines hc'))
  rw [← rewrite_of_fresh h.oneTag' h.classes_second hm] at hamid'
  exact rewrite_of_amid (h.oneTag.tag target List.mem_cons_self) hn hb hc hr hamid'
    (h.steady.of_codeLines h.codeLines_settled)

theorem symm (h : Producers parse s s' first second t) : Producers parse s' s second first t where
  tags := h.tags.symm
  oneTag := h.oneTag'
  oneTag' := h.oneTag
  classes := List.forall_mem_append.2 ⟨h.classes_second, h.classes_first⟩
  unmarked := h.unmarked
  steady := h.steady

/-- Blocks that go to different places may be put in in either order. -/
theorem settled_comm (h : Producers parse s s' first second t) (hp : pos ≠ .top)
    (hd : ∀ i ∈ places parse pos t first, i ∉ places parse pos t second) :
    settled parse pos first second t = settled parse pos second first t := by
  obtain ⟨-, hm₁, hc₁⟩ := h.after_first
  obtain ⟨-, hm₂, hc₂⟩ := h.symm.after_first
  obtain ⟨ps, hps, hw₁, hw₁'⟩ := Placement.exists_weave hp h.oneTag.isPlain
    (Placement.pairwise_bottomUp pos _) hc₂ (forall₂_batch pos s first h.steady rfl hc₂)
  obtain ⟨qs, hqs, hw₂, hw₂'⟩ := Placement.exists_weave hp h.oneTag'.isPlain
    (Placement.pairwise_bottomUp pos _) hc₁ (forall₂_batch pos s' second h.steady rfl hc₁)
  have hf (i : Nat) : Placement.AreFrames s (Placement.gather s pos (codeLines t) ps i) :=
    Placement.areFrames_gather (fun p hm => (hps p hm).1) i
  have hg (i : Nat) : Placement.AreFrames s' (Placement.gather s' pos (codeLines t) qs i) :=
    Placement.areFrames_gather (fun q hm => (hqs q hm).1) i
  have hapart (i : Nat) : Placement.gather s pos (codeLines t) ps i = [] ∨
      Placement.gather s' pos (codeLines t) qs i = [] := by
    by_contra hne
    rw [not_or] at hne
    obtain ⟨p, hpm, hpi⟩ := Placement.exists_of_gather_ne_nil hne.1
    obtain ⟨q, hqm, hqi⟩ := Placement.exists_of_gather_ne_nil hne.2
    obtain ⟨-, x, hx, hx0, hxl⟩ := hps p hpm
    obtain ⟨-, y, hy, hy0, hyl⟩ := hqs q hqm
    have hxp := mem_places hx hx0
    have hyp := mem_places hy hy0
    rw [if_neg hp, hxl, hpi] at hxp
    rw [if_neg hp, hyl, hqi] at hyp
    exact hd _ hxp hyp
  rw [← rewrite_of_fresh h.oneTag h.classes_first (h.lacks_marker s)] at hw₁
  rw [← rewrite_of_fresh h.oneTag' h.classes_second (h.lacks_marker s')] at hw₂
  rw [← rewrite_of_fresh h.oneTag h.classes_first hm₂] at hw₁'
  rw [← rewrite_of_fresh h.oneTag' h.classes_second hm₁] at hw₂'
  rw [settled, settled, hw₂', hw₁', hw₁, hw₂]
  exact Placement.weave_comm (fun i => (hf i).whole) (fun i => (hg i).whole) (fun i => (hf i).isNote)
    (fun i => (hg i).isNote) hapart t

/-- The first producer leaves the text once both have run. -/
theorem rewrite_first (h : Producers parse s s' first second t) (hs : Compatible parse pos first second t) :
    (rewrite parse pos first (settled parse pos first second t)).1 = settled parse pos first second t := by
  obtain ⟨-, hm, hc⟩ := h.after_first
  by_cases hfst : places parse pos t first = []
  · -- nothing is put in, so the begin marker is not there
    have hx := rewrite_of_places_eq_nil h.oneTag h.classes_first h.steady rfl (h.lacks_marker s) hfst
    have hk := keeps_rewrite_of_unmarked pos h.oneTag' h.classes_second h.unmarked h.steady
    refine rewrite_of_places_eq_nil h.oneTag h.classes_first h.steady h.codeLines_settled ?_ hfst
    rw [settled, hx, hk.infix_iff (wellMarked_of_not_holdsMarker h.unmarked) (by simpa using h.tags)]
    exact h.lacks_marker s
  by_cases hsec : places parse pos t second = []
  · -- the second one puts nothing in
    have hx := rewrite_of_places_eq_nil h.oneTag' h.classes_second h.steady hc hm hsec
    have hr : removeAll s t = t := removeAll_of_not_isIn (by rw [isIn, Excerpt.find?_eq_none (h.lacks_marker s)]; rfl)
    rw [settled, hx]
    refine rewrite_rewrite_of_declarations h.oneTag h.classes_first (wellMarked_of_not_holdsMarker h.unmarked) ?_
      fun hp => ?_
    · rw [hr]
      exact h.steady
    · rw [hr]
      exact hs.top hp hfst
  rw [places_eq_nil_iff h.oneTag] at hfst
  rw [places_eq_nil_iff h.oneTag'] at hsec
  simp only [not_forall, exists_prop] at hfst hsec
  obtain ⟨x, hx, hx0⟩ := hfst
  obtain ⟨y, hy, hy0⟩ := hsec
  rcases hs.apart with hlen | hd
  · obtain ⟨target, rfl⟩ : ∃ target, first = [target] := by
      obtain ⟨target, hm, -⟩ := exists_of_mem_batch hx
      exact List.length_eq_one_iff.1 (Nat.le_antisymm hlen (List.length_pos_of_mem hm))
    exact h.rewrite_first_of_lone ⟨x, hx, hx0⟩
  · have hp : pos ≠ .top := by
      intro hp
      have hxp := mem_places hx hx0
      have hyp := mem_places hy hy0
      rw [if_pos hp] at hxp hyp
      exact hd _ hxp hyp
    rw [h.settled_comm hp hd]
    exact h.symm.rewrite_second fun ht => absurd ht hp

end Producers

end Annotation

namespace Annotator

open FileTree Annotation

variable {a : Annotator} {files : FileTree} {l : Location} {p : Path} {t : Text} {first second targets : List Target}
  {s s' : Tag}

/-- Targets of one file are skipped, if rewriting its text for them leaves it. -/
theorem applyAll_of_rewrite_eq (hf : ∀ x ∈ targets, x.file = some p) (hr : files.read p = .ok t)
    (h : a.admits files p → (rewrite a.parse a.position targets t).1 = t) :
    a.applyAll files targets = { tally := { skipped := targets.map (·.identifier) }, files := files } := by
  show a.overGroups a.applyGroup files targets = _
  by_cases hp : a.admits files p
  · by_cases h0 : targets = []
    · subst h0
      rfl
    · have hread : read files p = .ok t := by rw [read, hr]; rfl
      have hg := groups_of_file hf hp h0
      have hperm := refused_append_perm a files targets
      have hnone : a.refused files targets = [] := by
        rw [refused, List.filter_eq_nil_iff.2 fun x hx => ?_, List.map_nil]
        rw [admitted?, hf x hx, Option.filter_some, if_pos hp]
        exact Bool.false_ne_true
      rw [overGroups, hg, hnone, foldl_extend_of_skipped (?_ : ∀ g ∈ [(p, targets)], a.applyGroup files g.1 g.2 = _) []]
      · simp
      · rw [List.forall_mem_singleton]
        exact applyGroup_of_rewrite_eq hread (h hp)
  · obtain ⟨hg, hrefused⟩ := groups_of_refused hf hp
    rw [overGroups, hg, hrefused]
    rfl

/-- Once two producers have annotated a file, runs of either, in any order and number, change nothing: each
leaves all files, reports no change and skips all targets. -/
theorem applyAll_settled (hd : a.dryRun = false) (hf : ∀ x ∈ first ++ second, x.file = some p)
    (ht : files.read p = .ok t) (hc : Producers a.parse s s' first second t)
    (hs : Compatible a.parse a.position first second t) :
    let settled := Step.runAll files [.apply a first, .apply a second]
    (∀ targets, targets = first ∨ targets = second → a.applyAll settled targets =
      { tally := { skipped := targets.map (·.identifier) }, files := settled }) ∧
    ∀ again : List (List Target), (∀ targets ∈ again, targets = first ∨ targets = second) →
      Step.runAll settled (again.map (.apply a)) = settled := by
  intro settled
  obtain ⟨l, hl, hx⟩ := read_eq_ok_iff.1 ht
  rw [List.forall_mem_append] at hf
  have hshape : SameShape files settled :=
    (applyGroup_does a).sameShape_overGroups files first |>.trans
      ((applyGroup_does a).sameShape_overGroups (a.applyAll files first).files second)
  have hskip : ∀ targets, targets = first ∨ targets = second → a.applyAll settled targets =
      { tally := { skipped := targets.map (·.identifier) }, files := settled } := by
    intro targets hm
    have hfile : ∀ x ∈ targets, x.file = some p := by
      rcases hm with rfl | rfl
      · exact hf.1
      · exact hf.2
    by_cases hp : a.admits files p
    · have hshape₁ : SameShape files (a.applyAll files first).files :=
        (applyGroup_does a).sameShape_overGroups files first
      have h₁ := textAt_applyAll_of_file hd hf.1 hp (leadsTo_iff.2 hl) hx
      have h₂ := textAt_applyAll_of_file hd hf.2 (by rwa [admits_eq hshape₁])
        (by rw [hshape₁.leadsTo_eq]; exact leadsTo_iff.2 hl) h₁
      have hread : settled.read p = .ok (Producers.settled a.parse a.position first second t) :=
        read_eq_ok_iff.2 ⟨l, by rw [hshape.locate_eq, hl], h₂⟩
      refine applyAll_of_rewrite_eq hfile hread fun _ => ?_
      rcases hm with rfl | rfl
      · exact hc.rewrite_first hs
      · exact hc.rewrite_second hs.top'
    · have hsame : settled = files := by
        have h₁ := applyAll_of_rewrite_eq hf.1 ht fun h => absurd h hp
        have h₂ := applyAll_of_rewrite_eq hf.2 ht fun h => absurd h hp
        show (a.applyAll (a.applyAll files first).files second).files = files
        rw [h₁, h₂]
      rw [hsame]
      exact applyAll_of_rewrite_eq hfile ht fun h => absurd h hp
  refine ⟨hskip, fun again hagain => ?_⟩
  induction again with
  | nil => rfl
  | cons targets again ih =>
    rw [List.forall_mem_cons] at hagain
    have hrun : (Step.apply a targets).run settled = settled := by rw [Step.run, hskip targets hagain.1]
    show Step.runAll ((Step.apply a targets).run settled) (again.map (.apply a)) = settled
    rw [hrun]
    exact ih hagain.2

/-! ### Models and mailers in one file -/

/-- The classes of two models and of a mailer. -/
def threeClasses : Text := "class User\nend\nclass Role\nend\nclass UserMailer\nend\n".toList

/-- The classes with a directive below an empty line. -/
def sunkClasses : Text := "\n# frozen_string_literal: true\n".toList ++ threeClasses

/-- The targets of the models. -/
def modelTargets : List Target :=
  [Step.userTarget "User" (.declaration "User") .schema "id", Step.userTarget "Role" (.declaration "Role") .schema "id"]

/-- The target of the mailer. -/
def mailerTargets : List Target := [Step.userTarget "UserMailer" (.declaration "UserMailer") .mailer "welcome"]

/-- The targets of two models, of which one has no class in the file. -/
def strayModelTargets : List Target :=
  [Step.userTarget "User" (.declaration "User") .schema "id",
    Step.userTarget "Ghost" (.declaration "Ghost") .schema "id"]

/-- A target of a mailer at the class of a model. -/
def sharedTargets : List Target := [Step.userTarget "Welcome" (.declaration "User") .mailer "welcome"]

/-- A target whose comment ends with a carriage return. -/
def returnTargets : List Target := [Step.userTarget "User" (.declaration "User") .schema "id\r"]

/-- A class on the line on which a here document begins. -/
def openedClass : Text := "class User; end; SQL = <<T\nselect\nT\n".toList

/-- A target whose comment declares a class where it is read as text of a here document. -/
def declaringTargets : List Target :=
  [Step.userTarget "User" (.declaration "User") .schema "#\x7bclass Role; end\x7d"]

/-- A target of a mailer at that class. -/
def declaredTargets : List Target := [Step.userTarget "Role" (.declaration "Role") .mailer "welcome"]

theorem applyAll_settled_users :
    let a := { Step.rubyAnnotator .before with parse := Index.ofCode }
    let files := FileTree.single "user.rb".toList threeClasses
    (Index.ofCode threeClasses).classes = (Index.ofSource threeClasses).classes ∧ a.dryRun = false ∧
      (∀ x ∈ modelTargets ++ mailerTargets, x.file = some ⟨"user.rb".toList⟩) ∧
      files.read ⟨"user.rb".toList⟩ = .ok threeClasses ∧
      Producers a.parse .schema .mailer modelTargets mailerTargets threeClasses ∧
      Compatible a.parse a.position modelTargets mailerTargets threeClasses ∧
      let settled := Step.runAll files [.apply a modelTargets, .apply a mailerTargets]
      (∀ targets, targets = modelTargets ∨ targets = mailerTargets → a.applyAll settled targets =
        { tally := { skipped := targets.map (·.identifier) }, files := settled }) ∧
      ∀ again : List (List Target), (∀ targets ∈ again, targets = modelTargets ∨ targets = mailerTargets) →
        Step.runAll settled (again.map (.apply a)) = settled := by
  intro a files
  have hfile : ∀ x ∈ modelTargets ++ mailerTargets, x.file = some ⟨"user.rb".toList⟩ := by decide
  have hreturn : ∀ x ∈ modelTargets ++ mailerTargets, '\r' ∉ x.payload := by decide
  have hread : files.read ⟨"user.rb".toList⟩ = .ok threeClasses :=
    FileTree.read_single (by decide) (by decide) threeClasses
  rw [List.forall_mem_append] at hreturn
  have hc : Producers a.parse .schema .mailer modelTargets mailerTargets threeClasses := {
    tags := by decide
    oneTag := ⟨by decide, .inl (by decide), by decide,
      fun x hx => x.plain_of_not_mem (hreturn.1 x hx)⟩
    oneTag' := ⟨by decide, .inl (by decide), by decide,
      fun x hx => x.plain_of_not_mem (hreturn.2 x hx)⟩
    classes := by decide
    unmarked := by
      unfold threeClasses
      repeat rewrite [String.toList_ofList]
      decide
    steady := Index.steady_ofCode _ }
  have hs : Compatible a.parse a.position modelTargets mailerTargets threeClasses := by
    refine ⟨.inr ?_, nofun, nofun⟩
    unfold a threeClasses
    repeat rewrite [String.toList_ofList]
    decide
  refine ⟨?_, rfl, hfile, hread, hc, hs, applyAll_settled rfl hfile hread hc hs⟩
  unfold threeClasses
  repeat rewrite [String.toList_ofList]
  decide

/-- The changes that the first of two producers reports once both have annotated the file. -/
def changesAgain (a : Annotator) (t : Text) (first second : List Target) : List FileChange :=
  let settled := Step.runAll (FileTree.single "user.rb".toList t) [.apply a first, .apply a second]
  (a.applyAll settled first).tally.changes

/-- A producer changes the file again if it has several targets and one of them shares its place with the
other producer, if its comment ends with a carriage return, if it has several targets and puts a block
above a directive that stands below an empty line, and if its comment declares the class of the other one's
block. A dry run reports its changes again. -/
theorem applyAll_not_settled :
    (∀ t ∈ [threeClasses, sunkClasses, openedClass], ¬ HoldsMarker t) ∧
    (∀ x ∈ strayModelTargets ++ returnTargets ++ declaringTargets,
      x.tag = .schema ∧ x.pattern? = none ∧ x.Unmarked) ∧
    (∀ x ∈ sharedTargets ++ mailerTargets ++ declaredTargets, x.tag = .mailer ∧ x.pattern? = none ∧ x.Unmarked) ∧
    (∀ x ∈ strayModelTargets ++ returnTargets ++ declaringTargets ++ sharedTargets ++ mailerTargets ++
      declaredTargets, x.file = some ⟨"user.rb".toList⟩) ∧
    (∀ pos ∈ [Position.top, .before, .after],
      changesAgain (Step.rubyAnnotator pos) threeClasses strayModelTargets sharedTargets ≠ []) ∧
    changesAgain (Step.rubyAnnotator .before) threeClasses returnTargets mailerTargets ≠ [] ∧
    changesAgain (Step.rubyAnnotator .top) sunkClasses strayModelTargets [] ≠ [] ∧
    changesAgain (Step.rubyAnnotator .after) openedClass declaringTargets declaredTargets ≠ [] ∧
    changesAgain { Step.rubyAnnotator .before with dryRun := true } threeClasses mailerTargets [] ≠ [] := by
  -- the texts are spelled out, as a literal is decoded anew wherever it is compared
  unfold sunkClasses threeClasses openedClass
  repeat rewrite [String.toList_ofList]
  refine ⟨?_, ?_, ?_, ?_, ?_, ?_, ?_, ?_, ?_⟩ <;> decide +kernel

end Annotator
end Marginalia
