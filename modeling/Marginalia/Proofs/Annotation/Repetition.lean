/-
# A group put into a file once more

Targets of one tag are put into a text by exchanging the only block or by
putting all blocks in anew. If that is done once more, the only block is
exchanged for itself, and blocks that are put in anew come out as they were,
but for folded blank runs, by which a rewrite is not told from none. So a
second rewrite leaves the text (`Annotation.rewrite_rewrite`).

Key definitions: `Annotation.OneTag`, `Annotation.Ready`, `Annotation.batch`.
Key theorems: `Annotation.rewrite_of_amid`, `Annotation.rewrite_rewrite`.
-/
import Marginalia.Proofs.Annotation.Stages
import Marginalia.Proofs.Placement.Patching

namespace Marginalia

open Text Block

namespace Target

/-- No comment line of the annotation ends with a carriage return. -/
def Plain (t : Target) : Prop := ∀ l ∈ (Block.ofText t.tag t.payload).lines, l.getLast? ≠ some '\r'

instance (t : Target) : Decidable t.Plain := inferInstanceAs (Decidable (∀ _ ∈ _, _))

variable {target : Target}

theorem Plain.commentLines (h : target.Plain) :
    ∀ l ∈ (Block.ofText target.tag target.payload).commentLines, l.getLast? ≠ some '\r' := by
  intro l' hl'
  obtain ⟨l, hl, rfl⟩ := List.mem_map.1 hl'
  unfold commentLine
  split
  · decide
  · next h0 =>
    have hlast : (Tag.commentSign :: ' ' :: l).getLast? = l.getLast? :=
      List.getLast?_append_of_ne_nil [Tag.commentSign, ' '] h0
    rw [hlast]
    exact h l hl

/-- The lines of a payload without carriage returns end with none. -/
theorem plain_of_not_mem (h : '\r' ∉ target.payload) : target.Plain := by
  intro l hl hr
  simp only [Block.ofText] at hl
  split at hl
  · cases hl
  · refine h ?_
    rw [← dropEndWhile_append_takeEndWhile isNewline target.payload]
    exact List.mem_append_left _ (subset_of_mem_lines hl (List.mem_of_getLast? hr))

/-- The block of a target is a frame without carriage returns at line ends, or there is none. -/
theorem isPlain_block (hu : target.Unmarked) (hr : target.Plain) :
    Placement.IsPlain target.tag target.block := by
  by_cases h0 : (Block.ofText target.tag target.payload).lines = []
  · exact .inl (render_eq_nil_iff.2 h0)
  · exact .inr ⟨_, hu.commentLines, hr.commentLines, render_eq_frame h0⟩

end Target

namespace Annotation

/-- The targets come from one producer: all have the tag, and either all are placed at classes or
there is one alone, at a line. Their comment lines hold no markers and end with no carriage returns. -/
structure OneTag (tag : Tag) (group : List Target) : Prop where
  /-- The tag. -/
  tag : ∀ target ∈ group, target.tag = tag
  /-- Where they are placed. -/
  anchors : (∀ target ∈ group, target.pattern? = none) ∨ ∃ target, group = [target]
  /-- There are no markers in the comment lines. -/
  unmarked : ∀ target ∈ group, target.Unmarked
  /-- There are no carriage returns at their ends. -/
  plain : ∀ target ∈ group, target.Plain

/-- The text can be annotated at the position over and over: its markers pair up, adding and deleting
notes does not change what is read from the code around the blocks of the tag, and without these
blocks no empty line is at the top, if that is the place. -/
structure Ready (parse : Text → Index) (pos : Position) (tag : Tag) (t : Text) : Prop where
  /-- The markers. -/
  marked : WellMarked t
  /-- The reader. -/
  steady : Index.Steady parse (removeAll tag t)
  /-- The first line. -/
  head : pos = .top → (removeAll tag t).head? ≠ some '\n'

/-- The blocks of targets at classes with the classes, from the bottom up. -/
def batch (parse : Text → Index) (pos : Position) (tag : Tag) (group : List Target) (t : Text) :
    List (Declaration × Placement.Request) :=
  Placement.bottomUp pos (Placement.resolved (parse t)
    ((atClasses tag group).map fun p => { name := p.2, block := p.1.block }))

section

variable {parse : Text → Index} {pos : Position} {group : List Target} {tag : Tag} {t u v x : Text}
  {target : Target} {name : String}

theorem text_anew (parse : Text → Index) (pos : Position) (tag : Tag) (group : List Target) (t : Text) :
    (anew parse pos tag group t).text = Placement.placeAll pos t (batch parse pos tag group t) := rfl

/-- A block of the batch is that of a target whose class is found. -/
theorem exists_of_mem_batch {y : Declaration × Placement.Request} (h : y ∈ batch parse pos tag group t) :
    ∃ target ∈ group, target.tag = tag ∧ target.className? = some y.2.name ∧ y.2.block = target.block ∧
      (parse t).resolve? y.2.name = some y.1 := by
  obtain ⟨r, hr, hy⟩ := List.mem_filterMap.1 (List.mem_mergeSort.1 h)
  obtain ⟨d, hd, rfl⟩ := Option.map_eq_some_iff.1 hy
  obtain ⟨p, hp, rfl⟩ := List.mem_map.1 hr
  exact ⟨p.1, (mem_atClasses hp).1, (mem_atClasses hp).2, className?_of_mem_atClasses hp, rfl, hd⟩

/-- No target is placed if no class is found. -/
theorem placed_anew_eq_nil_iff :
    (anew parse pos tag group t).placed = [] ↔ batch parse pos tag group t = [] := by
  have hp : (anew parse pos tag group t).placed = ((atClasses tag group).filter fun p =>
      (((batch parse pos tag group t).map (·.2.name)).reverse).contains p.2).map (·.1.identifier) := rfl
  rw [hp, List.map_eq_nil_iff]
  constructor
  · intro h
    rw [List.eq_nil_iff_forall_not_mem]
    intro y hy
    obtain ⟨target, hm, ht, hn, -, -⟩ := exists_of_mem_batch hy
    have hc : (target, y.2.name) ∈ atClasses tag group :=
      List.mem_filterMap.2 ⟨target, hm, by simp only [hn, ht, if_true]⟩
    refine List.filter_eq_nil_iff.1 h _ hc ?_
    rw [List.contains_iff_mem, List.mem_reverse]
    exact List.mem_map_of_mem (f := fun y : Declaration × Placement.Request => y.2.name) hy
  · intro h
    rw [h]
    exact List.filter_eq_nil_iff.2 fun _ _ => by simp

theorem OneTag.isPlain (hg : OneTag tag group) : ∀ y ∈ batch parse pos tag group t,
    Placement.IsPlain tag y.2.block := by
  intro y hy
  obtain ⟨target, hm, ht, -, hb, -⟩ := exists_of_mem_batch hy
  rw [hb, ← ht]
  exact target.isPlain_block (hg.unmarked target hm) (hg.plain target hm)

/-- The same classes are found where the code is the same. -/
theorem forall₂_batch (pos : Position) (tag : Tag) (group : List Target) (hs : Index.Steady parse t)
    (hu : codeLines u = codeLines t) (hv : codeLines v = codeLines t) :
    List.Forall₂ (Placement.Keeps₂ u v) (batch parse pos tag group u) (batch parse pos tag group v) :=
  Placement.forall₂_bottomUp pos (Placement.forall₂_resolved (hs u v hu hv) _)

theorem atClasses_singleton (ht : target.tag = tag) (hn : target.className? = some name) :
    atClasses tag [target] = [(target, name)] := by
  simp [atClasses, hn, ht]

/-- The batch of one target is its block, if its class is found. -/
theorem batch_singleton (ht : target.tag = tag) (hn : target.className? = some name) :
    batch parse pos tag [target] t =
      (((parse t).resolve? name).map fun d => (d, { name := name, block := target.block })).toList := by
  rw [batch, atClasses_singleton ht hn]
  simp only [List.map_cons, List.map_nil, Placement.resolved, List.filterMap_cons, List.filterMap_nil]
  cases (parse t).resolve? name with
  | none => exact List.mergeSort_nil
  | some d => exact List.mergeSort_singleton _

theorem exchange?_eq_some_iff : exchange? parse t target name = some x ↔
    (target.block ≠ [] ∧ count target.tag t = 1) ∧ ((parse t).resolve? name).isSome ∧
      replace? target.tag target.block t = some x := by
  unfold exchange?
  split
  · next h =>
    exact ⟨nofun, fun ⟨⟨h₁, h₂⟩, _⟩ => absurd h (not_or.2 ⟨h₁, not_not.2 h₂⟩)⟩
  · next h =>
    rw [not_or, not_not] at h
    split
    · next hn =>
      rw [Option.isNone_iff_eq_none] at hn
      simp [hn]
    · next hn =>
      rw [Bool.not_eq_true, Option.isNone_eq_false_iff] at hn
      simp [h, hn]

/-- A text without begin markers gets the blocks of the targets whose classes are found. -/
theorem rewrite_of_fresh (hg : OneTag tag group) (hp : ∀ target ∈ group, target.pattern? = none)
    (hm : ¬ tag.beginMarker <:+: t) :
    (rewrite parse pos group t).1 = Placement.placeAll pos t (batch parse pos tag group t) := by
  by_cases h0 : group = []
  · subst h0
    have hb : batch parse pos tag [] t = [] := List.mergeSort_nil
    rw [hb]
    exact rewrite_eq_self (.inl rfl)
  have hd : draft parse pos group t = anew parse pos tag group t := by
    rcases draft_of_declarations parse pos hg.tag hp h0 t with
      ⟨target, name, x, rfl, hn, hx, -⟩ | ⟨-, hd⟩
    · obtain ⟨-, -, hrep⟩ := exchange?_eq_some_iff.1 hx
      rw [hg.tag target List.mem_cons_self, replace?, Excerpt.find?_eq_none hm] at hrep
      cases hrep
    · rwa [removeAll_of_not_isIn (by rw [isIn, Excerpt.find?_eq_none hm]; rfl)] at hd
  by_cases hne : ∃ y ∈ batch parse pos tag group t, y.2.block ≠ []
  · have hlt := Placement.length_solidLines_placeAll pos hg.isPlain hne t
    simp only [rewrite, hd]
    split
    · next h =>
      exfalso
      simp only [Bool.or_eq_true, List.isEmpty_iff, beq_iff_eq, placed_anew_eq_nil_iff] at h
      rcases h with h | h
      · obtain ⟨y, hy, -⟩ := hne
        rw [h] at hy
        cases hy
      · rw [← text_anew, ← h, solidLines_foldBlankRuns] at hlt
        exact Nat.lt_irrefl _ hlt
    · rw [text_anew]
  · have hx : (anew parse pos tag group t).text = t := by
      rw [text_anew]
      exact Placement.placeAll_of_eq_nil (by simpa using hne) t
    rw [← text_anew, hx]
    exact rewrite_eq_self (.inr (.inl (by rw [hd, hx])))

/-- A text without begin markers gets nothing where there is nothing to put in. -/
theorem rewrite_of_empty (hg : OneTag tag group) (hp : ∀ target ∈ group, target.pattern? = none)
    (hm : ¬ tag.beginMarker <:+: t) (h : ∀ y ∈ batch parse pos tag group t, y.2.block = []) :
    (rewrite parse pos group t).1 = t := by
  rw [rewrite_of_fresh hg hp hm, Placement.placeAll_of_eq_nil h]

/-- The only block of a tag is left by the one target that has it. -/
theorem rewrite_of_amid {a c : Text} {cs : List Text} (ht : target.tag = tag)
    (hn : target.className? = some name) (hb : target.block = frame tag [] cs) (hc : CommentLines cs)
    (hr : ∀ l ∈ cs, l.getLast? ≠ some '\r') (hx : Amid tag cs a c x) (hs : Index.Steady parse x) :
    (rewrite parse pos [target] x).1 = x := by
  have htags : ∀ target' ∈ [target], target'.tag = tag := by simpa using ht
  have hps : ∀ target' ∈ [target], target'.pattern? = none := by
    simpa using pattern?_eq_none_iff.2 ⟨name, hn⟩
  rcases draft_of_declarations parse pos htags hps (by simp) x with
    ⟨target', name', x', hg, -, he, hd⟩ | ⟨hno, hd⟩
  · obtain rfl : target = target' := List.singleton_inj.1 hg
    have hx' := (exchange?_eq_some_iff.1 he).2.2
    rw [ht, hb, hx.replace?_eq hc hr] at hx'
    exact rewrite_eq_self (.inr (.inl (by rw [hd, ← Option.some.inj hx'])))
  · have hnone : (parse x).resolve? name = none := by
      rw [← Option.not_isSome_iff_eq_none]
      intro hsome
      have he : exchange? parse x target name = some x := exchange?_eq_some_iff.2
        ⟨⟨by rw [hb]; exact frame_ne_nil, by rw [ht, hx.count_eq hc]⟩, hsome,
          by rw [ht, hb, hx.replace?_eq hc hr]⟩
      rw [hno target name rfl hn] at he
      cases he
    have hrest : batch parse pos tag [target] (removeAll tag x) = [] := by
      have hlen := (forall₂_batch pos tag [target] hs rfl
        (hx.codeLines_removeAll hc)).length_eq
      rw [batch_singleton ht hn, hnone] at hlen
      exact List.length_eq_zero_iff.1 hlen.symm
    exact rewrite_eq_self (.inl (by rw [hd, placed_anew_eq_nil_iff, hrest]))

/-- What was put in anew is put in anew as it was, but for folded blank runs. -/
theorem anew_anew (hg : OneTag tag group) (hs : Index.Steady parse t) (hm : ¬ tag.beginMarker <:+: t)
    (htop : pos = .top → Directive.Clear t) (hne : ∃ y ∈ batch parse pos tag group t, y.2.block ≠ []) :
    (anew parse pos tag group (removeAll tag (anew parse pos tag group t).text)).text =
      foldBlankRuns (anew parse pos tag group t).text := by
  have hself := forall₂_batch pos tag group hs rfl rfl
  have hseat : ∀ y ∈ batch parse pos tag group t, ∃ i j, y.1.Sits t i j := fun y hy => by
    obtain ⟨i, j, hi, -⟩ := (List.forall₂_same.1 hself y hy).1.lines
    exact ⟨i, j, hi⟩
  obtain ⟨hsolid, hagain⟩ := Placement.placeAll_again hg.isPlain hne hm htop
    (Placement.pairwise_bottomUp pos _) hseat
  exact hagain _ (forall₂_batch pos tag group hs rfl (codeLines_eq_of_solidLines hsolid))

/-- The block of one target that is put in anew is the only one of its tag. -/
theorem exists_amid_anew (hg : OneTag tag [target]) (hp : ∀ target' ∈ [target], target'.pattern? = none)
    (hm : ¬ tag.beginMarker <:+: t) (hne : ∃ y ∈ batch parse pos tag [target] t, y.2.block ≠ []) :
    ∃ a c cs name, target.className? = some name ∧ target.block = frame tag [] cs ∧ CommentLines cs ∧
      (∀ l ∈ cs, l.getLast? ≠ some '\r') ∧ Amid tag cs a ('\n' :: c) (anew parse pos tag [target] t).text := by
  have htag := hg.tag target List.mem_cons_self
  obtain ⟨name, hn⟩ := pattern?_eq_none_iff.1 (hp target List.mem_cons_self)
  obtain ⟨y, hy, h0⟩ := hne
  have hplain := hg.isPlain y hy
  rw [batch_singleton htag hn, Option.mem_toList, Option.map_eq_some_iff] at hy
  obtain ⟨d, hd, rfl⟩ := hy
  obtain ⟨cs, hc, hr, hb⟩ := hplain.resolve_left h0
  obtain ⟨a, c, hamid⟩ := Placement.exists_amid_place hm hc hr pos d
  refine ⟨a, c, cs, name, hn, hb, hc, hr, ?_⟩
  have htext : (anew parse pos tag [target] t).text = Placement.place pos t d (frame tag [] cs) := by
    rw [text_anew, batch_singleton htag hn, hd, ← hb]
    exact Placement.placeAll_cons h0
  rwa [htext]

/-- A second rewrite for targets at classes leaves the text as the first left it. Where several blocks go to
the top, no directive is to stand below empty lines there. -/
theorem rewrite_rewrite_of_declarations (hg : OneTag tag group) (hp : ∀ target ∈ group, target.pattern? = none)
    (ht : WellMarked t) (hs : Index.Steady parse (removeAll tag t))
    (htop : pos = .top → group.length ≤ 1 ∨ Directive.Clear (removeAll tag t)) :
    (rewrite parse pos group (rewrite parse pos group t).1).1 = (rewrite parse pos group t).1 := by
  rcases rewrite_eq_or parse pos group t with he | he
  · rw [he, he]
  rw [he]
  by_cases h0 : group = []
  · subst h0
    exact rewrite_eq_self (.inl rfl)
  have hm : ¬ tag.beginMarker <:+: removeAll tag t :=
    ht.hasParts.removeAll.lacks_marker fun p hp => of_decide_eq_true (List.mem_filter.1 hp).2
  have hframe {target : Target} (hmem : target ∈ group) (hne : target.block ≠ []) :
      ∃ cs, CommentLines cs ∧ (∀ l ∈ cs, l.getLast? ≠ some '\r') ∧ target.block = frame tag [] cs := by
    rw [← hg.tag target hmem]
    exact (target.isPlain_block (hg.unmarked target hmem) (hg.plain target hmem)).resolve_left hne
  rcases draft_of_declarations parse pos hg.tag hp h0 t with
    ⟨target, name, x, rfl, hn, hx, hd⟩ | ⟨-, hd⟩
  · -- the only block was exchanged
    have htag := hg.tag target List.mem_cons_self
    obtain ⟨⟨hne, h₁⟩, -, hrep⟩ := exchange?_eq_some_iff.1 hx
    obtain ⟨cs, hc, hr, hb⟩ := hframe List.mem_cons_self hne
    rw [htag] at h₁ hrep
    rw [hb] at hrep
    obtain ⟨a, c, hamid, hsolid⟩ := exists_amid_of_replace? ht h₁ hc hr hrep
    rw [hd]
    refine rewrite_of_amid htag hn hb hc hr hamid (hs.of_codeLines ?_)
    rw [← hamid.codeLines_removeAll hc]
    exact codeLines_eq_of_solidLines hsolid
  · rw [hd]
    by_cases hne : ∃ y ∈ batch parse pos tag group (removeAll tag t), y.2.block ≠ []
    · rcases Nat.lt_or_ge 1 group.length with hlen | hlen
      · -- several blocks were put in anew
        have htop' : pos = .top → Directive.Clear (removeAll tag t) := fun h =>
          (htop h).resolve_left (Nat.not_le.2 hlen)
        rcases draft_of_declarations parse pos hg.tag hp h0
          (anew parse pos tag group (removeAll tag t)).text with ⟨target, name, x, rfl, -⟩ | ⟨-, hd'⟩
        · exact absurd hlen (Nat.lt_irrefl 1)
        · exact rewrite_eq_self (.inr (.inr (by rw [hd', anew_anew hg hs hm htop' hne])))
      · -- one block was put in
        obtain ⟨target, rfl⟩ : ∃ target, group = [target] :=
          List.length_eq_one_iff.1 (Nat.le_antisymm hlen (List.length_pos_iff.2 h0))
        obtain ⟨a, c, cs, name, hn, hb, hc, hr, hamid⟩ := exists_amid_anew hg hp hm hne
        exact rewrite_of_amid (hg.tag target List.mem_cons_self) hn hb hc hr hamid
          (hs.of_codeLines (Placement.codeLines_placeAll hg.isPlain _))
    · -- there was nothing to put in
      have hx : (anew parse pos tag group (removeAll tag t)).text = removeAll tag t := by
        rw [text_anew]
        exact Placement.placeAll_of_eq_nil (by simpa using hne) _
      rw [hx]
      exact rewrite_of_empty hg hp hm (by simpa using hne)

/-- A second rewrite leaves the text as the first left it. -/
theorem rewrite_rewrite (hg : OneTag tag group) (ht : Ready parse pos tag t) :
    (rewrite parse pos group (rewrite parse pos group t).1).1 = (rewrite parse pos group t).1 := by
  rcases hg.anchors with hp | ⟨target, rfl⟩
  · exact rewrite_rewrite_of_declarations hg hp ht.marked ht.steady fun h =>
      .inr (Directive.clear_of_head? (ht.head h))
  · cases hpat : target.pattern? with
    | none =>
      exact rewrite_rewrite_of_declarations hg (by simpa using hpat) ht.marked ht.steady fun h =>
        .inr (Directive.clear_of_head? (ht.head h))
    | some pattern =>
      have htext (t : Text) : (draft parse pos [target] t).text =
          upsert target.tag target.block pattern.isIn t := by
        rw [draft_of_line (pattern?_eq_some_iff.1 hpat), text_afterLine, hpat]
      have hblock : target.block = [] ∨ ∃ cs, CommentLines cs ∧ target.block = frame target.tag [] cs :=
        (hg.unmarked target List.mem_cons_self).block
      rcases rewrite_eq_or parse pos [target] t with he | he
      · rw [he, he]
      · rw [he]
        exact rewrite_eq_self (.inr (.inl (by rw [htext, htext, upsert_upsert ht.marked hblock])))

end

end Annotation
end Marginalia
