/-
# The stages of a draft

The draft of a file's text goes through three stages: tag by tag a block is
exchanged or the blocks are taken out (`stripped`), then the blocks that are
pending are placed (`settled`), and last come the targets at lines. What is
kept by each change that the targets of a group can bring is kept by the first
stage (`stripped_induction`).

Key definitions: `Target.Unmarked`, `Annotation.stripped`, `Annotation.settled`.
Key theorems: `Annotation.stripped_induction`, `Annotation.text_settled`,
`Annotation.text_afterLine`.
-/
import Marginalia.Annotation.Rewrite
import Marginalia.Proofs.Block.Framing

namespace Marginalia

open Text

namespace Target

/-- No comment line of the annotation holds a marker. -/
def Unmarked (t : Target) : Prop :=
  ∀ l ∈ (Block.ofText t.tag t.payload).lines, ¬ HoldsMarker (Block.commentLine l)

instance (t : Target) : Decidable t.Unmarked := inferInstanceAs (Decidable (∀ _ ∈ _, _))

/-- The pattern at whose first match the block is placed, if it is placed at a line. -/
def pattern? (t : Target) : Option Pattern :=
  match t.anchor with
  | .declaration _ => none
  | .line pattern => some pattern

variable {t : Target}

theorem Unmarked.commentLines (h : t.Unmarked) :
    Block.CommentLines (Block.ofText t.tag t.payload).commentLines := by
  intro l' hl'
  obtain ⟨l, hl, rfl⟩ := List.mem_map.1 hl'
  refine ⟨?_, Block.newline_not_mem_commentLine (Block.newline_not_mem_lines_ofText hl), h l hl⟩
  unfold Block.commentLine
  split <;> rfl

/-- The block of a target is empty or a frame. -/
theorem Unmarked.block (h : t.Unmarked) : t.block = [] ∨
    ∃ ls, Block.CommentLines ls ∧ t.block = Block.frame t.tag [] ls := by
  by_cases h0 : (Block.ofText t.tag t.payload).lines = []
  · exact .inl (Block.render_eq_nil_iff.2 h0)
  · exact .inr ⟨_, h.commentLines, Block.render_eq_frame h0⟩

end Target

namespace Annotation

/-- The draft once the blocks were exchanged or taken out. -/
def stripped (parse : Text → Index) (group : List Target) (t : Text) : Draft :=
  Tag.all.foldl (Draft.afterTag parse group) { text := t }

/-- The draft once the blocks at classes are placed. -/
def settled (parse : Text → Index) (pos : Position) (group : List Target) (t : Text) : Draft :=
  let d := stripped parse group t
  if d.pending.isEmpty then d else d.afterPending parse pos

theorem draft_eq (parse : Text → Index) (pos : Position) (group : List Target) (t : Text) :
    draft parse pos group t = group.foldl Draft.afterLine (settled parse pos group t) := rfl

section

variable {parse : Text → Index} {pos : Position} {group : List Target} {t : Text} {d : Draft} {tag : Tag}
  {P : Text → Prop}

theorem mem_atClasses {x : Target × String} (h : x ∈ atClasses tag group) : x.1 ∈ group ∧ x.1.tag = tag := by
  obtain ⟨target, hm, hx⟩ := List.mem_filterMap.1 h
  split at hx
  · split at hx
    · next ht => cases hx; exact ⟨hm, ht⟩
    · cases hx
  · cases hx

/-- When a tag is handled, the others were handled before or come after it. -/
theorem exists_all_eq (tag : Tag) :
    ∃ before after, Tag.all = before ++ tag :: after ∧ tag ∉ before ∧ tag ∉ after := by
  cases tag with
  | schema => exact ⟨[], [.routes, .mailer], rfl, by decide, by decide⟩
  | routes => exact ⟨[.schema], [.mailer], rfl, by decide, by decide⟩
  | mailer => exact ⟨[.schema, .routes], [], rfl, by decide, by decide⟩

/-- A tag without targets at classes is passed over; otherwise the only block is exchanged, or the blocks are
taken out to be put in anew. -/
theorem afterTag_cases (parse : Text → Index) (group : List Target) (d : Draft) (tag : Tag) :
    (atClasses tag group = [] ∧ d.afterTag parse group tag = d) ∨
    (∃ target name t, atClasses tag group = [(target, name)] ∧ exchange? parse d.text target name = some t ∧
      d.afterTag parse group tag = { d with text := t, placed := d.placed ++ [target.identifier] }) ∨
    atClasses tag group ≠ [] ∧
      (∀ target name, atClasses tag group = [(target, name)] → exchange? parse d.text target name = none) ∧
      d.afterTag parse group tag = d.strip tag (atClasses tag group) := by
  unfold Draft.afterTag
  split
  · next he => exact .inl ⟨he, rfl⟩
  · next target name he =>
    split
    · next t ht => exact .inr (.inl ⟨target, name, t, he, ht, rfl⟩)
    · next hn =>
      refine .inr (.inr ⟨by rw [he]; exact List.cons_ne_nil _ _, fun target' name' he' => ?_, by rw [he]⟩)
      cases he.symm.trans he'
      exact hn
  · next h0 hmany =>
    exact .inr (.inr ⟨h0, fun target name he => absurd he (hmany target name), rfl⟩)

/-- What is kept by taking out and exchanging blocks of the group's tags is kept by the first stage,
and what is to be put in anew is from the group. -/
theorem afterTag_induction (hr : ∀ target ∈ group, ∀ t, P t → P (Block.removeAll target.tag t))
    (hx : ∀ target ∈ group, target.block ≠ [] → ∀ t t', P t →
      Block.replace? target.tag target.block t = some t' → P t')
    (h : P d.text) (hp : ∀ p ∈ d.pending, p.1 ∈ group) :
    P (d.afterTag parse group tag).text ∧ ∀ p ∈ (d.afterTag parse group tag).pending, p.1 ∈ group := by
  rcases afterTag_cases parse group d tag with ⟨-, he⟩ | ⟨target, name, t', hc, ht, he⟩ | ⟨h0, -, he⟩
  · rw [he]
    exact ⟨h, hp⟩
  · rw [he]
    have hm := mem_atClasses (x := (target, name)) (hc ▸ List.mem_singleton_self _)
    unfold exchange? at ht
    split at ht
    · cases ht
    · next hb =>
      split at ht
      · cases ht
      · exact ⟨hx _ hm.1 (fun h0 => hb (.inl h0)) _ _ h ht, hp⟩
  · rw [he]
    obtain ⟨x, hx⟩ := List.exists_mem_of_ne_nil _ h0
    have hm := mem_atClasses hx
    refine ⟨hm.2 ▸ hr _ hm.1 _ h, List.forall_mem_append.2 ⟨hp, fun p hp => ?_⟩⟩
    exact (mem_atClasses hp).1

theorem stripped_induction (parse : Text → Index)
    (hr : ∀ target ∈ group, ∀ t, P t → P (Block.removeAll target.tag t))
    (hx : ∀ target ∈ group, target.block ≠ [] → ∀ t t', P t →
      Block.replace? target.tag target.block t = some t' → P t') (h : P t) :
    P (stripped parse group t).text ∧ ∀ p ∈ (stripped parse group t).pending, p.1 ∈ group := by
  suffices hs : ∀ (tags : List Tag) (d : Draft), P d.text → (∀ p ∈ d.pending, p.1 ∈ group) →
      P (tags.foldl (Draft.afterTag parse group) d).text ∧
        ∀ p ∈ (tags.foldl (Draft.afterTag parse group) d).pending, p.1 ∈ group from
    hs Tag.all { text := t } h (by simp)
  intro tags
  induction tags with
  | nil => exact fun _ h hp => ⟨h, hp⟩
  | cons tag tags ih =>
    intro d h hp
    have h' : P (d.afterTag parse group tag).text ∧ ∀ p ∈ (d.afterTag parse group tag).pending, p.1 ∈ group :=
      afterTag_induction hr hx h hp
    exact ih _ h'.1 h'.2

/-- The requests for the blocks that are pending. -/
def Draft.requests (d : Draft) : List Placement.Request :=
  d.pending.map fun p => { name := p.2, block := p.1.block }

theorem text_settled (parse : Text → Index) (pos : Position) (group : List Target) (t : Text) :
    (settled parse pos group t).text = (stripped parse group t).text ∨
      (settled parse pos group t).text = (Placement.insertAll pos (parse (stripped parse group t).text)
        (stripped parse group t).text (stripped parse group t).requests).text := by
  simp only [settled]
  split
  · exact .inl rfl
  · exact .inr rfl

theorem text_afterLine (d : Draft) (target : Target) : (d.afterLine target).text =
    match target.pattern? with
    | none => d.text
    | some pattern => Block.upsert target.tag target.block pattern.isIn d.text := by
  unfold Draft.afterLine Target.pattern?
  cases target.anchor with
  | declaration name => rfl
  | line pattern =>
    simp only
    split <;> rfl

/-- A target at a line is handled in the last stage alone. -/
theorem draft_of_line {target : Target} {pattern : Pattern} (h : target.anchor = .line pattern) :
    draft parse pos [target] t = Draft.afterLine { text := t } target := by
  have hc (tag : Tag) : atClasses tag [target] = [] := by
    simp [atClasses, Target.className?, h]
  have hs : stripped parse [target] t = { text := t } := by
    simp [stripped, Tag.all, Draft.afterTag, hc]
  rw [draft_eq, settled, hs]
  rfl

theorem pattern?_eq_none_iff {target : Target} :
    target.pattern? = none ↔ ∃ name, target.className? = some name := by
  unfold Target.pattern? Target.className?
  cases target.anchor <;> simp

theorem pattern?_eq_some_iff {target : Target} {pattern : Pattern} :
    target.pattern? = some pattern ↔ target.anchor = .line pattern := by
  unfold Target.pattern?
  cases target.anchor <;> simp

theorem atClasses_of_ne (h : ∀ target ∈ group, target.tag = tag) {other : Tag} (ho : other ≠ tag) :
    atClasses other group = [] := by
  rw [List.eq_nil_iff_forall_not_mem]
  exact fun x hx => ho ((mem_atClasses hx).2.symm.trans (h _ (mem_atClasses hx).1))

theorem foldl_afterLine_of_declarations (h : ∀ target ∈ group, target.pattern? = none) :
    ∀ d : Draft, group.foldl Draft.afterLine d = d := by
  induction group with
  | nil => exact fun _ => rfl
  | cons target group ih =>
    intro d
    rw [List.forall_mem_cons] at h
    have hd : d.afterLine target = d := by
      cases ha : target.anchor with
      | declaration name => simp only [Draft.afterLine, ha]
      | line pattern => exact absurd h.1 (by simp [Target.pattern?, ha])
    rw [List.foldl_cons, hd, ih h.2]

/-- Of targets at classes, those of a tag are placed at classes of the tag. -/
theorem map_fst_atClasses_eq_filter (hp : ∀ target ∈ group, target.pattern? = none) (tag : Tag) :
    (atClasses tag group).map (·.1) = group.filter (·.tag = tag) := by
  induction group with
  | nil => rfl
  | cons target group ih =>
    rw [List.forall_mem_cons] at hp
    obtain ⟨name, hn⟩ := pattern?_eq_none_iff.1 hp.1
    unfold atClasses at ih ⊢
    by_cases ht : target.tag = tag
    · rw [List.filterMap_cons_some (b := (target, name)) (by simp only [hn, if_pos ht]), List.map_cons, ih hp.2,
        List.filter_cons_of_pos (by simpa using ht)]
    · rw [List.filterMap_cons_none (by simp only [hn, if_neg ht]), ih hp.2, List.filter_cons_of_neg (by simpa using ht)]

theorem map_fst_atClasses (ht : ∀ target ∈ group, target.tag = tag)
    (hp : ∀ target ∈ group, target.pattern? = none) : (atClasses tag group).map (·.1) = group := by
  rw [map_fst_atClasses_eq_filter hp, List.filter_eq_self.2 fun target hm => decide_eq_true (ht target hm)]

theorem className?_of_mem_atClasses {x : Target × String} (h : x ∈ atClasses tag group) :
    x.1.className? = some x.2 := by
  obtain ⟨target, -, hx⟩ := List.mem_filterMap.1 h
  split at hx
  · next hn =>
    split at hx
    · cases hx
      exact hn
    · cases hx
  · cases hx

/-- The draft for targets at classes if their blocks are put in anew. -/
def anew (parse : Text → Index) (pos : Position) (tag : Tag) (group : List Target) (t : Text) : Draft :=
  Draft.afterPending parse pos { text := t, pending := atClasses tag group }

/-- For targets of one tag at classes, the only block is exchanged or all blocks are put in anew. -/
theorem draft_of_declarations (parse : Text → Index) (pos : Position) (ht : ∀ target ∈ group, target.tag = tag)
    (hp : ∀ target ∈ group, target.pattern? = none) (h0 : group ≠ []) (t : Text) :
    (∃ target name t', group = [target] ∧ target.className? = some name ∧
      exchange? parse t target name = some t' ∧
      draft parse pos group t = { text := t', placed := [target.identifier] }) ∨
    (∀ target name, group = [target] → target.className? = some name → exchange? parse t target name = none) ∧
      draft parse pos group t = anew parse pos tag group (Block.removeAll tag t) := by
  have hmap : (atClasses tag group).map (·.1) = group := map_fst_atClasses ht hp
  have hstage : stripped parse group t = Draft.afterTag parse group { text := t } tag := by
    have hskip {other : Tag} (ho : other ≠ tag) (d : Draft) : d.afterTag parse group other = d := by
      rw [Draft.afterTag, atClasses_of_ne ht ho]
    cases tag <;> simp only [stripped, Tag.all, List.foldl_cons, List.foldl_nil] <;>
      simp [hskip]
  have hne : atClasses tag group ≠ [] := fun h => h0 (by rw [← hmap, h]; rfl)
  rw [draft_eq, foldl_afterLine_of_declarations hp, settled, hstage]
  rcases afterTag_cases parse group { text := t } tag with ⟨hc, -⟩ | ⟨target, name, t', hc, hx, he⟩ | ⟨-, hno, he⟩
  · exact absurd hc hne
  · have hg : group = [target] := by rw [← hmap, hc]; rfl
    have hn : target.className? = some name :=
      className?_of_mem_atClasses (x := (target, name)) (hc ▸ List.mem_singleton_self _)
    exact .inl ⟨target, name, t', hg, hn, hx, by rw [he]; rfl⟩
  · refine .inr ⟨fun target name hg hn => hno target name ?_, ?_⟩
    · rw [hg] at ht ⊢
      simp [atClasses, hn, ht target List.mem_cons_self]
    · rw [he, anew]
      simp [Draft.strip, hne]

/-- A draft that is the text itself, or its folding, or places nothing, leaves the text. -/
theorem rewrite_eq_self (h : (draft parse pos group t).placed = [] ∨ (draft parse pos group t).text = t ∨
    (draft parse pos group t).text = foldBlankRuns t) : (rewrite parse pos group t).1 = t := by
  simp only [rewrite]
  split
  · rfl
  · next hn =>
    simp only [Bool.or_eq_true, List.isEmpty_iff, beq_iff_eq, not_or] at hn
    rcases h with h | h | h
    · exact absurd h hn.1
    · exact h
    · exact absurd h.symm hn.2

/-- The text is left as it is, or the draft's is taken. -/
theorem rewrite_eq_or (parse : Text → Index) (pos : Position) (group : List Target) (t : Text) :
    (rewrite parse pos group t).1 = t ∨ (rewrite parse pos group t).1 = (draft parse pos group t).text := by
  simp only [rewrite]
  split
  · exact .inl rfl
  · exact .inr rfl

end

end Annotation
end Marginalia
