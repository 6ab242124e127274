/-
# Well-marked texts

A text is well-marked if every marker in it is alone on its line, but for
spaces and tabs in front, and the markers pair up from top to bottom. The lines
of such a text fall into parts, source lines and blocks (`parts`), and it is
the parts that the operations on texts are described by: `HasParts t ps` says
that `t` has the solid lines of the parts `ps`. The parts of a text are unique
(`HasParts.parts_eq`), and a text has some exactly if it is well-marked
(`wellMarked_iff`).

Key definitions: `Marker`, `Marker.ofLine?`, `Text.HoldsMarker`, `Text.WellMarked`, `Part`,
`Text.parts`, `Text.sourceLines`, `Text.blocks`, `Text.ClosedAt`, `Text.Outside`, `Text.HasParts`.
Key theorems: `Marker.ofLine?_eq_some_iff`, `Text.wellMarked_iff`, `Text.HasParts.parts_eq`.
-/
import Marginalia.Block.Basic
import Marginalia.Proofs.Text.Lines

namespace Marginalia

/-! ### Markers -/

/-- A marker of a block. -/
inductive Marker where
  /-- The marker that opens a block of the tag. -/
  | opening (tag : Tag)
  /-- The marker that closes a block of the tag. -/
  | closing (tag : Tag)
deriving DecidableEq, Repr

namespace Marker

/-- The text of a marker. -/
def text : Marker → Text
  | opening tag => tag.beginMarker
  | closing tag => tag.endMarker

/-- All markers. -/
def all : List Marker := Tag.all.map opening ++ Tag.all.map closing

theorem mem_all (m : Marker) : m ∈ all := by
  cases m <;> rename_i tag <;> cases tag <;> decide

/-- The marker that a line consists of, but for spaces and tabs in front. -/
def ofLine? (l : Text) : Option Marker := all.find? fun m => l.dropWhile Text.isIndent == m.text

/-- A marker starts with the comment sign, which it has nowhere else, and has no newline. -/
theorem exists_text_eq (m : Marker) : ∃ u, m.text = '#' :: u ∧ '#' ∉ u ∧ '\n' ∉ m.text := by
  cases m <;> rename_i tag <;> cases tag <;> exact ⟨_, rfl, by decide, by decide⟩

theorem text_ne_nil (m : Marker) : m.text ≠ [] := by
  obtain ⟨u, h, -⟩ := m.exists_text_eq
  simp [h]

theorem newline_not_mem_text (m : Marker) : '\n' ∉ m.text := m.exists_text_eq.choose_spec.2.2

/-- No marker is the beginning of another one. -/
theorem eq_of_isPrefix {m n : Marker} (h : m.text <+: n.text) : m = n := by
  have : ∀ m ∈ all, ∀ n ∈ all, m.text <+: n.text → m = n := by decide
  exact this m m.mem_all n n.mem_all h

end Marker

/-- Spaces and tabs. -/
def Text.IsIndentation (t : Text) : Prop := ∀ c ∈ t, Text.isIndent c

namespace Text.IsIndentation

variable {indent : Text}

theorem nil : IsIndentation [] := by simp [IsIndentation]

theorem sign_not_mem (h : IsIndentation indent) : '#' ∉ indent := fun hm => by
  simpa [isIndent] using h _ hm

theorem newline_not_mem (h : IsIndentation indent) : '\n' ∉ indent := fun hm => by
  simpa [isIndent] using h _ hm

theorem dropWhile_append (h : IsIndentation indent) (t : Text) :
    (indent ++ '#' :: t).dropWhile isIndent = '#' :: t := by
  rw [List.dropWhile_append_of_pos h]
  simp [isIndent]

theorem takeWhile_append (h : IsIndentation indent) (t : Text) :
    (indent ++ '#' :: t).takeWhile isIndent = indent := by
  rw [List.takeWhile_append_of_pos h]
  simp [isIndent]

end Text.IsIndentation

namespace Marker

open Text

/-- A line consists of a marker if there are spaces and tabs in front of it and nothing else. -/
theorem ofLine?_eq_some_iff {l : Text} {m : Marker} :
    ofLine? l = some m ↔ ∃ indent, IsIndentation indent ∧ l = indent ++ m.text := by
  constructor
  · intro h
    have hm := List.find?_some h
    refine ⟨l.takeWhile isIndent, fun c hc => List.mem_takeWhile_imp hc, ?_⟩
    rw [← eq_of_beq hm, List.takeWhile_append_dropWhile]
  · rintro ⟨indent, hi, rfl⟩
    obtain ⟨u, hu, -⟩ := m.exists_text_eq
    have hd : (indent ++ m.text).dropWhile isIndent = m.text := by rw [hu, hi.dropWhile_append]
    obtain ⟨n, hn⟩ : ∃ n, ofLine? (indent ++ m.text) = some n := by
      rw [← Option.isSome_iff_exists, ofLine?, List.find?_isSome]
      exact ⟨m, m.mem_all, by simp [hd]⟩
    have := List.find?_some hn
    rw [hd, beq_iff_eq] at this
    rw [hn, eq_of_isPrefix (this ▸ List.prefix_refl _ : m.text <+: n.text)]

/-- The marker that stands in an indented marker is that marker itself. -/
theorem eq_of_isInfix {m n : Marker} {indent : Text} (hi : IsIndentation indent)
    (h : m.text <:+: indent ++ n.text) : m = n := by
  obtain ⟨u, hu, -⟩ := m.exists_text_eq
  obtain ⟨v, hv, hv', -⟩ := n.exists_text_eq
  rw [hu] at h
  have hin := infix_of_first_not_mem hi.sign_not_mem h
  rw [hv, List.infix_cons_iff] at hin
  refine eq_of_isPrefix ?_
  rw [hu, hv]
  exact hin.resolve_right fun h => hv' (h.subset List.mem_cons_self)

end Marker

/-- A marker stands in a text if it stands in one of its lines. -/
theorem Marker.infix_iff_solidLines (m : Marker) {t : Text} :
    m.text <:+: t ↔ ∃ l ∈ Text.solidLines t, m.text <:+: l :=
  Text.infix_iff_solidLines m.newline_not_mem_text m.text_ne_nil

/-! ### Well-marked texts -/

/-- Each marker that opens a block is followed by the one that closes it. -/
def Paired : List Marker → Prop
  | [] => True
  | .opening s :: .closing t :: ms => s = t ∧ Paired ms
  | _ => False

instance decidablePaired : (ms : List Marker) → Decidable (Paired ms)
  | [] => inferInstanceAs (Decidable True)
  | .opening _ :: .closing _ :: ms => @instDecidableAnd _ _ _ (decidablePaired ms)
  | .opening _ :: .opening _ :: _ => inferInstanceAs (Decidable False)
  | [.opening _] => inferInstanceAs (Decidable False)
  | .closing _ :: _ => inferInstanceAs (Decidable False)

theorem paired_append_iff : ∀ {ms ns : List Marker}, Paired ms → (Paired (ms ++ ns) ↔ Paired ns)
  | [], _, _ => Iff.rfl
  | .opening s :: .closing t :: ms, ns, h => by
    have ih : Paired (ms ++ ns) ↔ Paired ns := paired_append_iff h.2
    exact ⟨fun h' => ih.1 h'.2, fun h' => ⟨h.1, ih.2 h'⟩⟩
  | .opening _ :: .opening _ :: _, _, h => h.elim
  | [.opening _], _, h => h.elim
  | .closing _ :: _, _, h => h.elim

namespace Text

/-- Some marker stands in the text. -/
def HoldsMarker (t : Text) : Prop := ∃ m : Marker, m.text <:+: t

instance (t : Text) : Decidable (HoldsMarker t) :=
  decidable_of_iff (∃ m ∈ Marker.all, m.text <:+: t)
    ⟨fun ⟨m, _, h⟩ => ⟨m, h⟩, fun ⟨m, h⟩ => ⟨m, m.mem_all, h⟩⟩

/-- Lines in which every marker is alone, and in which the markers pair up. -/
def MarkedLines (ls : List Text) : Prop :=
  (∀ l ∈ ls, HoldsMarker l → (Marker.ofLine? l).isSome) ∧ Paired (ls.filterMap Marker.ofLine?)

instance (ls : List Text) : Decidable (MarkedLines ls) := inferInstanceAs (Decidable (_ ∧ _))

/-- Every marker of the text is alone on its line, but for spaces and tabs in front of it, and
the markers pair up from top to bottom. -/
def WellMarked (t : Text) : Prop := MarkedLines (rows t)

instance (t : Text) : Decidable (WellMarked t) := inferInstanceAs (Decidable (MarkedLines _))

/-- No block goes on below the first `n` lines of the text. -/
def ClosedAt (t : Text) (n : Nat) : Prop := Paired (((rows t).take n).filterMap Marker.ofLine?)

/-- Line `n` of the text, counted from one, is there and stands outside all blocks: it is no
marker, and no block is open above it. -/
def Outside (t : Text) (n : Nat) : Prop :=
  n ≠ 0 ∧ (∃ l ∈ (rows t)[n - 1]?, Marker.ofLine? l = none) ∧ ClosedAt t (n - 1)

instance (t : Text) (n : Nat) : Decidable (ClosedAt t n) := inferInstanceAs (Decidable (Paired _))

instance (t : Text) (n : Nat) : Decidable (Outside t n) := inferInstanceAs (Decidable (_ ∧ _ ∧ _))

end Text

/-! ### Parts -/

/-- A part of a text: a line of the source, or a block. -/
inductive Part where
  /-- A line outside all blocks. -/
  | source (l : Text)
  /-- A block with all its lines, those of the markers included. -/
  | block (tag : Tag) (ls : List Text)
deriving DecidableEq, Repr

namespace Part

/-- The lines of a part. -/
def lines : Part → List Text
  | source l => [l]
  | block _ ls => ls

/-- The line of the source, if the part is one. -/
def source? : Part → Option Text
  | source l => some l
  | block .. => none

/-- The lines of the block, if the part is one of the tag. -/
def block? (tag : Tag) : Part → Option (List Text)
  | source _ => none
  | block s ls => if s = tag then some ls else none

/-- The part is no block of the tag. -/
def Avoids (tag : Tag) (p : Part) : Prop := p.block? tag = none

/-- The lines are those of the part: a line of the source holds no marker, and a block has its
two markers at the ends and no other. -/
def Valid : Part → Prop
  | source l => ¬ Text.HoldsMarker l
  | block tag ls => ∃ indent inner indent', Text.IsIndentation indent ∧ Text.IsIndentation indent' ∧
      (∀ l ∈ inner, ¬ Text.HoldsMarker l) ∧
      ls = (indent ++ tag.beginMarker) :: (inner ++ [indent' ++ tag.endMarker])

end Part

namespace Text

/-- The parts of lines, those of the block that is open included. What is opened and not closed is
no part. -/
def partsOf : Option (Tag × List Text) → List Text → List Part
  | _, [] => []
  | none, l :: ls =>
    match Marker.ofLine? l with
    | some (.opening tag) => partsOf (some (tag, [l])) ls
    | _ => .source l :: partsOf none ls
  | some (tag, bs), l :: ls =>
    match Marker.ofLine? l with
    | some (.closing _) => .block tag (bs ++ [l]) :: partsOf none ls
    | _ => partsOf (some (tag, bs ++ [l])) ls

/-- The parts of a text, without empty lines. -/
def parts (t : Text) : List Part := partsOf none (solidLines t)

/-- The lines of a text outside all blocks, without empty ones. -/
def sourceLines (t : Text) : List Text := (parts t).filterMap Part.source?

/-- The blocks of the tag in a text, each by its lines, without empty ones. -/
def blocks (tag : Tag) (t : Text) : List (List Text) := (parts t).filterMap (Part.block? tag)

/-- The text is made of the parts. -/
def HasParts (t : Text) (ps : List Part) : Prop :=
  (∀ p ∈ ps, p.Valid) ∧ solidLines t = ps.flatMap Part.lines

/-! ### What lines hold -/

theorem not_holdsMarker_nil : ¬ HoldsMarker [] := by
  rintro ⟨m, h⟩
  exact m.text_ne_nil (List.infix_nil.1 h)

theorem ofLine?_eq_none {l : Text} (h : ¬ HoldsMarker l) : Marker.ofLine? l = none := by
  cases hm : Marker.ofLine? l with
  | none => rfl
  | some m =>
    obtain ⟨indent, -, rfl⟩ := Marker.ofLine?_eq_some_iff.1 hm
    exact absurd ⟨m, List.infix_append' indent m.text [] |>.trans (by simp)⟩ h

theorem ofLine?_begin {indent : Text} (h : IsIndentation indent) (tag : Tag) :
    Marker.ofLine? (indent ++ tag.beginMarker) = some (.opening tag) :=
  Marker.ofLine?_eq_some_iff.2 ⟨indent, h, rfl⟩

theorem ofLine?_end {indent : Text} (h : IsIndentation indent) (tag : Tag) :
    Marker.ofLine? (indent ++ tag.endMarker) = some (.closing tag) :=
  Marker.ofLine?_eq_some_iff.2 ⟨indent, h, rfl⟩

/-- Empty lines are no markers. -/
theorem filterMap_ofLine?_filter (ls : List Text) :
    (ls.filter (· ≠ [])).filterMap Marker.ofLine? = ls.filterMap Marker.ofLine? := by
  induction ls with
  | nil => rfl
  | cons l ls ih =>
    by_cases h0 : l = []
    · subst h0
      simpa [ofLine?_eq_none not_holdsMarker_nil] using ih
    · simp only [ne_eq, h0, not_false_eq_true, decide_true, List.filter_cons_of_pos,
        List.filterMap_cons] at ih ⊢
      rw [ih]

/-- Empty lines do not matter for marking. -/
theorem markedLines_filter_iff {ls : List Text} :
    MarkedLines (ls.filter (· ≠ [])) ↔ MarkedLines ls := by
  unfold MarkedLines
  rw [filterMap_ofLine?_filter]
  refine and_congr_left' ⟨fun hl l hm hh => hl l (List.mem_filter.2 ⟨hm, ?_⟩) hh,
    fun hl l hm => hl l (List.mem_filter.1 hm).1⟩
  simp only [ne_eq, decide_not, Bool.not_eq_true', decide_eq_false_iff_not]
  rintro rfl
  exact not_holdsMarker_nil hh

theorem wellMarked_iff_markedLines {t : Text} : WellMarked t ↔ MarkedLines (solidLines t) :=
  markedLines_filter_iff.symm

/-! ### Parts and lines -/

/-- The lines of a block go on to the one that closes it. -/
theorem partsOf_some {tag : Tag} {indent : Text} (hi : IsIndentation indent) (ls : List Text) :
    ∀ (bs inner : List Text), (∀ l ∈ inner, ¬ HoldsMarker l) →
      partsOf (some (tag, bs)) (inner ++ (indent ++ tag.endMarker) :: ls) =
        .block tag (bs ++ inner ++ [indent ++ tag.endMarker]) :: partsOf none ls
  | bs, [], _ => by simp [partsOf, ofLine?_end hi]
  | bs, l :: inner, h => by
    rw [List.forall_mem_cons] at h
    simp [partsOf, ofLine?_eq_none h.1, partsOf_some hi ls (bs ++ [l]) inner h.2]

theorem partsOf_flatMap_lines : ∀ {ps : List Part}, (∀ p ∈ ps, p.Valid) →
    partsOf none (ps.flatMap Part.lines) = ps
  | [], _ => rfl
  | .source l :: ps, h => by
    rw [List.forall_mem_cons] at h
    simp [Part.lines, partsOf, ofLine?_eq_none h.1, partsOf_flatMap_lines h.2]
  | .block tag _ :: ps, h => by
    obtain ⟨⟨indent, inner, indent', hi, hi', hl, rfl⟩, h'⟩ := List.forall_mem_cons.1 h
    simp [Part.lines, partsOf, ofLine?_begin hi, partsOf_some hi' _ _ _ hl, partsOf_flatMap_lines h']

theorem markedLines_lines {p : Part} (h : p.Valid) : MarkedLines p.lines := by
  cases p with
  | source l =>
    have h' : ¬ HoldsMarker l := h
    simp [Part.lines, MarkedLines, h', ofLine?_eq_none h', Paired]
  | block tag _ =>
    obtain ⟨indent, inner, indent', hi, hi', hl, rfl⟩ := h
    have hn : inner.filterMap Marker.ofLine? = [] :=
      List.filterMap_eq_nil_iff.2 fun l hm => ofLine?_eq_none (hl l hm)
    refine ⟨fun l hm hh => ?_, ?_⟩
    · simp only [Part.lines, List.mem_cons, List.mem_append, List.not_mem_nil, or_false] at hm
      rcases hm with rfl | hm | rfl
      · rw [ofLine?_begin hi]; rfl
      · exact absurd hh (hl l hm)
      · rw [ofLine?_end hi']; rfl
    · simp [Part.lines, ofLine?_begin hi, ofLine?_end hi', hn, Paired]

theorem MarkedLines.append {ls ms : List Text} (h : MarkedLines ls) (h' : MarkedLines ms) :
    MarkedLines (ls ++ ms) := by
  refine ⟨fun l hl => ?_, ?_⟩
  · rcases List.mem_append.1 hl with hl | hl
    · exact h.1 l hl
    · exact h'.1 l hl
  · rw [List.filterMap_append, paired_append_iff h.2]
    exact h'.2

theorem markedLines_flatMap_lines : ∀ {ps : List Part}, (∀ p ∈ ps, p.Valid) →
    MarkedLines (ps.flatMap Part.lines)
  | [], _ => ⟨by simp, trivial⟩
  | p :: ps, h => by
    rw [List.forall_mem_cons] at h
    exact (markedLines_lines h.1).append (markedLines_flatMap_lines h.2)

/-- The lines of a block, once it is open: what is inside, and the line that closes it. -/
theorem exists_of_paired_closing {tag : Tag} : ∀ {ls : List Text},
    (∀ l ∈ ls, HoldsMarker l → (Marker.ofLine? l).isSome) →
    Paired (.opening tag :: ls.filterMap Marker.ofLine?) →
    ∃ inner indent rest, IsIndentation indent ∧ (∀ l ∈ inner, ¬ HoldsMarker l) ∧
      ls = inner ++ (indent ++ tag.endMarker) :: rest ∧ Paired (rest.filterMap Marker.ofLine?)
  | [], _, h => h.elim
  | l :: ls, ha, hp => by
    rw [List.forall_mem_cons] at ha
    cases hm : Marker.ofLine? l with
    | none =>
      have hl : ¬ HoldsMarker l := fun hh => by simpa [hm] using ha.1 hh
      rw [List.filterMap_cons_none hm] at hp
      obtain ⟨inner, indent, rest, hi, hin, rfl, hr⟩ := exists_of_paired_closing ha.2 hp
      exact ⟨l :: inner, indent, rest, hi, List.forall_mem_cons.2 ⟨hl, hin⟩, rfl, hr⟩
    | some m =>
      rw [List.filterMap_cons_some hm] at hp
      cases m with
      | opening s => exact hp.elim
      | closing s =>
        obtain ⟨rfl, hp⟩ := hp
        obtain ⟨indent, hi, rfl⟩ := Marker.ofLine?_eq_some_iff.1 hm
        exact ⟨[], indent, ls, hi, by simp, rfl, hp⟩

/-- Marked lines are those of some parts. -/
theorem exists_parts {ls : List Text} (h : MarkedLines ls) :
    ∃ ps : List Part, (∀ p ∈ ps, p.Valid) ∧ ls = ps.flatMap Part.lines := by
  obtain ⟨ha, hp⟩ := h
  induction hn : ls.length using Nat.strongRecOn generalizing ls with
  | ind n ih =>
    cases ls with
    | nil => exact ⟨[], by simp, rfl⟩
    | cons l ls =>
      rw [List.forall_mem_cons] at ha
      cases hm : Marker.ofLine? l with
      | none =>
        have hl : ¬ HoldsMarker l := fun hh => by simpa [hm] using ha.1 hh
        rw [List.filterMap_cons_none hm] at hp
        obtain ⟨ps, hv, rfl⟩ := ih _ (by simp [← hn]) ha.2 hp rfl
        exact ⟨.source l :: ps, List.forall_mem_cons.2 ⟨hl, hv⟩, rfl⟩
      | some m =>
        rw [List.filterMap_cons_some hm] at hp
        obtain ⟨indent, hi, rfl⟩ := Marker.ofLine?_eq_some_iff.1 hm
        cases m with
        | closing tag => exact hp.elim
        | opening tag =>
          obtain ⟨inner, indent', rest, hi', hin, rfl, hr⟩ := exists_of_paired_closing ha.2 hp
          obtain ⟨ps, hv, rfl⟩ := ih rest.length (by simp [← hn]; omega)
            (fun l hl => ha.2 l (by simp [hl])) hr rfl
          refine ⟨.block tag ((indent ++ tag.beginMarker) :: (inner ++ [indent' ++ tag.endMarker])) :: ps,
            List.forall_mem_cons.2 ⟨⟨indent, inner, indent', hi, hi', hin, rfl⟩, hv⟩, ?_⟩
          simp [Part.lines, Marker.text]

/-- A text is well-marked if it is made of parts. -/
theorem wellMarked_iff {t : Text} : WellMarked t ↔ ∃ ps, HasParts t ps := by
  rw [wellMarked_iff_markedLines]
  constructor
  · intro h
    obtain ⟨ps, hv, hs⟩ := exists_parts h
    exact ⟨ps, hv, hs⟩
  · rintro ⟨ps, hv, hs⟩
    rw [hs]
    exact markedLines_flatMap_lines hv

namespace HasParts

variable {t : Text} {ps : List Part}

theorem wellMarked (h : HasParts t ps) : WellMarked t := wellMarked_iff.2 ⟨ps, h⟩

/-- The parts of which a text is made are its parts. -/
theorem parts_eq (h : HasParts t ps) : parts t = ps := by
  rw [parts, h.2, partsOf_flatMap_lines h.1]

end HasParts

theorem WellMarked.hasParts {t : Text} (h : WellMarked t) : HasParts t (parts t) := by
  obtain ⟨ps, hp⟩ := wellMarked_iff.1 h
  rwa [hp.parts_eq]

/-! ### Texts without markers -/

variable {t : Text}

theorem not_holdsMarker_of_mem_rows (h : ¬ HoldsMarker t) : ∀ l ∈ rows t, ¬ HoldsMarker l := by
  rintro l hl ⟨m, hm⟩
  refine h ⟨m, m.infix_iff_solidLines.2 ⟨l, List.mem_filter.2 ⟨hl, decide_eq_true ?_⟩, hm⟩⟩
  rintro rfl
  exact not_holdsMarker_nil ⟨m, hm⟩

theorem filterMap_ofLine?_rows (h : ¬ HoldsMarker t) {ls : List Text} (hl : ls ⊆ rows t) :
    ls.filterMap Marker.ofLine? = [] :=
  List.filterMap_eq_nil_iff.2 fun l hm => ofLine?_eq_none (not_holdsMarker_of_mem_rows h l (hl hm))

theorem wellMarked_of_not_holdsMarker (h : ¬ HoldsMarker t) : WellMarked t := by
  refine ⟨fun l hl hh => absurd hh (not_holdsMarker_of_mem_rows h l hl), ?_⟩
  rw [filterMap_ofLine?_rows h (List.Subset.refl _)]
  trivial

theorem closedAt_of_not_holdsMarker (h : ¬ HoldsMarker t) (n : Nat) : ClosedAt t n := by
  rw [ClosedAt, filterMap_ofLine?_rows h (List.take_subset _ _)]
  trivial

/-- All lines of a text without markers are outside all blocks. -/
theorem outside_of_le_length (h : ¬ HoldsMarker t) {n : Nat} (h0 : n ≠ 0) (hn : n ≤ (rows t).length) : Outside t n := by
  have hlt : n - 1 < (rows t).length := by omega
  refine ⟨h0, ⟨_, List.getElem?_eq_getElem hlt, ?_⟩, closedAt_of_not_holdsMarker h _⟩
  exact ofLine?_eq_none (not_holdsMarker_of_mem_rows h _ (List.getElem_mem hlt))

end Text
end Marginalia
