/-
# Lines that no removal reaches

Lines are followed through insertions and removals by whether they were kept
from an original text or made. The original lines are sheltered from a tag if
none of them bears its begin marker, and if below every made begin marker only
made lines stand down to the first end marker (`Sheltered`). What is found as a
block is then made of made lines alone, and this stays so when it is taken out
and when blocks are put in between any two lines.

Key definitions: `Traced`, `Traced.Closes`, `Traced.Sheltered`, `Block.Shelters`.
Key theorems: `Block.Shelters.insert_frame`, `Block.Shelters.find?`, `Block.Shelters.removeAll`,
`Block.Shelters.upsert`.
-/
import Marginalia.Proofs.Block.Excision

namespace Marginalia

open Text Block

/-- A line with whether it was kept from the original text or made. -/
inductive Traced where
  /-- A line of the original text. -/
  | kept (l : Text)
  /-- A line that was put in. -/
  | made (l : Text)

namespace Traced

/-- The line itself. -/
def text : Traced → Text
  | kept l => l
  | made l => l

/-- The line, if it is one of the original text. -/
def kept? : Traced → Option Text
  | kept l => some l
  | made _ => none

/-- The first line with an end marker consists of it, and the lines down to there were made. -/
def Closes (tag : Tag) : List Traced → Prop
  | [] => False
  | kept _ :: _ => False
  | made l :: ds => (∃ indent, IsIndentation indent ∧ l = indent ++ tag.endMarker) ∨
      ¬ tag.endMarker <:+: l ∧ Closes tag ds

/-- No kept line bears a begin marker; a made line with one consists of it, and below it made lines
go on to an end marker. -/
def Sheltered (tag : Tag) : List Traced → Prop
  | [] => True
  | kept l :: ds => ¬ tag.beginMarker <:+: l ∧ Sheltered tag ds
  | made l :: ds =>
    (tag.beginMarker <:+: l →
      (∃ indent, IsIndentation indent ∧ l = indent ++ tag.beginMarker) ∧ Closes tag ds) ∧
    Sheltered tag ds

variable {tag : Tag}

theorem sheltered_append : ∀ {ds es : List Traced}, (∀ d ∈ ds, ¬ tag.beginMarker <:+: d.text) →
    Sheltered tag es → Sheltered tag (ds ++ es)
  | [], _, _, h => h
  | kept _ :: _, _, hd, h => by
    rw [List.forall_mem_cons] at hd
    exact ⟨hd.1, sheltered_append hd.2 h⟩
  | made _ :: _, _, hd, h => by
    rw [List.forall_mem_cons] at hd
    exact ⟨fun hb => absurd hb hd.1, sheltered_append hd.2 h⟩

theorem closes_append : ∀ {ls : List Text} {es : List Traced}, (∀ l ∈ ls, ¬ tag.endMarker <:+: l) →
    Closes tag es → Closes tag (ls.map made ++ es)
  | [], _, _, h => h
  | _ :: _, _, hl, h => by
    rw [List.forall_mem_cons] at hl
    exact .inr ⟨hl.1, closes_append hl.2 h⟩

/-- Where made lines close a block, the end marker is found. -/
theorem Closes.exists_eq : ∀ {ds : List Traced}, Closes tag ds →
    ∃ (ls : List Text) (indent : Text) (es : List Traced), ds = ls.map made ++ made (indent ++ tag.endMarker) :: es ∧
      IsIndentation indent ∧ ∀ l ∈ ls, ¬ tag.endMarker <:+: l
  | made l :: ds, h => by
    rcases h with ⟨indent, hi, rfl⟩ | ⟨hl, h⟩
    · exact ⟨[], indent, ds, rfl, hi, by simp⟩
    · obtain ⟨ls, indent, es, rfl, hi, hls⟩ := h.exists_eq
      exact ⟨l :: ls, indent, es, rfl, hi, List.forall_mem_cons.2 ⟨hl, hls⟩⟩

theorem Closes.insert {fs es : List Traced} (hf : ∀ es, Closes tag (fs ++ es)) :
    ∀ {ds : List Traced}, Closes tag (ds ++ es) → Closes tag (ds ++ (fs ++ es))
  | [], _ => hf es
  | made _ :: _, h => h.imp_right fun h => ⟨h.1, insert hf h.2⟩

theorem Sheltered.insert {fs es : List Traced} (hf : ∀ es, Closes tag (fs ++ es))
    (hs : ∀ es, Sheltered tag es → Sheltered tag (fs ++ es)) :
    ∀ {ds : List Traced}, Sheltered tag (ds ++ es) → Sheltered tag (ds ++ (fs ++ es))
  | [], h => hs es h
  | kept _ :: _, h => ⟨h.1, insert hf hs h.2⟩
  | made _ :: _, h => ⟨fun hb => (h.1 hb).imp_right (Closes.insert hf), insert hf hs h.2⟩

/-- Sheltered lines hold no begin marker, or a first one with made lines down to the first end
marker below it. -/
theorem Sheltered.cases : ∀ {ds : List Traced}, Sheltered tag ds →
    (∀ d ∈ ds, ¬ tag.beginMarker <:+: d.text) ∨
      ∃ (pre : List Traced) (indent : Text) (ls : List Text) (indent' : Text) (post : List Traced),
      ds = pre ++ made (indent ++ tag.beginMarker) :: (ls.map made ++ made (indent' ++ tag.endMarker) :: post) ∧
      IsIndentation indent ∧ IsIndentation indent' ∧ (∀ d ∈ pre, ¬ tag.beginMarker <:+: d.text) ∧
      (∀ l ∈ ls, ¬ tag.endMarker <:+: l) ∧ Sheltered tag post
  | [], _ => .inl (by simp)
  | d :: ds, h => by
    by_cases hb : tag.beginMarker <:+: d.text
    · cases d with
      | kept l => exact absurd hb h.1
      | made l =>
        obtain ⟨⟨indent, hi, rfl⟩, hc⟩ := h.1 hb
        obtain ⟨ls, indent', post, rfl, hi', hl⟩ := hc.exists_eq
        refine .inr ⟨[], indent, ls, indent', post, rfl, hi, hi', by simp, hl, ?_⟩
        have h' := h.2
        clear h hc hb hl
        induction ls with
        | nil => exact h'.2
        | cons l ls ih => exact ih h'.2
    · have h' : Sheltered tag ds := by
        cases d with
        | kept l => exact h.2
        | made l => exact h.2
      rcases h'.cases with hn | ⟨pre, indent, ls, indent', post, rfl, hi, hi', hp, hl, hs⟩
      · exact .inl (List.forall_mem_cons.2 ⟨hb, hn⟩)
      · exact .inr ⟨d :: pre, indent, ls, indent', post, rfl, hi, hi', List.forall_mem_cons.2 ⟨hb, hp⟩, hl, hs⟩

end Traced

namespace Block

open Traced

/-- The lines `ls` are those of `original`, in their order, and made ones from which they are
sheltered. -/
def Shelters (tag : Tag) (original ls : List Text) : Prop :=
  ∃ ds : List Traced, ds.map Traced.text = ls ∧ ds.filterMap kept? = original ∧ Sheltered tag ds

namespace Shelters

variable {tag : Tag} {original ls ms : List Text} {indent : Text} {t : Text}

theorem refl (h : ∀ l ∈ ls, ¬ tag.beginMarker <:+: l) : Shelters tag ls ls := by
  refine ⟨ls.map kept, ?_, ?_, ?_⟩
  · rw [List.map_map]
    exact List.map_id' ls
  · rw [List.filterMap_map]
    exact List.filterMap_some
  · rw [← List.append_nil (ls.map kept)]
    refine sheltered_append (fun d hd => ?_) trivial
    obtain ⟨l, hl, rfl⟩ := List.mem_map.1 hd
    exact h l hl

/-- The original lines are all there, in their order. -/
theorem sublist (h : Shelters tag original ls) : original.Sublist ls := by
  obtain ⟨ds, rfl, rfl, -⟩ := h
  induction ds with
  | nil => exact List.Sublist.refl []
  | cons d ds ih =>
    cases d with
    | kept l => exact ih.cons_cons l
    | made l => exact ih.cons l

theorem of_eq (h : Shelters tag original ls) (e : ms = ls) : Shelters tag original ms := e ▸ h

/-- The lines that a frame puts in. -/
theorem closes_framed {cs : List Text} (hi : IsIndentation indent) (hc : CommentLines cs)
    (es : List Traced) : Closes tag ((framed tag indent cs).map made ++ es) ∧
      (Sheltered tag es → Sheltered tag ((framed tag indent cs).map made ++ es)) := by
  have hcs : ∀ l ∈ cs.map (indent ++ ·), ¬ HoldsMarker l := by
    intro l' hl'
    obtain ⟨l, hl, rfl⟩ := List.mem_map.1 hl'
    exact not_holdsMarker_indent hi (hc l hl).2.2
  have hb : ¬ tag.endMarker <:+: indent ++ tag.beginMarker := fun h => by
    cases Marker.eq_of_isInfix (m := .closing tag) (n := .opening tag) hi h
  have he : ¬ tag.beginMarker <:+: indent ++ tag.endMarker := fun h => by
    cases Marker.eq_of_isInfix (m := .opening tag) (n := .closing tag) hi h
  have hclose : Closes tag ((cs.map (indent ++ ·)).map made ++ made (indent ++ tag.endMarker) :: es) :=
    closes_append (fun l hl h => hcs l hl ⟨.closing tag, h⟩) (.inl ⟨indent, hi, rfl⟩)
  have hfr : (framed tag indent cs).map made ++ es = made (indent ++ tag.beginMarker) ::
      ((cs.map (indent ++ ·)).map made ++ made (indent ++ tag.endMarker) :: es) := by
    simp [framed]
  rw [hfr]
  refine ⟨.inr ⟨hb, hclose⟩, fun hs => ⟨fun _ => ⟨⟨indent, hi, rfl⟩, hclose⟩, ?_⟩⟩
  refine sheltered_append (fun d hd => ?_) ⟨fun h => absurd h he, hs⟩
  obtain ⟨l, hl, rfl⟩ := List.mem_map.1 hd
  exact fun h => hcs l hl ⟨.opening tag, h⟩

/-- A frame of the tag may be put in between any two lines. -/
theorem insert_frame {cs : List Text} (hi : IsIndentation indent) (hc : CommentLines cs)
    (h : Shelters tag original (ls ++ ms)) :
    Shelters tag original (ls ++ (framed tag indent cs ++ ms)) := by
  obtain ⟨ds, hd, rfl, hs⟩ := h
  obtain ⟨ds, es, rfl, rfl, rfl⟩ := List.map_eq_append_iff.1 hd
  refine ⟨ds ++ ((framed tag indent cs).map made ++ es), ?_, ?_, ?_⟩
  · simp only [List.map_append, List.map_map]
    congr 2
    exact List.map_id' _
  · have hn : ((framed tag indent cs).map made).filterMap kept? = [] := by
      simp [List.filterMap_map, List.filterMap_eq_nil_iff, kept?]
    rw [List.filterMap_append, List.filterMap_append, List.filterMap_append, hn, List.nil_append]
  · exact hs.insert (fun es => (closes_framed hi hc es).1) (fun es => (closes_framed hi hc es).2)

/-- What is found as a block is made of made lines. -/
theorem find? (h : Shelters tag original (solidLines t)) : Excerpt.find? tag t = none ∨
    ∃ e indent, Excerpt.find? tag t = some e ∧ IsIndentation indent ∧
      e.Spans (solidLines e.before) indent (solidLines e.after) ∧
      Shelters tag original (solidLines e.before ++ solidLines e.after) := by
  obtain ⟨ds, hd, rfl, hs⟩ := h
  rcases hs.cases with hn | ⟨pre, indent, ls, indent', post, rfl, hi, hi', hp, hl, hpost⟩
  · refine .inl (Excerpt.find?_eq_none ((Marker.infix_iff_solidLines (.opening tag)).not.2 ?_))
    rw [← hd]
    rintro ⟨l, hl, h⟩
    obtain ⟨d, hd, rfl⟩ := List.mem_map.1 hl
    exact hn d hd h
  · have hid : (ls.map made).map Traced.text = ls := by
      rw [List.map_map]
      exact List.map_id' ls
    rw [List.map_append, List.map_cons, List.map_append, List.map_cons, hid] at hd
    obtain ⟨e, he, hsp⟩ := Excerpt.exists_find?_eq hd.symm hi hi'
      (fun l hl h => by
        obtain ⟨d, hd, rfl⟩ := List.mem_map.1 hl
        exact hp d hd h) hl
    have ha := hsp.above
    have hb := hsp.below
    refine .inr ⟨e, indent, he, hi, by rw [ha, hb]; exact hsp, pre ++ post, ?_, ?_, sheltered_append hp hpost⟩
    · rw [ha, hb, List.map_append]
    · have hn : (ls.map made).filterMap kept? = [] := by
        simp [List.filterMap_map, List.filterMap_eq_nil_iff, kept?]
      simp [List.filterMap_append, List.filterMap_cons, hn, kept?]

theorem exciseAll (h : Shelters tag original (solidLines t)) :
    Shelters tag original (solidLines (Block.exciseAll tag t)) := by
  fun_induction Block.exciseAll tag t with
  | case1 => exact h
  | case2 t e he ih =>
    rcases h.find? with hn | ⟨e', indent, he', -, hsp, hs⟩
    · rw [hn] at he
      cases he
    · cases he.symm.trans he'
      exact ih (hs.of_eq (solidLines_excise hsp))

theorem removeAll (h : Shelters tag original (solidLines t)) :
    Shelters tag original (solidLines (Block.removeAll tag t)) :=
  h.exciseAll.of_eq (solidLines_removeAll tag t)

theorem replace? {cs : List Text} {t' : Text} (h : Shelters tag original (solidLines t))
    (hc : CommentLines cs) (hr : Block.replace? tag (frame tag [] cs) t = some t') :
    Shelters tag original (solidLines t') := by
  obtain ⟨e, he, rfl⟩ := Option.map_eq_some_iff.1 hr
  rcases h.find? with hn | ⟨e', indent, he', hi, hsp, hs⟩
  · rw [hn] at he
    cases he
  · cases he.symm.trans he'
    rw [hsp.indent, indentWith_frame hc, solidLines_exchange hsp, solidLines_frame hi hc.dropReturn]
    exact hs.insert_frame hi hc.dropReturn

theorem upsert {cs : List Text} {new : Text} (isAnchor : Text → Bool)
    (h : Shelters tag original (solidLines t)) (hc : CommentLines cs)
    (hn : new = [] ∨ new = frame tag [] cs) :
    Shelters tag original (solidLines (Block.upsert tag new isAnchor t)) := by
  unfold Block.upsert
  split
  · exact h.removeAll
  · next h0 =>
    obtain rfl := hn.resolve_left h0
    split
    · next e he =>
      rcases h.find? with hn | ⟨e', indent, he', -, -, hs⟩
      · rw [hn] at he
        cases he
      · cases he.symm.trans he'
        rw [solidLines_spliceApart, solidLines_frame .nil hc]
        exact hs.insert_frame .nil hc
    · split
      · next above below hb =>
        obtain ⟨lead, l, rfl, hs, -⟩ := splitBelow?_eq_some hb
        have hs' : rawLines t = (lead ++ [l]) ++ below := by simp [hs]
        have hab := solidLines_take_append_drop t (lead ++ [l]).length
        rw [hs', List.take_left' rfl, List.drop_left' rfl] at hab
        rw [solidLines_spliceApart, solidLines_frame .nil hc]
        exact (h.of_eq hab).insert_frame .nil hc
      · exact h

end Shelters
end Block
end Marginalia
