/-
# Batches told by code lines

A batch of blocks beside classes is a list of patches, each of which says on
which code lines its class stands and what its comment lines are. Placing the
batch weaves the patches into the text (`placeAll_eq_weave`), so texts with the
same code lines get the same lines beside the same code lines. In particular, if
the blocks of a batch are taken out and the batch is placed anew, what comes out
is the first outcome with its blank runs folded (`placeAll_again`).

Key definitions: `Placement.Patch`, `Placement.gather`, `Placement.Patch.Asks`.
Key theorems: `Placement.placeAll_eq_weave`, `Placement.placeAll_again`.
-/
import Marginalia.Proofs.Block.Repeating
import Marginalia.Proofs.Placement.Seating
import Marginalia.Proofs.Placement.Stacking
import Marginalia.Proofs.Placement.Unweaving

namespace Marginalia
namespace Placement

open Text Block Declaration

/-- A block at a class that starts and ends on code lines with given numbers. -/
structure Patch where
  /-- The code line on which the class starts. -/
  start : Nat
  /-- The code line on which the class ends. -/
  stop : Nat
  /-- The comment lines of the block. -/
  lines : List Text

namespace Patch

/-- The code line beside which the block goes. -/
def seat (pos : Position) (p : Patch) : Nat :=
  match pos with
  | .after => p.stop
  | .top | .before => p.start

/-- The lines of the block where it is placed, indented as its class is. -/
def rows (tag : Tag) (codes : List Text) (p : Patch) : List Text :=
  framed tag (indentOf (codes.getD p.start [])) p.lines

/-- The request, at its class, asks for the patch. -/
structure Asks (tag : Tag) (t : Text) (x : Declaration × Request) (p : Patch) : Prop where
  /-- Where the class is. -/
  sits : x.1.Sits t p.start p.stop
  /-- The block of the request. -/
  block : x.2.block = frame tag [] p.lines
  /-- The lines of the block are comments. -/
  comments : CommentLines p.lines
  /-- None of them ends with a carriage return. -/
  plain : ∀ l ∈ p.lines, l.getLast? ≠ some '\r'

end Patch

/-- The lines that patches put beside the `i`-th code line, those of the first patch on top. -/
def gather (tag : Tag) (pos : Position) (codes : List Text) (ps : List Patch) (i : Nat) : List Text :=
  (ps.filter fun p => p.seat pos = i).flatMap (·.rows tag codes)

section

variable {tag : Tag} {pos : Position} {codes : List Text} {t u v : Text} {p : Patch} {ps qs : List Patch}
  {x : Declaration × Request} {order order' : List (Declaration × Request)}

theorem isIndentation_indentOf (l : Text) : IsIndentation (indentOf l) := fun _ hc =>
  List.mem_takeWhile_imp hc

theorem gather_cons (tag : Tag) (pos : Position) (codes : List Text) (p : Patch) (ps : List Patch) :
    gather tag pos codes (p :: ps) = add (p.seat pos) (p.rows tag codes) (gather tag pos codes ps) := by
  funext i
  rw [gather, add, List.filter_cons]
  by_cases hi : p.seat pos = i
  · rw [if_pos (decide_eq_true hi), if_pos hi.symm, List.flatMap_cons, gather]
  · rw [if_neg (by simpa using hi), if_neg (Ne.symm hi), gather]

theorem areFrames_gather (h : ∀ p ∈ ps, CommentLines p.lines) (i : Nat) :
    AreFrames tag (gather tag pos codes ps i) := by
  induction ps with
  | nil => exact .nil tag
  | cons p ps ih =>
    rw [List.forall_mem_cons] at h
    rw [gather_cons, add]
    split
    · exact (AreFrames.framed (isIndentation_indentOf _) h.1).append (ih h.2)
    · exact ih h.2

theorem exists_of_gather_ne_nil {i : Nat} (h : gather tag pos codes ps i ≠ []) : ∃ p ∈ ps, p.seat pos = i := by
  rw [gather] at h
  obtain ⟨l, hl⟩ := List.exists_mem_of_ne_nil _ h
  obtain ⟨p, hp, -⟩ := List.mem_flatMap.1 hl
  exact ⟨p, (List.mem_filter.1 hp).1, of_decide_eq_true (List.mem_filter.1 hp).2⟩

theorem gather_eq_nil {i : Nat} (h : ∀ p ∈ ps, i ≤ p.seat pos) : ∀ j < i, gather tag pos codes ps j = [] := by
  intro j hj
  by_contra hne
  obtain ⟨p, hp, rfl⟩ := exists_of_gather_ne_nil hne
  exact absurd (h p hp) (Nat.not_le.2 hj)

/-- What is put right above a code line starts with the indentation of that line. -/
theorem head_gather (hp : pos ≠ .after) {i : Nat} {l : Text} (hl : l ∈ (gather tag pos codes ps i).head?) :
    '\n' ∉ l ∧ indentOf l = indentOf (codes.getD i []) := by
  rw [gather] at hl
  cases hf : ps.filter fun p => p.seat pos = i with
  | nil =>
    rw [hf] at hl
    cases hl
  | cons q qs =>
    have hq : q.start = i := by
      have hm : q ∈ ps.filter fun p => p.seat pos = i := by
        rw [hf]
        exact List.mem_cons_self
      have hs := of_decide_eq_true (List.mem_filter.1 hm).2
      cases pos with
      | after => exact absurd rfl hp
      | top | before => exact hs
    rw [hf, List.flatMap_cons, Patch.rows, framed, List.cons_append, List.head?_cons] at hl
    obtain rfl := Option.some.inj hl
    have hi := isIndentation_indentOf (codes.getD q.start [])
    obtain ⟨u, hu, -, hn⟩ := (Marker.opening tag).exists_text_eq
    simp only [Marker.text] at hu hn
    refine ⟨fun h => (List.mem_append.1 h).elim hi.newline_not_mem hn, ?_⟩
    rw [hu, indentOf, hi.takeWhile_append, hq]

/-! ### One patch -/

theorem indented_frame {indent : Text} {cs : List Text} (h : CommentLines cs) (hr : ∀ l ∈ cs, l.getLast? ≠ some '\r') :
    indented indent (frame tag [] cs) = frame tag indent cs := by
  obtain ⟨cs', -, he, hcs⟩ := exists_indented_eq tag indent h
  rw [he, hcs hr]

theorem Patch.Asks.anchorLine_eq (h : p.Asks tag t x) : anchorLine pos x.1 = lineOf t (p.seat pos) := by
  cases pos with
  | after => exact h.sits.endLine
  | top | before => exact h.sits.line

theorem Patch.Asks.cutLine_eq (hp : pos ≠ .top) (h : p.Asks tag t x) :
    cutLine pos x.1 = Placement.seat pos t (p.seat pos) := by
  cases pos with
  | top => exact absurd rfl hp
  | before =>
    rw [cutLine, h.sits.line, lineOf, Nat.add_sub_cancel]
    rfl
  | after => exact h.sits.endLine

theorem Patch.Asks.seat_lt (h : p.Asks tag t x) : p.seat pos < (codeLines t).length := by
  cases pos with
  | after => exact h.sits.stop_lt
  | top | before => exact h.sits.start_lt

/-- Placing one block more adds its patch, if none of the others is above it. -/
theorem Patch.Asks.place_eq (hp : pos ≠ .top) (h : p.Asks tag t x) (hq : ∀ q ∈ qs, p.seat pos ≤ q.seat pos) :
    place pos (weave pos (gather tag pos (codeLines t) qs) t) x.1 x.2.block =
      weave pos (gather tag pos (codeLines t) (p :: qs)) t := by
  have hstart : p.start ≤ p.seat pos := by
    cases pos with
    | after => exact h.sits.le
    | top | before => exact Nat.le_refl _
  have hi : indentAt (rawLines (weave pos (gather tag pos (codeLines t) qs) t)) x.1.line =
      indentOf ((codeLines t).getD p.start []) := by
    rw [h.sits.line]
    refine indentAt_weave h.sits.start_lt ?_ fun hp l hl => head_gather hp hl
    exact gather_eq_nil fun q hm => Nat.le_trans hstart (hq q hm)
  rw [place_eq_insertLine hp, hi, h.block, indented_frame h.comments h.plain]
  have hc : cutLine pos x.1 = Placement.seat pos t (p.seat pos) := h.cutLine_eq hp
  rw [hc, frame, insertLine_weave framed_ne_nil h.seat_lt (gather_eq_nil hq), gather_cons]
  rfl

/-- A block that is placed in a text without begin markers is the only one. -/
theorem exists_amid_place {cs : List Text} (hm : ¬ tag.beginMarker <:+: t) (h : CommentLines cs)
    (hr : ∀ l ∈ cs, l.getLast? ≠ some '\r') (pos : Position) (d : Declaration) :
    ∃ a c, Amid tag cs a ('\n' :: c) (place pos t d (frame tag [] cs)) := by
  obtain ⟨n, a, c, indent, cs', hi, -, hcs, he, hta, ha, hc⟩ := exists_place_eq pos t d tag h
  obtain rfl := hcs hr
  have hfresh {u : Text} (hu : ∀ l ∈ solidLines u, l ∈ solidLines t) : ¬ (Marker.opening tag).text <:+: u := by
    rw [Marker.infix_iff_solidLines]
    exact fun ⟨l, hl, hb⟩ => hm ((Marker.opening tag).infix_iff_solidLines.2 ⟨l, hu l hl, hb⟩)
  refine ⟨a, c, ⟨indent, hi, he⟩, hta, detached_newline_cons c, hfresh ?_, hfresh ?_⟩
  · rw [ha, ← solidLines_take_append_drop t n]
    exact fun l => List.mem_append_left _
  · rw [solidLines_newline_cons, hc, ← solidLines_take_append_drop t n]
    exact fun l => List.mem_append_right _

/-! ### Batches -/

/-- The block is a frame of the tag, no line of which ends with a carriage return, or there is none. -/
def IsPlain (tag : Tag) (block : Text) : Prop :=
  block = [] ∨ ∃ cs, CommentLines cs ∧ (∀ l ∈ cs, l.getLast? ≠ some '\r') ∧ block = frame tag [] cs

/-- Requests that put nothing in may be left out. -/
theorem placeAll_filter (pos : Position) (order : List (Declaration × Request)) (t : Text) :
    placeAll pos t order = placeAll pos t (order.filter fun x => x.2.block ≠ []) := by
  induction order generalizing t with
  | nil => rfl
  | cons x order ih =>
    rw [List.filter_cons]
    by_cases h0 : x.2.block = []
    · rw [if_neg (by simpa using h0), ← ih, placeAll, List.foldl_cons, if_pos h0]
      rfl
    · rw [if_pos (by simpa using h0), placeAll, placeAll, List.foldl_cons, List.foldl_cons, if_neg h0]
      exact ih _

theorem placeAll_of_eq_nil (h : ∀ x ∈ order, x.2.block = []) (t : Text) : placeAll pos t order = t := by
  rw [placeAll_filter, List.filter_eq_nil_iff.2 fun x hx => by simpa using h x hx]
  rfl

theorem placeAll_cons_nil (h0 : x.2.block = []) : placeAll pos t (x :: order) = placeAll pos t order := by
  rw [placeAll, List.foldl_cons, if_pos h0]
  rfl

theorem placeAll_cons (h0 : x.2.block ≠ []) :
    placeAll pos t (x :: order) = placeAll pos (place pos t x.1 x.2.block) order := by
  rw [placeAll, List.foldl_cons, if_neg h0]
  rfl

/-- A block that is placed is no code. -/
theorem codeLines_placeAll (hb : ∀ x ∈ order, IsPlain tag x.2.block) (t : Text) :
    codeLines (placeAll pos t order) = codeLines t := by
  induction order generalizing t with
  | nil => rfl
  | cons x order ih =>
    rw [List.forall_mem_cons] at hb
    by_cases h0 : x.2.block = []
    · rw [placeAll_cons_nil h0, ih hb.2]
    · obtain ⟨cs, hc, -, hbl⟩ := hb.1.resolve_left h0
      obtain ⟨n, indent, cs', hi, hc', he⟩ := exists_solidLines_place pos t x.1 tag hc
      rw [placeAll_cons h0, ih hb.2, hbl, codeLines_eq_filter, he, List.filter_append, List.filter_append,
        filter_framed hi hc', List.nil_append, ← List.filter_append, solidLines_take_append_drop, codeLines_eq_filter]

theorem placeAll_weave (hp : pos ≠ .top) (h : List.Forall₂ (Patch.Asks tag t) order ps)
    (hs : ps.Pairwise fun p q => q.seat pos ≤ p.seat pos) :
    ∀ {qs : List Patch}, (∀ p ∈ ps, ∀ q ∈ qs, p.seat pos ≤ q.seat pos) →
      placeAll pos (weave pos (gather tag pos (codeLines t) qs) t) order =
        weave pos (gather tag pos (codeLines t) (ps.reverse ++ qs)) t := by
  induction h with
  | nil => exact fun _ => rfl
  | @cons x p order ps hx _ ih =>
    intro qs hq
    rw [List.forall_mem_cons] at hq
    rw [List.pairwise_cons] at hs
    have h0 : x.2.block ≠ [] := by
      rw [hx.block]
      exact frame_ne_nil
    rw [placeAll_cons h0, hx.place_eq hp hq.1, ih hs.2 ?_, List.reverse_cons, List.append_assoc]
    · rfl
    · exact fun p' hp' => List.forall_mem_cons.2 ⟨hs.1 p' hp', hq.2 p' hp'⟩

/-- Placing a batch weaves its patches in. -/
theorem placeAll_eq_weave (hp : pos ≠ .top) (h : List.Forall₂ (Patch.Asks tag t) order ps)
    (hs : ps.Pairwise fun p q => q.seat pos ≤ p.seat pos) :
    placeAll pos t order = weave pos (gather tag pos (codeLines t) ps.reverse) t := by
  have hq : ∀ p ∈ ps, ∀ q ∈ ([] : List Patch), p.seat pos ≤ q.seat pos := by simp
  have hw := placeAll_weave hp h hs hq
  have hnil : weave pos (gather tag pos (codeLines t) []) t = t := weave_of_eq_nil (fun _ => rfl) t
  rwa [List.append_nil, hnil] at hw

/-- Blocks at the top are placed without regard to classes. -/
theorem placeAll_top (h : ∀ x ∈ order, x.2.block ≠ []) (t : Text) :
    placeAll .top t order = (order.map (·.2.block)).foldl atTop t := by
  induction order generalizing t with
  | nil => rfl
  | cons x order ih =>
    rw [List.forall_mem_cons] at h
    rw [placeAll_cons h.1, ih h.2]
    rfl

/-! ### Batches placed anew -/

/-- Each request of a batch that is found in two texts asks for a patch. -/
theorem exists_asks (hb : ∀ x ∈ order, IsPlain tag x.2.block ∧ x.2.block ≠ [])
    (h : List.Forall₂ (Keeps₂ u v) order order') :
    ∃ ps, List.Forall₂ (Patch.Asks tag u) order ps ∧ List.Forall₂ (Patch.Asks tag v) order' ps := by
  induction h with
  | nil => exact ⟨[], .nil, .nil⟩
  | @cons x y order order' hxy _ ih =>
    rw [List.forall_mem_cons] at hb
    obtain ⟨ps, hu, hv⟩ := ih hb.2
    obtain ⟨⟨-, -, -, i, j, hx, hy⟩, he⟩ := hxy
    obtain ⟨cs, hc, hr, hbl⟩ := hb.1.1.resolve_left hb.1.2
    exact ⟨⟨i, j, cs⟩ :: ps, .cons ⟨hx, hbl, hc, hr⟩ hu, .cons ⟨hy, by rw [he, hbl], hc, hr⟩ hv⟩

theorem exists_of_mem_patches (h : List.Forall₂ (Patch.Asks tag t) order ps) :
    ∀ p ∈ ps, ∃ x ∈ order, Patch.Asks tag t x p := by
  induction h with
  | nil => simp
  | @cons x p order ps hx _ ih =>
    rw [List.forall_mem_cons]
    refine ⟨⟨x, List.mem_cons_self, hx⟩, fun q hq => ?_⟩
    obtain ⟨y, hy, h⟩ := ih q hq
    exact ⟨y, List.mem_cons_of_mem _ hy, h⟩

theorem pairwise_seat (h : List.Forall₂ (Patch.Asks tag t) order ps)
    (hs : order.Pairwise fun x y => anchorLine pos y.1 ≤ anchorLine pos x.1) :
    ps.Pairwise fun p q => q.seat pos ≤ p.seat pos := by
  induction h with
  | nil => exact .nil
  | @cons x p order ps hx hrest ih =>
    rw [List.pairwise_cons] at hs ⊢
    refine ⟨fun q hq => ?_, ih hs.2⟩
    obtain ⟨y, hy, hyq⟩ := exists_of_mem_patches hrest q hq
    have hle := hs.1 y hy
    rwa [hyq.anchorLine_eq, hx.anchorLine_eq, lineOf_le_iff hyq.seat_lt hx.seat_lt] at hle

/-- The same is asked for in both texts. -/
theorem map_snd_of_keeps₂ (h : List.Forall₂ (Keeps₂ u v) order order') :
    order'.map (·.2) = order.map (·.2) := by
  induction h with
  | nil => rfl
  | cons hxy _ ih => rw [List.map_cons, List.map_cons, hxy.2, ih]

/-- Every block that is placed adds lines. -/
theorem length_solidLines_add_le (pos : Position) (hb : ∀ x ∈ order, IsPlain tag x.2.block) (t : Text) :
    (solidLines t).length + (order.filter fun x => x.2.block ≠ []).length ≤
      (solidLines (placeAll pos t order)).length := by
  induction order generalizing t with
  | nil => exact Nat.le_refl _
  | cons x order ih =>
    rw [List.forall_mem_cons] at hb
    by_cases h0 : x.2.block = []
    · rw [placeAll_cons_nil h0, List.filter_cons_of_neg (by simpa using h0)]
      exact ih hb.2 t
    · obtain ⟨cs, hc, -, hbl⟩ := hb.1.resolve_left h0
      obtain ⟨n, indent, cs', -, -, he⟩ := exists_solidLines_place pos t x.1 tag hc
      have hlen := congrArg List.length he
      rw [List.length_append, List.length_append] at hlen
      have htd := congrArg List.length (solidLines_take_append_drop t n)
      rw [List.length_append] at htd
      have hpos : 0 < (framed tag indent cs').length := List.length_pos_iff.2 framed_ne_nil
      have hrest := ih hb.2 (place pos t x.1 x.2.block)
      rw [placeAll_cons h0, List.filter_cons_of_pos (by simpa using h0), List.length_cons]
      rw [hbl] at hrest ⊢
      omega

theorem length_solidLines_placeAll (pos : Position) (hb : ∀ x ∈ order, IsPlain tag x.2.block)
    (hne : ∃ x ∈ order, x.2.block ≠ []) (t : Text) :
    (solidLines t).length < (solidLines (placeAll pos t order)).length := by
  obtain ⟨x, hx, h0⟩ := hne
  have hpos : 0 < (order.filter fun x => x.2.block ≠ []).length :=
    List.length_pos_of_mem (List.mem_filter.2 ⟨hx, decide_eq_true h0⟩)
  have := length_solidLines_add_le pos hb t
  omega

theorem forall₂_keeps₂_self (h : ∀ x ∈ order, ∃ i j, x.1.Sits t i j) :
    List.Forall₂ (Keeps₂ t t) order order := by
  rw [List.forall₂_same]
  intro x hx
  obtain ⟨i, j, hs⟩ := h x hx
  exact ⟨⟨rfl, rfl, rfl, i, j, hs, hs⟩, rfl⟩

/-- A batch that finds its classes in two texts with the same code weaves the same patches into them. -/
theorem exists_weave (hp : pos ≠ .top) (hb : ∀ x ∈ order, IsPlain tag x.2.block)
    (hs : order.Pairwise fun x y => anchorLine pos y.1 ≤ anchorLine pos x.1) (hc : codeLines u = codeLines t)
    (h : List.Forall₂ (Keeps₂ t u) order order') : ∃ ps,
      (∀ p ∈ ps, CommentLines p.lines ∧ ∃ x ∈ order, x.2.block ≠ [] ∧ anchorLine pos x.1 = lineOf t (p.seat pos)) ∧
      placeAll pos t order = weave pos (gather tag pos (codeLines t) ps) t ∧
      placeAll pos u order' = weave pos (gather tag pos (codeLines t) ps) u := by
  let kept := order.filter fun x => x.2.block ≠ []
  have hkept : ∀ x ∈ kept, IsPlain tag x.2.block ∧ x.2.block ≠ [] := fun x hx => by
    obtain ⟨hm, h0⟩ := List.mem_filter.1 hx
    exact ⟨hb x hm, of_decide_eq_true h0⟩
  have hk : List.Forall₂ (Keeps₂ t u) kept (order'.filter fun x => x.2.block ≠ []) :=
    List.rel_filter (fun x y hxy => by simp [hxy.2]) h
  have hsk : kept.Pairwise fun x y => anchorLine pos y.1 ≤ anchorLine pos x.1 := hs.sublist List.filter_sublist
  obtain ⟨ps, ht, hu⟩ := exists_asks hkept hk
  have hsp := pairwise_seat ht hsk
  refine ⟨ps.reverse, fun p hm => ?_, ?_, ?_⟩
  · obtain ⟨x, hx, ha⟩ := exists_of_mem_patches ht p (List.mem_reverse.1 hm)
    exact ⟨ha.comments, x, (List.mem_filter.1 hx).1, (hkept x hx).2, ha.anchorLine_eq⟩
  · rw [placeAll_filter, placeAll_eq_weave hp ht hsp]
  · rw [placeAll_filter, placeAll_eq_weave hp hu hsp, hc]

/-- Blocks of a batch are taken out and leave the lines of the text, and if the batch is placed anew in
what is left, the outcome is the same but for folded blank runs. -/
theorem placeAll_again (hb : ∀ x ∈ order, IsPlain tag x.2.block) (hne : ∃ x ∈ order, x.2.block ≠ [])
    (hm : ¬ tag.beginMarker <:+: t) (htop : pos = .top → Directive.Clear t)
    (hs : order.Pairwise fun x y => anchorLine pos y.1 ≤ anchorLine pos x.1)
    (hseat : ∀ x ∈ order, ∃ i j, x.1.Sits t i j) :
    solidLines (removeAll tag (placeAll pos t order)) = solidLines t ∧
      ∀ order', List.Forall₂ (Keeps₂ t (removeAll tag (placeAll pos t order))) order order' →
        placeAll pos (removeAll tag (placeAll pos t order)) order' = foldBlankRuns (placeAll pos t order) := by
  have hlt := length_solidLines_placeAll pos hb hne t
  by_cases hp : pos = .top
  · subst hp
    let blocks (rs : List (Declaration × Request)) : List Text :=
      ((rs.map (·.2)).filter fun r => r.block ≠ []).map (·.block)
    have hblocks (rs : List (Declaration × Request)) (t : Text) :
        placeAll .top t rs = (blocks rs).foldl atTop t := by
      rw [placeAll_filter, placeAll_top fun x hx => of_decide_eq_true (List.mem_filter.1 hx).2]
      simp only [blocks, List.filter_map, List.map_map]
      rfl
    have hf : ∀ b ∈ blocks order, IsFrame tag b := fun b hm => by
      obtain ⟨r, hr, rfl⟩ := List.mem_map.1 hm
      obtain ⟨hr, h0⟩ := List.mem_filter.1 hr
      obtain ⟨x, hx, rfl⟩ := List.mem_map.1 hr
      obtain ⟨cs, hc, -, he⟩ := (hb x hx).resolve_left (of_decide_eq_true h0)
      exact ⟨cs, hc, he⟩
    have h0 : blocks order ≠ [] := by
      obtain ⟨x, hx, h0⟩ := hne
      have hm : x.2 ∈ (order.map (·.2)).filter fun r => r.block ≠ [] :=
        List.mem_filter.2 ⟨List.mem_map_of_mem hx, decide_eq_true h0⟩
      exact List.ne_nil_of_mem (List.mem_map_of_mem hm)
    rw [hblocks] at hlt ⊢
    obtain ⟨hagain, hsolid⟩ := foldl_atTop_removeAll hf h0 hm (htop rfl) hlt
    refine ⟨hsolid, fun order' h => ?_⟩
    have hsame : blocks order' = blocks order := by simp only [blocks, map_snd_of_keeps₂ h]
    rw [hblocks, hsame, hagain]
  · have hself := forall₂_keeps₂_self hseat
    have hremove {ps : List Patch} (hps : ∀ p ∈ ps, CommentLines p.lines)
        (hw : placeAll pos t order = weave pos (gather tag pos (codeLines t) ps) t) :
        weave pos (gather tag pos (codeLines t) ps) (removeAll tag (placeAll pos t order)) =
          foldBlankRuns (placeAll pos t order) ∧
        solidLines (removeAll tag (placeAll pos t order)) = solidLines t := by
      rw [hw] at hlt ⊢
      exact weave_removeAll (areFrames_gather hps) hm hlt
    obtain ⟨ps, hps, hw, -⟩ := exists_weave hp hb hs rfl hself
    have hsolid := (hremove (fun p hm => (hps p hm).1) hw).2
    refine ⟨hsolid, fun order' h => ?_⟩
    obtain ⟨qs, hqs, hw, hw'⟩ := exists_weave hp hb hs (codeLines_eq_of_solidLines hsolid) h
    rw [hw', (hremove (fun p hm => (hqs p hm).1) hw).1]

end

end Placement
end Marginalia
