/-
# All blocks of a batch at once

A batch places one block after the other, each by the lines that the index has
read from the text of the beginning. What comes of it is that text with all
blocks put in at once, each beside the line of its class: `linesBeside` says
which lines these are (`insertAll_eq_interleave`). The blocks are placed from the
bottom up, so above the line at which the next one goes nothing has been put in
yet, and that line is found where it was (`placeAll_interleave`).

Key definitions: `Placement.linesAt`, `Placement.linesBeside`.
Key theorems: `Placement.placeAll_interleave`, `Placement.text_insertAll`,
`Placement.insertAll_eq_interleave`.
-/
import Marginalia.Proofs.Placement.Beside
import Marginalia.Proofs.Placement.Splicing
import Marginalia.Ruby.Reader

namespace Marginalia

namespace Text

/-- A text that does not end with a newline has a last line, and that is not empty. -/
theorem exists_lines_eq {t : Text} (h : ¬ Terminated t) : ∃ ls last, lines t = ls ++ [last] ∧ last ≠ [] := by
  induction t using lineRec with
  | nil => exact absurd terminated_nil h
  | last r hr h0 =>
    refine ⟨[], r, ?_, h0⟩
    rw [lines, rawLines_of_not_mem hr h0, List.map_singleton, dropLineEnd_of_not_mem hr]
    rfl
  | line r t hr ih =>
    obtain ⟨ls, last, hl, h0⟩ := ih fun ht => h (terminated_line_iff.2 ht)
    exact ⟨dropReturn r :: ls, last, by rw [lines_line hr, hl, List.cons_append], h0⟩

/-- The first line of a text that starts with a comment sign does so, also without its carriage return. -/
theorem head?_lines {t : Text} (h : t.head? = some '#') :
    (∃ l ∈ (rows t).head?, l.head? = some '#') ∧ ∃ l ∈ (lines t).head?, l.head? = some '#' := by
  induction t using lineRec with
  | nil => cases h
  | last r hr h0 =>
    rw [lines, rawLines_of_not_mem hr h0, rows_of_not_mem hr h0, List.map_singleton, dropLineEnd_of_not_mem hr]
    exact ⟨⟨r, rfl, h⟩, r, rfl, h⟩
  | line r t hr =>
    cases r with
    | nil => cases h
    | cons c r =>
      rw [lines_line hr, rows_line hr]
      exact ⟨⟨_, rfl, h⟩, _, rfl, head?_dropReturn h⟩

end Text

namespace Placement

open Text Block

/-! ### The lines of placed blocks -/

/-- A comment as it is handed over to be placed: its first line starts with the comment sign and its last
line has no newline. -/
def IsComment (block : Text) : Prop := block.head? = some '#' ∧ ¬ Terminated block

/-- A line with indentation, unless it is empty. -/
def indentLine (indent l : Text) : Text := if l = [] then [] else indent ++ l

/-- The lines of a block where it is placed in a text. -/
def linesAt (t : Text) (x : Declaration × Request) : List Text :=
  rows (indented (indentAt (rawLines t) x.1.line) x.2.block)

section

variable {indent block t : Text}

/-- A block is written as a comment. -/
theorem isComment_render (b : Block) (h : b.render ≠ []) : IsComment b.render := by
  have h0 : b.lines ≠ [] := render_eq_nil_iff.not.1 h
  have he : b.tag.endMarker ≠ [] := Marker.text_ne_nil (.closing b.tag)
  have hn : '\n' ∉ b.tag.endMarker := Marker.newline_not_mem_text (.closing b.tag)
  refine ⟨head?_render h0, ?_⟩
  rw [render_eq h0, terminated_line_iff, terminated_append_iff he]
  exact not_terminated hn he

theorem indentLine_nil (l : Text) : indentLine [] l = l := by
  unfold indentLine
  split
  · next h => exact h.symm
  · rfl

theorem indentLine_ne_nil {l : Text} (h : l ≠ []) : indentLine indent l ≠ [] := by simp [indentLine, h]

theorem newline_not_mem_indentLine (hi : IsIndentation indent) {l : Text} (h : '\n' ∉ l) :
    '\n' ∉ indentLine indent l := by
  unfold indentLine
  split
  · exact List.not_mem_nil
  · rw [List.mem_append]
    exact fun hm => hm.elim hi.newline_not_mem h

theorem indentOf_indentLine (hi : IsIndentation indent) {l : Text} (h : l.head? = some '#') :
    indentOf (indentLine indent l) = indent := by
  obtain ⟨u, rfl⟩ := List.head?_eq_some_iff.1 h
  rw [indentLine, if_neg (List.cons_ne_nil _ _), indentOf, List.takeWhile_append_of_pos hi,
    List.takeWhile_cons_of_neg (by decide), List.append_nil]

/-- The lines of an indented text are its lines, each with the indentation. -/
theorem rows_indentWith (hi : IsIndentation indent) (h : ¬ Terminated block) :
    ¬ Terminated (indentWith indent block) ∧
      rows (indentWith indent block) = (Text.lines block).map (indentLine indent) := by
  obtain ⟨ls, last, he, h0⟩ := exists_lines_eq h
  have hn {l : Text} (hl : l ∈ Text.lines block) : '\n' ∉ indentLine indent l :=
    newline_not_mem_indentLine hi (not_mem_of_mem_lines hl)
  have hj : indentWith indent block = joinLines (ls.map (indentLine indent) ++ [indentLine indent last]) := by
    rw [← List.map_singleton, ← List.map_append, ← he]
    rfl
  rw [hj, he, List.map_append, List.map_singleton]
  refine rows_joinLines (fun l' hl' => ?_) (hn (by simp [he])) (indentLine_ne_nil h0)
  obtain ⟨l, hl, rfl⟩ := List.mem_map.1 hl'
  exact hn (by simp [he, hl])

/-- Where a comment is placed, its first line is indented as is asked for, and its last line has no newline. -/
theorem IsComment.indented (h : IsComment block) (hi : IsIndentation indent) :
    ¬ Terminated (Placement.indented indent block) ∧
      ∃ l ∈ (rows (Placement.indented indent block)).head?, indentOf l = indent := by
  obtain ⟨⟨l, hl, hs⟩, m, hm, hs'⟩ := head?_lines h.1
  unfold Placement.indented
  split
  · next h0 =>
    subst h0
    exact ⟨h.2, l, hl, by simpa only [indentLine_nil] using indentOf_indentLine hi hs⟩
  · obtain ⟨ht, hr⟩ := rows_indentWith hi h.2
    rw [Option.mem_def] at hm
    exact ⟨ht, indentLine indent m, by rw [hr, List.head?_map, hm]; rfl, indentOf_indentLine hi hs'⟩

/-- The lines of a block without carriage returns are placed as they are, but for the indentation. -/
theorem rows_indented (hi : IsIndentation indent) (h : ¬ Terminated block) (hr : '\r' ∉ block) :
    rows (Placement.indented indent block) = (rows block).map (indentLine indent) := by
  unfold Placement.indented
  split
  · next h0 =>
    rw [h0, List.map_congr_left fun l _ => indentLine_nil l, List.map_id']
  · rw [(rows_indentWith hi h).2, lines_eq_rows hr]

end

/-! ### From the bottom up -/

/-- The lines that a batch puts beside line `n`, counted from one: the blocks of all requests whose class has
that line, those requested later on top, each indented as the line of its class is. -/
def linesBeside (pos : Position) (t : Text) (order : List (Declaration × Request)) (n : Nat) : List Text :=
  (order.filter fun x => anchorLine pos x.1 = n).reverse.flatMap (linesAt t)

section

variable {pos : Position} {g : Nat → List Text} {t : Text} {x : Declaration × Request}
  {order : List (Declaration × Request)}

theorem linesAt_of_eq_nil (h : x.2.block = []) : linesAt t x = [] := by
  have hi : Placement.indented (indentAt (rawLines t) x.1.line) [] = [] := by
    unfold Placement.indented
    split
    · rfl
    · rfl
  rw [linesAt, h, hi]
  rfl

theorem linesBeside_cons (n : Nat) : linesBeside pos t (x :: order) n =
    linesBeside pos t order n ++ if anchorLine pos x.1 = n then linesAt t x else [] := by
  rw [linesBeside, List.filter_cons]
  split
  · next h => rw [if_pos (of_decide_eq_true h), List.reverse_cons, List.flatMap_append, List.flatMap_singleton]; rfl
  · next h => rw [if_neg (by simpa using h), List.append_nil]; rfl

/-- The line beside which a block goes is a line of the text, and is not above that of the class. -/
theorem anchorLine_bounds (pos : Position) (hl : 1 ≤ x.1.line ∧ x.1.endLine ≤ (rawLines t).length) :
    x.1.line ≤ anchorLine pos x.1 ∧ anchorLine pos x.1 ≤ (rawLines t).length := by
  have := x.1.line_le_endLine
  cases pos with
  | after => exact ⟨this, hl.2⟩
  | top | before => exact ⟨Nat.le_refl _, Nat.le_trans this hl.2⟩

theorem cutLine_eq (hp : pos ≠ .top) (hl : 1 ≤ anchorLine pos x.1) :
    cutLine pos x.1 = anchorLine pos x.1 - 1 + if pos = .after then 1 else 0 := by
  cases pos with
  | top => exact absurd rfl hp
  | before => rfl
  | after => exact (Nat.sub_add_cancel hl).symm

/-- A block goes in front of the lines that are at its line, if nothing has been put in above. -/
theorem place_interleave (hp : pos ≠ .top) (hx : IsComment x.2.block)
    (hl : 1 ≤ x.1.line ∧ x.1.endLine ≤ (rawLines t).length) (hg : ∀ j, j + 1 < anchorLine pos x.1 → g j = [])
    (hh : pos = .before → ∀ i, ∀ l ∈ (g i).head?, '\n' ∉ l ∧ indentOf l = indentAt (rawLines t) (i + 1)) :
    place pos (interleave pos g t) x.1 x.2.block = interleave pos (add (anchorLine pos x.1 - 1) (linesAt t x) g) t := by
  obtain ⟨hle, hlt⟩ := anchorLine_bounds pos hl
  have hg' : ∀ j < anchorLine pos x.1 - 1, g j = [] := fun j hj => hg j (by omega)
  have hi : anchorLine pos x.1 - 1 < (rawLines t).length := by omega
  have hindent : indentAt (rawLines (interleave pos g t)) x.1.line = indentAt (rawLines t) x.1.line := by
    refine indentOf_interleave (i := anchorLine pos x.1 - 1) (by omega) hi hg' fun ha l hm => ?_
    exact hh (by cases pos <;> first | rfl | contradiction) _ l hm
  obtain ⟨ht, l, hl', -⟩ := hx.indented (isIndentation_indentAt (rawLines t) x.1.line)
  have h0 : linesAt t x ≠ [] := by
    intro h0
    rw [linesAt] at h0
    rw [h0] at hl'
    cases hl'
  rw [place_eq_insertLine hp, hindent, ← joinLines_rows ht, cutLine_eq hp (by omega)]
  exact insertLine_interleave h0 hi hg'

/-- A batch puts its blocks into the text at once. -/
theorem placeAll_interleave (hp : pos ≠ .top) (hb : ∀ x ∈ order, x.2.block = [] ∨ IsComment x.2.block)
    (hl : ∀ x ∈ order, 1 ≤ x.1.line ∧ x.1.endLine ≤ (rawLines t).length)
    (hs : order.Pairwise fun x y => anchorLine pos y.1 ≤ anchorLine pos x.1)
    (hg : ∀ x ∈ order, ∀ j, j + 1 < anchorLine pos x.1 → g j = [])
    (hh : pos = .before → ∀ i, ∀ l ∈ (g i).head?, '\n' ∉ l ∧ indentOf l = indentAt (rawLines t) (i + 1)) :
    placeAll pos (interleave pos g t) order =
      interleave pos (fun i => linesBeside pos t order (i + 1) ++ g i) t := by
  induction order generalizing g with
  | nil => rfl
  | cons x order ih =>
    rw [List.pairwise_cons] at hs
    rw [List.forall_mem_cons] at hb hl hg
    have hcons (i : Nat) : linesBeside pos t (x :: order) (i + 1) ++ g i = linesBeside pos t order (i + 1) ++
        add (anchorLine pos x.1 - 1) (linesAt t x) g i := by
      obtain ⟨hle, -⟩ := anchorLine_bounds pos hl.1
      rw [linesBeside_cons, List.append_assoc, add]
      by_cases hi : anchorLine pos x.1 = i + 1
      · rw [if_pos hi, if_pos (by omega)]
      · rw [if_neg hi, if_neg (by omega), List.nil_append]
    rw [placeAll, List.foldl_cons, funext hcons]
    by_cases h0 : x.2.block = []
    · have hadd : add (anchorLine pos x.1 - 1) (linesAt t x) g = g := by
        funext i
        simp [add, linesAt_of_eq_nil h0]
      rw [if_pos h0, hadd]
      exact ih hb.2 hl.2 hs.2 hg.2 hh
    · have hx := hb.1.resolve_left h0
      rw [if_neg h0, place_interleave hp hx hl.1 hg.1 hh]
      refine ih hb.2 hl.2 hs.2 (fun y hy j hj => ?_) fun hp' i l hm => ?_
      · have hyx := hs.1 y hy
        rw [add, if_neg (by omega)]
        exact hg.1 j (by omega)
      · rw [add] at hm
        split at hm
        · next hi =>
          subst hi hp'
          obtain ⟨l', hl', hindent⟩ := (hx.indented (isIndentation_indentAt (rawLines t) x.1.line)).2
          rw [Option.mem_def] at hl'
          rw [Option.mem_def, List.head?_append, linesAt, hl', Option.some_or, Option.some.injEq] at hm
          subst hm
          refine ⟨not_mem_of_mem_rows (List.mem_of_head? hl'), ?_⟩
          rw [hindent, show anchorLine .before x.1 = x.1.line from rfl, Nat.sub_add_cancel hl.1.1]
        · exact hh hp' i l hm

/-- The requests of one line stay in order when a batch is sorted. -/
theorem filter_bottomUp (pos : Position) (rs : List (Declaration × Request)) (n : Nat) :
    (bottomUp pos rs).filter (fun x => anchorLine pos x.1 = n) = rs.filter fun x => anchorLine pos x.1 = n := by
  let le (x y : Declaration × Request) : Bool := anchorLine pos y.1 ≤ anchorLine pos x.1
  have htrans : ∀ x y z, le x y → le y z → le x z := fun x y z h₁ h₂ => by
    simp only [le, decide_eq_true_eq] at *
    omega
  have htotal : ∀ x y, le x y || le y x := fun x y => by
    simp only [le, Bool.or_eq_true, decide_eq_true_eq]
    omega
  have hs : (rs.filter fun x => anchorLine pos x.1 = n).Pairwise fun x y => le x y := by
    refine List.pairwise_of_forall_mem_list fun x hx y hy => ?_
    have hx := of_decide_eq_true (List.mem_filter.1 hx).2
    have hy := of_decide_eq_true (List.mem_filter.1 hy).2
    simp only [le, decide_eq_true_eq]
    omega
  have hsub := (List.sublist_mergeSort htrans htotal hs List.filter_sublist).filter fun x => anchorLine pos x.1 = n
  rw [List.filter_filter] at hsub
  simp only [Bool.and_self] at hsub
  refine (hsub.eq_of_length_le ?_).symm
  exact ((List.mergeSort_perm rs le).filter _).length_eq.le

/-- A batch puts the blocks of all requests whose classes are found into the text at once. -/
theorem text_insertAll {index : Index} {rs : List Request} (hp : pos ≠ .top)
    (hd : ∀ d ∈ index.classes, 1 ≤ d.line ∧ d.endLine ≤ (rawLines t).length)
    (hb : ∀ r ∈ rs, r.block = [] ∨ IsComment r.block) :
    (insertAll pos index t rs).text =
      interleave pos (fun i => linesBeside pos t (resolved index rs) (i + 1)) t := by
  have hm {x : Declaration × Request} (hx : x ∈ bottomUp pos (resolved index rs)) :
      x.1 ∈ index.classes ∧ x.2 ∈ rs := mem_resolved (List.mem_mergeSort.1 hx)
  have hall := placeAll_interleave (g := fun _ => []) hp (fun x hx => hb x.2 (hm hx).2)
    (fun x hx => hd x.1 (hm hx).1) (pairwise_bottomUp pos _) (fun _ _ _ _ => rfl) (fun _ _ _ hl => nomatch hl)
  rw [interleave_of_eq_nil fun _ => rfl] at hall
  rw [insertAll, hall]
  refine congrArg (interleave pos · t) (funext fun i => ?_)
  rw [List.append_nil, linesBeside, filter_bottomUp, linesBeside]

/-- The requests whose classes are found, from the top of a text down, those of one line from the last to
the first. -/
structure TopDown (pos : Position) (requests order : List (Declaration × Request)) : Prop where
  /-- They are the same requests. -/
  perm : order.Perm requests
  /-- They go from the top down. -/
  sorted : order.Pairwise fun x y => anchorLine pos x.1 ≤ anchorLine pos y.1
  /-- Those of one line are in reverse order. -/
  ties : ∀ n, order.filter (fun x => anchorLine pos x.1 = n) =
    (requests.filter fun x => anchorLine pos x.1 = n).reverse

theorem topDown_bottomUp (pos : Position) (requests : List (Declaration × Request)) :
    TopDown pos requests (bottomUp pos requests).reverse where
  perm := (List.reverse_perm _).trans (List.mergeSort_perm _ _)
  sorted := List.pairwise_reverse.2 (pairwise_bottomUp pos requests)
  ties n := by rw [List.filter_reverse, filter_bottomUp]

/-- **A batch puts all its blocks beside the lines of the classes at once.** Beside each line of the text, which
is kept, stand the blocks of all requests whose class has that line, those requested later on top, each line
with the indentation of the class. The names whose classes are found are reported from the top down. -/
theorem insertAll_eq_interleave (pos : Position) {index : Index} {rs : List Request}
    (hd : ∀ d ∈ index.classes, 1 ≤ d.line ∧ d.endLine ≤ (rawLines t).length)
    (hb : ∀ r ∈ rs, '\r' ∉ r.block ∧ (r.block = [] ∨ ∃ b : Block, r.block = b.render)) :
    (pos ≠ .top → (insertAll pos index t rs).text = interleave pos (fun i =>
      ((resolved index rs).filter fun x => anchorLine pos x.1 = i + 1).reverse.flatMap fun x =>
        (rows x.2.block).map (indentLine (indentAt (rawLines t) x.1.line))) t) ∧
    (∃ order, TopDown pos (resolved index rs) order ∧
      (insertAll pos index t rs).inserted = order.map (·.2.name)) ∧
    (insertAll pos index t rs).missing = (rs.filter fun r => (index.resolve? r.name).isNone).map (·.name) := by
  have hcomment {r : Request} (hr : r ∈ rs) : r.block = [] ∨ IsComment r.block := by
    rcases (hb r hr).2 with h0 | ⟨b, he⟩
    · exact .inl h0
    · by_cases h0 : r.block = []
      · exact .inl h0
      · exact .inr (he ▸ isComment_render b (he ▸ h0))
  refine ⟨fun hp => ?_, ⟨_, topDown_bottomUp pos _, ?_⟩, rfl⟩
  · rw [text_insertAll hp hd fun r hr => hcomment hr]
    refine congrArg (interleave pos · t) (funext fun i => List.flatMap_congr fun x hx => ?_)
    have hr : x.2 ∈ rs := (mem_resolved (List.mem_filter.1 (List.mem_reverse.1 hx)).1).2
    rcases hcomment hr with h0 | hc
    · rw [linesAt_of_eq_nil h0, h0]
      rfl
    · exact rows_indented (isIndentation_indentAt _ _) hc.2 (hb x.2 hr).1
  · rw [insertAll, List.map_reverse]

/-- A class with two more on one of its lines, in a text whose last line has no newline. -/
def nestedClasses : Text := "class Shop\n  class Item; end; class Cart; end\nend".toList

/-- Requests for the classes, some of them twice or without lines, and for one that is not there. -/
def nestedRequests : List Request :=
  [("Item", Block.mk .schema ["id".toList]), ("Shop", Block.mk .routes [[], "GET /".toList]),
    ("Ghost", Block.mk .schema []), ("Item", Block.mk .routes []),
    ("Shop::Cart", Block.mk .mailer ["cart".toList])].map fun p =>
      { name := p.1, block := p.2.render }

theorem insertAll_eq_interleave_classes :
    let index := Index.ofSource nestedClasses
    (∀ d ∈ index.classes, 1 ≤ d.line ∧ d.endLine ≤ (rawLines nestedClasses).length) ∧
      (∀ r ∈ nestedRequests, '\r' ∉ r.block ∧ (r.block = [] ∨ ∃ b : Block, r.block = b.render)) ∧
      (insertAll .after index nestedClasses nestedRequests).text =
        ("class Shop\n  class Item; end; class Cart; end\n  # --- BEGIN annotate:mailer ---\n  # cart\n" ++
          "  # --- END annotate:mailer ---\n  # --- BEGIN annotate:schema ---\n  # id\n" ++
          "  # --- END annotate:schema ---\nend\n# --- BEGIN annotate:routes ---\n#\n# GET /\n" ++
          "# --- END annotate:routes ---\n").toList ∧
      (∃ order, TopDown .after (resolved index nestedRequests) order ∧
        (insertAll .after index nestedClasses nestedRequests).inserted = order.map (·.2.name)) ∧
      (insertAll .after index nestedClasses nestedRequests).missing = ["Ghost"] := by
  intro index
  have hd : ∀ d ∈ index.classes, 1 ≤ d.line ∧ d.endLine ≤ (rawLines nestedClasses).length := by decide +kernel
  have hb : ∀ r ∈ nestedRequests, '\r' ∉ r.block ∧ (r.block = [] ∨ ∃ b : Block, r.block = b.render) := by
    have hr : ∀ r ∈ nestedRequests, '\r' ∉ r.block := by decide +kernel
    refine fun r hm => ⟨hr r hm, ?_⟩
    obtain ⟨p, -, rfl⟩ := List.mem_map.1 hm
    exact .inr ⟨p.2, rfl⟩
  obtain ⟨htext, hinserted, hmissing⟩ := insertAll_eq_interleave .after hd hb
  refine ⟨hd, hb, (htext nofun).trans ?_, hinserted, hmissing.trans (by decide +kernel)⟩
  -- the texts are spelled out, as a literal is decoded anew wherever it is compared
  unfold index nestedClasses nestedRequests
  repeat rewrite [String.toList_append]
  repeat rewrite [String.toList_ofList]
  decide +kernel

end
end Placement
end Marginalia
