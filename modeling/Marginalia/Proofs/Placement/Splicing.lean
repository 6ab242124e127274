/-
# Blocks placed between lines

`insertLine` puts the lines of a block between two lines of a text and changes
no other line (`rows_insertLine`). Where no block is open between the two lines,
this keeps the source; so does putting a block below the leading directives,
none of which is a marker. Blocks are placed from the bottom up, and what is
placed at a line changes none of the lines above it, so each of them finds its
place as it was in the beginning (`keeps_insertAll`).

Key definition: `Placement.cutLine`.
Key theorems: `Placement.rows_insertLine`, `Placement.keeps_place`, `Placement.keeps_insertAll`.
-/
import Marginalia.Placement.Batch
import Marginalia.Proofs.Block.Keeping

namespace Marginalia

namespace Index

theorem mem_of_find? {ds : List Declaration} {query : String} {d : Declaration}
    (h : Index.find? ds query = some d) : d ∈ ds := by
  unfold Index.find? at h
  split at h
  · next he =>
    cases h
    exact List.mem_of_find?_eq_some he
  · split at h
    · cases h
    · exact List.mem_of_find?_eq_some h

/-- What a name stands for is a class of the index. -/
theorem mem_of_resolve? {i : Index} {query : String} {d : Declaration} (h : i.resolve? query = some d) :
    d ∈ i.classes := by
  unfold resolve? at h
  split at h
  · split at h
    · next hf =>
      cases h
      exact mem_of_find? hf
    · exact List.mem_of_find?_eq_some h
  · exact List.mem_of_find?_eq_some h

end Index

namespace Placement

open Text Block

/-! ### Between two lines -/

/-- What stands above a block that was put below line `n`. -/
theorem exists_insertLine_eq (t : Text) (n : Nat) (block : Text) :
    ∃ a, insertLine (rawLines t) n block = a ++ (block ++ '\n' :: ((rawLines t).drop n).flatten) ∧
      Terminated a ∧ rows a = (rows t).take n := by
  simp only [insertLine]
  split
  · next h => exact ⟨_, by simp, h, rows_take t n⟩
  · next h =>
    refine ⟨((rawLines t).take n).flatten ++ ['\n'], by simp, terminated_append_newline _, ?_⟩
    rw [rows_append_newline h, rows_take]

theorem rows_insertLine (t : Text) (n : Nat) {ls : List Text} (h0 : ls ≠ []) (h : ∀ l ∈ ls, '\n' ∉ l) :
    rows (insertLine (rawLines t) n (joinLines ls)) = (rows t).take n ++ (ls ++ (rows t).drop n) := by
  obtain ⟨a, he, ha, hr⟩ := exists_insertLine_eq t n (joinLines ls)
  rw [he, rows_append ha, hr, ← List.singleton_append, ← List.append_assoc (joinLines ls),
    joinLines_append_newline h0, rows_paragraph_append h, rows_drop]

/-- A block put below line `n` leaves the first lines as they are. -/
theorem take_rows_insertLine {t : Text} {m n : Nat} {ls : List Text} (h0 : ls ≠ [])
    (h : ∀ l ∈ ls, '\n' ∉ l) (hm : m ≤ n) (hl : m ≤ (rows t).length) :
    (rows (insertLine (rawLines t) n (joinLines ls))).take m = (rows t).take m := by
  rw [rows_insertLine t n h0 h, List.take_append_of_le_length (by rw [List.length_take]; omega),
    List.take_take, Nat.min_eq_left hm]

variable {tag : Tag} {t : Text}

theorem solidLines_insertLine (t : Text) (n : Nat) (block : Text) :
    solidLines (insertLine (rawLines t) n block) = solidLines ((rawLines t).take n).flatten ++
      (solidLines block ++ solidLines ((rawLines t).drop n).flatten) := by
  obtain ⟨a, he, ha, hr⟩ := exists_insertLine_eq t n block
  have hs : solidLines a = solidLines ((rawLines t).take n).flatten := by
    rw [solidLines, hr, solidLines, rows_take]
  rw [he, solidLines_append ha, solidLines_append_newline, hs]

/-- A block between two lines, where no block is open, keeps the source. -/
theorem keeps_of_solidLines_eq {n : Nat} {block t' : Text} {ls : List Text} (h : WellMarked t)
    (hc : ClosedAt t n) (hb : HasParts block [.block tag ls])
    (hs : solidLines t' = solidLines ((rawLines t).take n).flatten ++
      (solidLines block ++ solidLines ((rawLines t).drop n).flatten)) : Keeps [tag] t t' := by
  obtain ⟨ps, qs, hp, hab, hbe⟩ := hasParts_take_drop h hc
  exact keeps_of_block (hp ▸ h.hasParts) (hab.around hbe hb hs)

/-! ### Below the leading directives -/

theorem not_isDirective_marker {indent : Text} (hi : IsIndentation indent) (m : Marker) :
    Directive.isDirective (indent ++ m.text) = false := by
  cases indent with
  | nil =>
    have : ∀ m ∈ Marker.all, Directive.isDirective ([] ++ m.text) = false := by decide
    exact this m m.mem_all
  | cons c indent =>
    have ht := dropEndWhile_append_takeEndWhile isBlank (c :: indent ++ m.text)
    unfold Directive.isDirective trimEnd
    split
    · next rest h =>
      rw [h, List.cons_append, List.cons_append, List.cons.injEq] at ht
      exact absurd (ht.1 ▸ List.mem_cons_self) hi.sign_not_mem
    · rfl

theorem ofLine?_of_isDirective {l : Text}
    (h : Directive.isDirective l ∨ Directive.isDirective (dropReturn l)) : Marker.ofLine? l = none := by
  cases hm : Marker.ofLine? l with
  | none => rfl
  | some m =>
    obtain ⟨indent, hi, rfl⟩ := Marker.ofLine?_eq_some_iff.1 hm
    have hr : '\r' ∉ indent ++ m.text := by
      have : ∀ m ∈ Marker.all, '\r' ∉ m.text := by decide
      rw [List.mem_append]
      rintro (h' | h')
      · exact absurd (hi _ h') (by decide)
      · exact this m m.mem_all h'
    rw [dropReturn_of_getLast? fun h => hr (List.mem_of_getLast? h), or_self, not_isDirective_marker hi m] at h
    cases h

/-- No marker is among the leading directives. -/
theorem closedAt_headerLength (t : Text) : ClosedAt t (Directive.headerLength t) := by
  have : ((rows t).take (Directive.headerLength t)).filterMap Marker.ofLine? = [] := by
    unfold Directive.headerLength
    induction t using lineRec with
    | nil => rfl
    | last r hr h0 =>
      rw [rows_of_not_mem hr h0, Text.lines, rawLines_of_not_mem hr h0, List.map_singleton,
        dropLineEnd_of_not_mem hr, List.takeWhile_cons]
      split
      · next h => simp [ofLine?_of_isDirective (.inl h)]
      · rfl
    | line r t hr ih =>
      rw [rows_line hr, lines_line hr, List.takeWhile_cons]
      split
      · next h =>
        rw [List.length_cons, List.take_succ_cons, List.filterMap_cons_none
          (ofLine?_of_isDirective (.inr h)), ih]
      · rfl
  rw [ClosedAt, this]
  trivial

/-- The text above a block at the top: the leading directives, and an empty line below them. -/
def topHead (head : Text) : Text :=
  if head = [] then [] else head ++ (if head.getLast? = some '\n' then [] else ['\n']) ++ ['\n']

theorem atTop_eq (t block : Text) : atTop t block =
    topHead (Directive.splitHeader t).1 ++ (block ++ '\n' ::
      (if dropNewlines (Directive.splitHeader t).2 = [] then []
        else '\n' :: dropNewlines (Directive.splitHeader t).2)) := by
  simp only [atTop, topHead, List.append_assoc]

theorem terminated_topHead (head : Text) : Terminated (topHead head) := by
  unfold topHead
  split
  · exact terminated_nil
  · exact terminated_append_newline _

theorem solidLines_topHead (head : Text) : solidLines (topHead head) = solidLines head := by
  unfold topHead
  split
  · next h => rw [h]
  · rw [List.append_assoc, solidLines_append_newlines]
    split <;> simp

theorem solidLines_atTop (t block : Text) : solidLines (atTop t block) =
    solidLines ((rawLines t).take (Directive.headerLength t)).flatten ++
      (solidLines block ++ solidLines ((rawLines t).drop (Directive.headerLength t)).flatten) := by
  have hs : solidLines (if dropNewlines (Directive.splitHeader t).2 = [] then []
      else '\n' :: dropNewlines (Directive.splitHeader t).2) = solidLines (Directive.splitHeader t).2 := by
    rw [← solidLines_dropNewlines (Directive.splitHeader t).2]
    split
    · next h => rw [h]
    · rw [solidLines_newline_cons]
  rw [atTop_eq, solidLines_append (terminated_topHead _), solidLines_append_newline, solidLines_topHead, hs]
  rfl

/-! ### Batches -/

/-- The number of lines above a block beside a declaration. -/
def cutLine (pos : Position) (d : Declaration) : Nat :=
  match pos with
  | .top => 0
  | .before => d.line - 1
  | .after => d.endLine

/-- A block without indentation is indented where it is placed. -/
theorem exists_indented_eq (tag : Tag) (indent : Text) {ls : List Text} (h : CommentLines ls) :
    ∃ ls', CommentLines ls' ∧ indented indent (frame tag [] ls) = frame tag indent ls' ∧
      ((∀ l ∈ ls, l.getLast? ≠ some '\r') → ls' = ls) := by
  unfold indented
  split
  · next h0 => exact ⟨ls, h, by rw [h0], fun _ => rfl⟩
  · exact ⟨_, h.dropReturn, indentWith_frame h, map_dropReturn_of_getLast?⟩

theorem isIndentation_indentAt (ls : List Text) (n : Nat) : IsIndentation (indentAt ls n) :=
  fun _ hc => List.mem_takeWhile_imp hc

/-- Beside a declaration a block is put between two lines. -/
theorem place_eq_insertLine {pos : Position} (h : pos ≠ .top) (t : Text) (d : Declaration) (block : Text) :
    place pos t d block =
      insertLine (rawLines t) (cutLine pos d) (indented (indentAt (rawLines t) d.line) block) := by
  cases pos with
  | top => exact absurd rfl h
  | before => rfl
  | after => rfl

theorem keeps_place {pos : Position} {d : Declaration} {ls : List Text} (h : WellMarked t)
    (hl : CommentLines ls) (hc : ClosedAt t (cutLine pos d)) :
    Keeps [tag] t (place pos t d (frame tag [] ls)) := by
  by_cases hp : pos = .top
  · subst hp
    exact keeps_of_solidLines_eq h (closedAt_headerLength t) (hasParts_frame .nil hl) (solidLines_atTop t _)
  · obtain ⟨ls', hl', he, -⟩ := exists_indented_eq tag (indentAt (rawLines t) d.line) hl
    rw [place_eq_insertLine hp, he]
    exact keeps_of_solidLines_eq h hc (hasParts_frame (isIndentation_indentAt _ _) hl')
      (solidLines_insertLine t _ _)

/-- A block that is placed is put between two lines. -/
theorem exists_place_eq (pos : Position) (t : Text) (d : Declaration) (tag : Tag) {ls : List Text}
    (hl : CommentLines ls) : ∃ n a c indent ls', IsIndentation indent ∧ CommentLines ls' ∧
      ((∀ l ∈ ls, l.getLast? ≠ some '\r') → ls' = ls) ∧
      place pos t d (frame tag [] ls) = a ++ (frame tag indent ls' ++ '\n' :: c) ∧ Terminated a ∧
      solidLines a = solidLines ((rawLines t).take n).flatten ∧
      solidLines c = solidLines ((rawLines t).drop n).flatten := by
  by_cases hp : pos = .top
  · subst hp
    refine ⟨Directive.headerLength t, _, _, [], ls, .nil, hl, fun _ => rfl, atTop_eq t _, terminated_topHead _,
      solidLines_topHead _, ?_⟩
    have hd := solidLines_dropNewlines (Directive.splitHeader t).2
    show _ = solidLines (Directive.splitHeader t).2
    split
    · next h => rw [← hd, h]
    · rw [solidLines_newline_cons, hd]
  · obtain ⟨ls', hl', he, hr⟩ := exists_indented_eq tag (indentAt (rawLines t) d.line) hl
    obtain ⟨a, ha, hta, hrows⟩ := exists_insertLine_eq t (cutLine pos d)
      (frame tag (indentAt (rawLines t) d.line) ls')
    refine ⟨cutLine pos d, a, _, indentAt (rawLines t) d.line, ls', isIndentation_indentAt _ _, hl', hr, ?_, hta,
      ?_, rfl⟩
    · rw [place_eq_insertLine hp, he, ha]
    · rw [solidLines, hrows, solidLines, rows_take]

theorem exists_solidLines_place (pos : Position) (t : Text) (d : Declaration) (tag : Tag) {ls : List Text}
    (hl : CommentLines ls) : ∃ n indent ls', IsIndentation indent ∧ CommentLines ls' ∧
      solidLines (place pos t d (frame tag [] ls)) = solidLines ((rawLines t).take n).flatten ++
        (framed tag indent ls' ++ solidLines ((rawLines t).drop n).flatten) := by
  obtain ⟨n, a, c, indent, ls', hi, hl', -, he, ht, ha, hc⟩ := exists_place_eq pos t d tag hl
  refine ⟨n, indent, ls', hi, hl', ?_⟩
  rw [he, solidLines_append ht, solidLines_append_newline, solidLines_frame hi hl', ha, hc]

/-- A block leaves the lines above the place where it is put. -/
theorem take_rows_place (tag : Tag) {t : Text} {pos : Position} {d : Declaration} {ls : List Text} {m : Nat}
    (hl : CommentLines ls)
    (hm : m ≤ cutLine pos d) (hr : m ≤ (rows t).length) :
    (rows (place pos t d (frame tag [] ls))).take m = (rows t).take m := by
  by_cases hp : pos = .top
  · subst hp
    cases Nat.le_zero.1 hm
    rfl
  · obtain ⟨ls', hl', he, -⟩ := exists_indented_eq tag (indentAt (rawLines t) d.line) hl
    rw [place_eq_insertLine hp, he]
    exact take_rows_insertLine framed_ne_nil
      (newline_not_mem_framed (isIndentation_indentAt _ _) hl') hm hr

/-- A block to be placed is written for one of the tags, or empty. -/
def IsRequest (tags : List Tag) (block : Text) : Prop :=
  block = [] ∨ ∃ tag ∈ tags, ∃ ls, CommentLines ls ∧ block = frame tag [] ls

/-- What holds of a text to which nothing is left to be placed, is kept by a request for an empty block,
and is handed on from the text in which a block was placed, holds of blocks placed from the bottom up. -/
theorem placeAll_induction {pos : Position} (tags : List Tag)
    {motive : Text → List (Declaration × Request) → Text → Prop} (nil : ∀ {t}, WellMarked t → motive t [] t)
    (skip : ∀ {t r rs t'}, r.2.block = [] → motive t rs t' → motive t (r :: rs) t')
    (put : ∀ {t r rs t' tag ls}, WellMarked t → tag ∈ tags → CommentLines ls → r.2.block = frame tag [] ls →
      ClosedAt t (cutLine pos r.1) → motive (place pos t r.1 r.2.block) rs t' → motive t (r :: rs) t') :
    ∀ {rs : List (Declaration × Request)} {t : Text}, WellMarked t →
      rs.Pairwise (fun a b => cutLine pos b.1 ≤ cutLine pos a.1) → (∀ r ∈ rs, IsRequest tags r.2.block) →
      (∀ r ∈ rs, ClosedAt t (cutLine pos r.1) ∧ cutLine pos r.1 ≤ (rows t).length) →
      motive t rs (placeAll pos t rs)
  | [], _, h, _, _, _ => nil h
  | r :: rs, t, h, hs, hb, hc => by
    rw [List.pairwise_cons] at hs
    rw [List.forall_mem_cons] at hb hc
    rw [placeAll, List.foldl_cons]
    rcases hb.1 with h0 | ⟨tag, ht, ls, hl, he⟩
    · rw [if_pos h0]
      exact skip h0 (placeAll_induction tags nil skip put h hs.2 hb.2 hc.2)
    · rw [if_neg (by rw [he]; exact frame_ne_nil)]
      refine put h ht hl he hc.1.1 ?_
      rw [he]
      refine placeAll_induction tags nil skip put (keeps_place h hl hc.1.1).1 hs.2 hb.2 fun r' hr' => ?_
      obtain ⟨hcl, hle⟩ := hc.2 r' hr'
      have htake := take_rows_place tag hl (hs.1 r' hr') hle
      refine ⟨by rw [ClosedAt, htake]; exact hcl, ?_⟩
      have := congrArg List.length htake
      rw [List.length_take, List.length_take] at this
      omega

/-- Blocks that are placed from the bottom up keep the source. -/
theorem keeps_placeAll {pos : Position} {tags : List Tag} {rs : List (Declaration × Request)} {t : Text}
    (h : WellMarked t) (hs : rs.Pairwise fun a b => cutLine pos b.1 ≤ cutLine pos a.1)
    (hb : ∀ r ∈ rs, IsRequest tags r.2.block)
    (hc : ∀ r ∈ rs, ClosedAt t (cutLine pos r.1) ∧ cutLine pos r.1 ≤ (rows t).length) :
    Keeps tags t (placeAll pos t rs) := by
  refine placeAll_induction tags (motive := fun t _ t' => Keeps tags t t') (fun h => keeps_refl h tags)
    (fun _ hk => hk) (fun h ht hl he hc hk => ?_) h hs hb hc
  rw [he] at hk
  exact ((keeps_place h hl hc).mono (by simpa using ht)).trans hk

theorem cutLine_mono {pos : Position} {a b : Declaration} (h : anchorLine pos b ≤ anchorLine pos a) :
    cutLine pos b ≤ cutLine pos a := by
  cases pos with
  | top => exact Nat.le_refl 0
  | before => exact Nat.sub_le_sub_right h 1
  | after => exact h

theorem pairwise_bottomUp (pos : Position) (rs : List (Declaration × Request)) :
    (bottomUp pos rs).Pairwise fun a b => anchorLine pos b.1 ≤ anchorLine pos a.1 := by
  have h : (bottomUp pos rs).Pairwise fun a b => decide (anchorLine pos b.1 ≤ anchorLine pos a.1) :=
    List.pairwise_mergeSort (fun a b c h₁ h₂ => by simp only [decide_eq_true_eq] at *; omega)
      (fun a b => by simp only [Bool.or_eq_true, decide_eq_true_eq]; omega) rs
  exact h.imp of_decide_eq_true

theorem bottomUp_of_pairwise {pos : Position} {rs : List (Declaration × Request)}
    (h : rs.Pairwise fun a b => anchorLine pos b.1 ≤ anchorLine pos a.1) : bottomUp pos rs = rs :=
  List.mergeSort_of_pairwise (h.imp decide_eq_true)

theorem mem_resolved {index : Index} {rs : List Request} {x : Declaration × Request}
    (h : x ∈ resolved index rs) : x.1 ∈ index.classes ∧ x.2 ∈ rs := by
  obtain ⟨r, hr, hx⟩ := List.mem_filterMap.1 h
  obtain ⟨d, hd, rfl⟩ := Option.map_eq_some_iff.1 hx
  exact ⟨Index.mem_of_resolve? hd, hr⟩

theorem closedAt_cutLine {t : Text} {d : Declaration} (pos : Position) (h : Outside t d.line)
    (h' : Outside t d.endLine) : ClosedAt t (cutLine pos d) ∧ cutLine pos d ≤ (rows t).length := by
  have hle {n : Nat} (h : Outside t n) : n ≤ (rows t).length := by
    obtain ⟨h0, ⟨l, hl, -⟩, -⟩ := h
    have := (List.getElem?_eq_some_iff.1 hl).1
    omega
  cases pos with
  | top => exact ⟨trivial, Nat.zero_le _⟩
  | before => exact ⟨h.closedAt, Nat.le_trans (Nat.sub_le ..) (hle h)⟩
  | after => exact ⟨h'.closedAt_self, hle h'⟩

/-- All blocks of a batch are placed beside classes that are outside all blocks. -/
theorem keeps_insertAll {pos : Position} {tags : List Tag} {index : Index} {rs : List Request} {t : Text}
    (h : WellMarked t) (hr : ∀ r ∈ rs, IsRequest tags r.block)
    (hd : ∀ d ∈ index.classes, Outside t d.line ∧ Outside t d.endLine) :
    Keeps tags t (insertAll pos index t rs).text := by
  have hm {x : Declaration × Request} (hx : x ∈ bottomUp pos (resolved index rs)) :
      x.1 ∈ index.classes ∧ x.2 ∈ rs := mem_resolved (List.mem_mergeSort.1 hx)
  refine keeps_placeAll h ((pairwise_bottomUp _ _).imp cutLine_mono) (fun x hx => hr _ (hm hx).2) fun x hx => ?_
  obtain ⟨ho, ho'⟩ := hd _ (hm hx).1
  exact closedAt_cutLine pos ho ho'

end Placement
end Marginalia
