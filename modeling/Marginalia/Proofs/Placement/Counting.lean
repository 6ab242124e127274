/-
# Placed blocks are counted

A block that is placed comes between the parts above a place and those below
it (`Parted`), so a text has one block more for each that was placed, and no
other one is torn apart (`Placement.plainBlocks_placeAll`). This holds of a
whole batch for the requests whose classes are found
(`Placement.plainBlocks_insertAll`).

Key definition: `Text.Parted`.
Key theorems: `Placement.exists_parted_place`, `Placement.plainBlocks_placeAll`,
`Placement.plainBlocks_insertAll`.
-/
import Marginalia.Proofs.Block.Showing
import Marginalia.Proofs.Placement.Patching

namespace Marginalia

open Text Block
open scoped List

namespace Text

/-- The texts `a` and `c` are what stands above and below a place between two lines of the text `t` at
which no block is open, but for empty lines at the place. -/
structure Parted (t a c : Text) : Prop where
  /-- Above the place a line ends. -/
  above : Terminated a
  /-- The parts of the text. -/
  parts : ∃ ps qs, HasParts a ps ∧ HasParts c qs ∧ HasParts t (ps ++ qs)
  /-- No block is torn apart. -/
  snug : ∀ {tag}, Snug tag t → Snug tag a ∧ Snug tag c

section

variable {tag s : Tag} {t a c indent : Text} {cs : List Text} {ps : List Part}

theorem Parted.exists_hasParts (h : Parted t a c) (hi : IsIndentation indent) (hc : CommentLines cs) :
    ∃ ps qs, HasParts a ps ∧ HasParts t (ps ++ qs) ∧
      HasParts (a ++ (frame s indent cs ++ '\n' :: c)) (ps ++ .block s (framed s indent cs) :: qs) := by
  obtain ⟨ps, qs, ha, hb, ht⟩ := h.parts
  refine ⟨ps, qs, ha, ht, ha.around hb (hasParts_frame hi hc) ?_⟩
  rw [solidLines_append h.above, solidLines_append_newline]

/-- A block at the place is one more, and the blocks stay whole. -/
theorem Parted.around (h : Parted t a c) (hi : IsIndentation indent) (hc : CommentLines cs) :
    (plainBlocks tag (a ++ (frame s indent cs ++ '\n' :: c))).Perm
        (plainBlocks tag (frame s [] cs) ++ plainBlocks tag t) ∧
      (Snug tag t → Snug tag (a ++ (frame s indent cs ++ '\n' :: c))) := by
  obtain ⟨ps, qs, ha, ht, hx⟩ := h.exists_hasParts (s := s) hi hc
  refine ⟨?_, fun hs => ?_⟩
  · rw [plainBlocks_frame .nil hc, ← plainBlocks_frame hi hc]
    exact plainBlocks_perm_of_hasParts ht hi hc hx
  · obtain ⟨hsa, hsc⟩ := h.snug hs
    exact snug_around h.above ha (detached_newline_cons c) hi hc hsa (snug_newline_cons.2 hsc)

/-- A block at the place is written as those that are there. -/
theorem Parted.written (h : Parted t a c) (hi : IsIndentation indent) (hc : CommentLines cs) (hw : Written tag t) :
    Written tag (a ++ (frame s indent cs ++ '\n' :: c)) := by
  obtain ⟨ps, qs, -, ht, hx⟩ := h.exists_hasParts (s := s) hi hc
  exact hw.around ht hi hc hx

theorem snug_append_newline (h : HasParts t ps) : Snug tag (t ++ ['\n']) ↔ Snug tag t := by
  by_cases ht : Terminated t
  · rw [snug_append ht h, snug_newline_cons]
    exact and_iff_left trivial
  · rw [Snug, rows_append_newline ht, Snug]

/-- The lines of a snug text above and below a place at which no block is open. -/
theorem Snug.take_drop {n : Nat} (hs : Snug tag t) (h : HasParts ((rawLines t).take n).flatten ps) :
    Snug tag ((rawLines t).take n).flatten ∧ Snug tag ((rawLines t).drop n).flatten := by
  have hclosed := h.openAfter
  rw [rows_take] at hclosed
  rw [Snug, ← List.take_append_drop n (rows t), snugFrom_append, hclosed] at hs
  rwa [Snug, Snug, rows_take, rows_drop]

end

end Text

namespace Placement

section

variable {pos : Position} {d : Declaration} {tag other : Tag} {t : Text} {cs : List Text}

theorem snug_topHead {head : Text} {ps : List Part} (h : HasParts head ps) (hs : Snug tag head) :
    Snug tag (topHead head) := by
  unfold topHead
  split
  · trivial
  · split
    · rw [List.append_nil]
      exact (snug_append_newline h).2 hs
    · have h' : HasParts (head ++ ['\n']) ps := h.of_solidLines_eq (solidLines_append_newlines _ (by simp))
      exact (snug_append_newline h').2 ((snug_append_newline h).2 hs)

/-- At the top no block is open between the leading directives and what stands below them. -/
theorem parted_top (h : WellMarked t) :
    Parted t (topHead (Directive.splitHeader t).1)
      (if dropNewlines (Directive.splitHeader t).2 = [] then []
      else '\n' :: dropNewlines (Directive.splitHeader t).2) := by
  obtain ⟨ps, qs, hpq, hhead, hrest⟩ := hasParts_take_drop h (closedAt_headerLength t)
  refine ⟨terminated_topHead _, ⟨ps, qs, ?_, ?_, hpq ▸ h.hasParts⟩, fun hs => ?_⟩
  · exact HasParts.of_solidLines_eq hhead (solidLines_topHead _)
  · refine HasParts.of_solidLines_eq hrest (Eq.trans ?_ (solidLines_dropNewlines (Directive.splitHeader t).2))
    split
    · next h0 => rw [h0]
    · exact solidLines_newline_cons _
  · obtain ⟨hs₁, hs₂⟩ := hs.take_drop hhead
    refine ⟨snug_topHead hhead hs₁, ?_⟩
    split
    · trivial
    · exact snug_newline_cons.2 (snug_dropNewlines.2 hs₂)

/-- A block put in between two lines at which no block is open. -/
theorem exists_parted_insertLine {n : Nat} (h : WellMarked t) (hcut : ClosedAt t n) (block : Text) :
    ∃ a c, Parted t a c ∧ insertLine (rawLines t) n block = a ++ (block ++ '\n' :: c) := by
  obtain ⟨ps, qs, hpq, habove, hbelow⟩ := hasParts_take_drop h hcut
  obtain ⟨a, ha, hta, hrows⟩ := exists_insertLine_eq t n block
  have hsolid : solidLines a = solidLines ((rawLines t).take n).flatten := by
    rw [solidLines, hrows, solidLines, rows_take]
  refine ⟨a, _, ⟨hta, ⟨ps, qs, habove.of_solidLines_eq hsolid, hbelow, hpq ▸ h.hasParts⟩, fun hs => ?_⟩, ha⟩
  obtain ⟨hs₁, hs₂⟩ := hs.take_drop habove
  rw [Snug, rows_take] at hs₁
  exact ⟨by rwa [Snug, hrows], hs₂⟩

/-- A block is placed between two lines at which no block is open. -/
theorem exists_parted_place (h : WellMarked t) (hc : CommentLines cs) (hcut : ClosedAt t (cutLine pos d)) :
    ∃ a c indent cs', Parted t a c ∧ IsIndentation indent ∧ CommentLines cs' ∧
      ((∀ l ∈ cs, l.getLast? ≠ some '\r') → cs' = cs) ∧
      place pos t d (frame tag [] cs) = a ++ (frame tag indent cs' ++ '\n' :: c) := by
  by_cases hp : pos = .top
  · subst hp
    exact ⟨_, _, [], cs, parted_top h, .nil, hc, fun _ => rfl, atTop_eq t _⟩
  · obtain ⟨cs', hc', he, hr⟩ := exists_indented_eq tag (indentAt (rawLines t) d.line) hc
    obtain ⟨a, c, hparted, ha⟩ := exists_parted_insertLine h hcut (frame tag (indentAt (rawLines t) d.line) cs')
    exact ⟨a, c, _, cs', hparted, isIndentation_indentAt _ _, hc', hr, by rw [place_eq_insertLine hp, he, ha]⟩

/-- A block without carriage returns is there once more when it was placed. -/
theorem plainBlocks_place (other : Tag) (h : WellMarked t) (hc : CommentLines cs)
    (hr : ∀ l ∈ cs, l.getLast? ≠ some '\r')
    (hcut : ClosedAt t (cutLine pos d)) :
    (plainBlocks other (place pos t d (frame tag [] cs))).Perm
        (plainBlocks other (frame tag [] cs) ++ plainBlocks other t) ∧
      (Snug other t → Snug other (place pos t d (frame tag [] cs))) := by
  obtain ⟨a, c, indent, cs', hp, hi, hc', hcs, he⟩ := exists_parted_place h hc hcut
  rw [he, hcs hr]
  exact hp.around hi hc

/-- All blocks of a batch that is placed from the bottom up are there once more. -/
theorem plainBlocks_placeAll (other : Tag) {rs : List (Declaration × Request)} (h : WellMarked t)
    (hs : rs.Pairwise fun a b => cutLine pos b.1 ≤ cutLine pos a.1) (hb : ∀ r ∈ rs, ∃ tag, IsPlain tag r.2.block)
    (hc : ∀ r ∈ rs, ClosedAt t (cutLine pos r.1) ∧ cutLine pos r.1 ≤ (rows t).length) :
    (plainBlocks other (placeAll pos t rs)).Perm
        (rs.flatMap (fun r => plainBlocks other r.2.block) ++ plainBlocks other t) ∧
      (Snug other t → Snug other (placeAll pos t rs)) := by
  refine placeAll_induction Tag.all
    (motive := fun t rs t' => (∀ r ∈ rs, ∃ tag, IsPlain tag r.2.block) →
      (plainBlocks other t').Perm (rs.flatMap (fun r => plainBlocks other r.2.block) ++ plainBlocks other t) ∧
        (Snug other t → Snug other t'))
    (fun _ _ => ⟨.refl _, id⟩) (fun h0 ih hb => ?_) (fun {t r rs t' tag ls} h _ hl he hcut ih hb => ?_) h hs
    (fun r hr => ?_) hc hb
  · rw [List.forall_mem_cons] at hb
    rw [List.flatMap_cons, h0]
    exact ih hb.2
  · rw [List.forall_mem_cons] at hb
    obtain ⟨tag', hplain⟩ := hb.1
    obtain ⟨cs, hcs, hr, he'⟩ := hplain.resolve_left (he ▸ frame_ne_nil)
    obtain ⟨hperm, hsnug⟩ := ih hb.2
    rw [he'] at hperm hsnug
    obtain ⟨hperm', hsnug'⟩ := plainBlocks_place other h hcs hr hcut
    refine ⟨?_, fun hs => hsnug (hsnug' hs)⟩
    let read := fun r : Declaration × Request => plainBlocks other r.2.block
    calc plainBlocks other t'
        ~ rs.flatMap read ++ plainBlocks other (place pos t r.1 (frame tag' [] cs)) := hperm
      _ ~ rs.flatMap read ++ (plainBlocks other (frame tag' [] cs) ++ plainBlocks other t) := hperm'.append_left _
      _ = rs.flatMap read ++ read r ++ plainBlocks other t := by rw [List.append_assoc, ← he']
      _ ~ read r ++ rs.flatMap read ++ plainBlocks other t := List.perm_append_comm.append_right _
      _ = (r :: rs).flatMap read ++ plainBlocks other t := by rw [List.flatMap_cons]
  · obtain ⟨tag, hplain⟩ := hb r hr
    exact hplain.imp_right fun ⟨cs, hcs, _, he⟩ => ⟨tag, by cases tag <;> decide, cs, hcs, he⟩

/-- The requests whose class is found. -/
theorem map_snd_resolved (index : Index) (rs : List Request) :
    (resolved index rs).map (·.2) = rs.filter fun r => (index.resolve? r.name).isSome := by
  rw [resolved, List.map_filterMap, ← List.filterMap_eq_filter]
  refine List.filterMap_congr fun r _ => ?_
  cases h : index.resolve? r.name <;> simp [Option.guard, h]

/-- The inserted requests are those whose class is found. -/
theorem mem_inserted_iff {index : Index} {rs : List Request} {name : String} :
    name ∈ (insertAll pos index t rs).inserted ↔ ∃ r ∈ rs, r.name = name ∧ (index.resolve? r.name).isSome := by
  show name ∈ ((bottomUp pos (resolved index rs)).map (·.2.name)).reverse ↔ _
  have hm (r : Request) : r ∈ (resolved index rs).map (·.2) ↔ r ∈ rs ∧ (index.resolve? r.name).isSome := by
    rw [map_snd_resolved, List.mem_filter]
  rw [List.mem_reverse, List.mem_map]
  constructor
  · rintro ⟨y, hy, rfl⟩
    obtain ⟨hr, hfound⟩ := (hm y.2).1 (List.mem_map_of_mem (List.mem_mergeSort.1 hy))
    exact ⟨y.2, hr, rfl, hfound⟩
  · rintro ⟨r, hr, rfl, hfound⟩
    obtain ⟨y, hy, rfl⟩ := List.mem_map.1 ((hm r).2 ⟨hr, hfound⟩)
    exact ⟨y, List.mem_mergeSort.2 hy, rfl⟩

/-- A request whose class is found is among the inserted ones. -/
theorem mem_inserted {index : Index} {rs : List Request} {r : Request} (hr : r ∈ rs)
    (h : (index.resolve? r.name).isSome) : r.name ∈ (insertAll pos index t rs).inserted :=
  mem_inserted_iff.2 ⟨r, hr, rfl, h⟩

/-- Requests whose class is not found do nothing. -/
theorem text_insertAll_filter (pos : Position) (index : Index) (t : Text) (rs : List Request) :
    (insertAll pos index t (rs.filter fun r => (index.resolve? r.name).isSome)).text =
      (insertAll pos index t rs).text := by
  have hr : resolved index (rs.filter fun r => (index.resolve? r.name).isSome) = resolved index rs := by
    rw [resolved, resolved, List.filterMap_filter]
    refine List.filterMap_congr fun r _ => ?_
    cases index.resolve? r.name <;> rfl
  simp only [insertAll, hr]

/-- What a block at a place keeps, a batch keeps. -/
theorem insertAll_induction {P : Text → Prop} {tags : List Tag} {index : Index} {rs : List Request}
    (h : WellMarked t) (hr : ∀ r ∈ rs, IsRequest tags r.block)
    (hd : ∀ d ∈ index.classes, Outside t d.line ∧ Outside t d.endLine)
    (put : ∀ {t a c indent : Text} {s : Tag} {cs : List Text}, Parted t a c → IsIndentation indent →
      CommentLines cs → P t → P (a ++ (frame s indent cs ++ '\n' :: c))) :
    P t → P (insertAll pos index t rs).text := by
  have hm {x : Declaration × Request} (hx : x ∈ bottomUp pos (resolved index rs)) :
      x.1 ∈ index.classes ∧ x.2 ∈ rs := mem_resolved (List.mem_mergeSort.1 hx)
  refine placeAll_induction tags (motive := fun t _ t' => P t → P t') (fun _ ht => ht) (fun _ ih => ih)
    (fun {t r rs t' s ls} h _ hl he hcut ih ht => ih ?_) h ((pairwise_bottomUp pos _).imp cutLine_mono)
    (fun x hx => hr _ (hm hx).2) fun x hx => ?_
  · obtain ⟨a, c, indent, cs', hp, hi, hc', -, hplace⟩ := exists_parted_place h hl hcut
    rw [he, hplace]
    exact put hp hi hc' ht
  · obtain ⟨ho, ho'⟩ := hd _ (hm hx).1
    exact closedAt_cutLine pos ho ho'

/-- A batch tears no block apart. -/
theorem snug_insertAll {tags : List Tag} {index : Index} {rs : List Request} (h : WellMarked t)
    (hr : ∀ r ∈ rs, IsRequest tags r.block) (hd : ∀ d ∈ index.classes, Outside t d.line ∧ Outside t d.endLine) :
    Snug other t → Snug other (insertAll pos index t rs).text :=
  insertAll_induction h hr hd fun hp hi hc => (hp.around hi hc).2

/-- A batch writes all its blocks. -/
theorem written_insertAll {tags : List Tag} {index : Index} {rs : List Request} (h : WellMarked t)
    (hr : ∀ r ∈ rs, IsRequest tags r.block) (hd : ∀ d ∈ index.classes, Outside t d.line ∧ Outside t d.endLine) :
    Written other t → Written other (insertAll pos index t rs).text :=
  insertAll_induction h hr hd fun hp hi hc => hp.written hi hc

/-- A batch adds the blocks of the requests whose classes are found, and no others. -/
theorem plainBlocks_insertAll (pos : Position) (other : Tag) {index : Index} {rs : List Request} (h : WellMarked t)
    (hb : ∀ r ∈ rs, ∃ tag, IsPlain tag r.block) (hd : ∀ d ∈ index.classes, Outside t d.line ∧ Outside t d.endLine) :
    (plainBlocks other (insertAll pos index t rs).text).Perm
        ((rs.filter fun r => (index.resolve? r.name).isSome).flatMap (fun r => plainBlocks other r.block) ++
          plainBlocks other t) ∧
      (Snug other t → Snug other (insertAll pos index t rs).text) := by
  have hm {x : Declaration × Request} (hx : x ∈ bottomUp pos (resolved index rs)) :
      x.1 ∈ index.classes ∧ x.2 ∈ rs := mem_resolved (List.mem_mergeSort.1 hx)
  obtain ⟨hperm, hsnug⟩ := plainBlocks_placeAll other h ((pairwise_bottomUp pos _).imp cutLine_mono)
    (fun x hx => hb _ (hm hx).2) fun x hx => by
      obtain ⟨ho, ho'⟩ := hd _ (hm hx).1
      exact closedAt_cutLine pos ho ho'
  refine ⟨hperm.trans (List.Perm.append_right _ ?_), hsnug⟩
  rw [← map_snd_resolved, List.flatMap_map]
  exact (List.mergeSort_perm _ _).flatMap_right _

end

end Placement
end Marginalia
