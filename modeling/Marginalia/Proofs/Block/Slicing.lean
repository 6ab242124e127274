/-
# Blocks by offsets

What `Excerpt.find?`, `Block.removeAll`, `Block.replace?` and `Block.upsert` do, told by
byte offsets: markers are searched for, the offsets at which they are found are added up, and the
text is cut there. A cut that is out of range or within a character has no result, and
neither has what is made of it. This never happens (`Excerpt.locate?_eq` and the like). A
block is found exactly if an end marker stands behind a begin marker, whichever: the
first begin marker does not stand behind another one (`Excerpt.isSome_find?_iff`).

Key definitions: `Excerpt.Slice`, `Excerpt.locate?`, `Excerpt.Bounds`, `Block.removeAllAt?`, `Block.replaceAt?`,
`Block.upsertAt?`.
Key theorems: `Excerpt.locate?_eq`, `Excerpt.isSome_find?_iff`, `Excerpt.exists_bounds`, `Block.find?_by_offsets`.
-/
import Marginalia.Proofs.Block.Excision
import Marginalia.Proofs.Block.Locating
import Marginalia.Proofs.Block.Seaming

namespace Marginalia

namespace Text

/-- The indentation is cut off from the last line if there is nothing else on it. -/
theorem splitIndent_lastLine {above line : Text} (ha : Terminated above) (hl : '\n' ∉ line) :
    splitIndent (above ++ line) = if line.all isIndent then (above, line) else (above ++ line, []) := by
  split
  · next h => exact splitIndent_append_indentation ha fun c hc => List.all_eq_true.1 h c hc
  · next h =>
    refine splitIndent_of_not_endsIndented ?_
    rintro ⟨above', indent, ha', hi, he⟩
    obtain ⟨-, rfl⟩ := lastLine_unique ha hl ha' hi.newline_not_mem he
    exact h (List.all_eq_true.2 hi)

end Text

open Text

namespace Excerpt

/-- A stretch of a text with the offsets at which it starts and stops. -/
structure Slice where
  /-- The offset of the stretch. -/
  start : Nat
  /-- The offset just past the stretch. -/
  stop : Nat
  /-- The stretch itself. -/
  text : Text
deriving DecidableEq, Repr

/-- The offsets of an excerpt. -/
def slice (e : Excerpt) : Slice := ⟨e.start, e.stop, e.text⟩

/-- The offset at which the line of an offset starts if only indentation stands in between, and else the
offset itself. -/
def indentedStart? (t : Text) (offset : Nat) : Option Nat := do
  let lead ← sliceTo? offset t
  let line ← slice? (lineStart lead) offset t
  return if line.all isIndent then lineStart lead else offset

/-- The first block of the tag, if there is one, by offsets. There is no result if a slice is out of range. -/
def locate? (tag : Tag) (t : Text) : Option (Option Slice) :=
  match offsetOf? tag.beginMarker t with
  | none => some none
  | some first => do
    let inside := first + byteLength tag.beginMarker
    let rest ← sliceFrom? inside t
    match offsetOf? tag.endMarker rest with
    | none => return none
    | some nearest =>
      let stop := inside + nearest + byteLength tag.endMarker
      let start ← indentedStart? t first
      let text ← slice? start stop t
      return some { start, stop, text }

variable {tag : Tag} {t : Text} {e : Excerpt}

/-! ### Where a block is found -/

/-- The parts into which a text with a block is split. -/
structure Parts (tag : Tag) (t : Text) (lead inner after : Text) : Prop where
  /-- They make up the text. -/
  whole : t = lead ++ (tag.beginMarker ++ (inner ++ (tag.endMarker ++ after)))
  /-- The first begin marker stands behind `lead`. -/
  first : splitFirst? tag.beginMarker t = some (lead, inner ++ (tag.endMarker ++ after))
  /-- The first end marker of the rest stands behind `inner`. -/
  nearest : splitFirst? tag.endMarker (inner ++ (tag.endMarker ++ after)) = some (inner, after)

/-- The excerpt that goes with the parts. -/
def ofParts (tag : Tag) (lead inner after : Text) : Excerpt where
  before := (splitIndent lead).1
  text := (splitIndent lead).2 ++ tag.beginMarker ++ inner ++ tag.endMarker
  after := after

theorem exists_parts (h : find? tag t = some e) :
    ∃ lead inner after, Parts tag t lead inner after ∧ e = ofParts tag lead inner after := by
  unfold find? at h
  split at h
  · cases h
  · next lead rest h₁ =>
    split at h
    · cases h
    · next inner after h₂ =>
      cases h
      have hrest : inner ++ (tag.endMarker ++ after) = rest := by rw [← List.append_assoc, splitFirst?_eq _ h₂]
      have hwhole : lead ++ (tag.beginMarker ++ rest) = t := by rw [← List.append_assoc, splitFirst?_eq _ h₁]
      subst hrest
      exact ⟨lead, inner, after, ⟨hwhole.symm, h₁, h₂⟩, rfl⟩

theorem start_ofParts (tag : Tag) (lead inner after : Text) :
    (ofParts tag lead inner after).start + byteLength (splitIndent lead).2 = byteLength lead := by
  calc byteLength (splitIndent lead).1 + byteLength (splitIndent lead).2
      = byteLength ((splitIndent lead).1 ++ (splitIndent lead).2) := (byteLength_append _ _).symm
    _ = byteLength lead := by rw [splitIndent_append]

theorem stop_ofParts (tag : Tag) (lead inner after : Text) : (ofParts tag lead inner after).stop =
    byteLength lead + byteLength tag.beginMarker + byteLength inner + byteLength tag.endMarker := by
  have hstart := start_ofParts tag lead inner after
  show (ofParts tag lead inner after).start + byteLength ((splitIndent lead).2 ++ _ ++ _ ++ _) = _
  simp only [byteLength_append]
  omega

namespace Parts

variable {lead inner after : Text}

theorem find?_eq (h : Parts tag t lead inner after) : find? tag t = some (ofParts tag lead inner after) := by
  simp only [find?, h.first, h.nearest]
  rfl

/-- The excerpt is the slice between its offsets. -/
theorem slice?_eq (h : Parts tag t lead inner after) :
    slice? (ofParts tag lead inner after).start (ofParts tag lead inner after).stop t =
      some (ofParts tag lead inner after).text := by
  refine slice?_eq_some_iff.2 ⟨(ofParts tag lead inner after).before, after, ?_, rfl, byteLength_append _ _⟩
  rw [← whole_find? h.find?_eq, Excerpt.whole, List.append_assoc]
  rfl

theorem indentedStart?_eq (h : Parts tag t lead inner after) :
    indentedStart? t (byteLength lead) = some (ofParts tag lead inner after).start := by
  obtain ⟨above, line, rfl, ha, hl⟩ := exists_lastLine lead
  have hline : slice? (byteLength above) (byteLength (above ++ line)) t = some line :=
    slice?_eq_some_iff.2 ⟨above, _, by rw [h.whole, List.append_assoc], rfl, rfl⟩
  have hlead : sliceTo? (byteLength (above ++ line)) t = some (above ++ line) := by rw [h.whole, sliceTo?_append]
  simp only [indentedStart?, hlead, Option.bind_eq_bind, Option.bind_some, lineStart_append ha hl, hline]
  show some _ = some (byteLength (splitIndent (above ++ line)).1)
  rw [splitIndent_lastLine ha hl]
  split <;> rfl

end Parts

/-- **A block is located where it is found.** No slice is out of range. -/
theorem locate?_eq (tag : Tag) (t : Text) : locate? tag t = some ((find? tag t).map slice) := by
  cases h₁ : splitFirst? tag.beginMarker t with
  | none => simp only [locate?, find?, offsetOf?_eq, h₁, Option.map_none]
  | some p =>
    obtain ⟨lead, rest⟩ := p
    have hwhole := splitFirst?_eq _ h₁
    have hrest : sliceFrom? (byteLength lead + byteLength tag.beginMarker) t = some rest := by
      rw [← hwhole, ← byteLength_append, sliceFrom?_append]
    cases h₂ : splitFirst? tag.endMarker rest with
    | none =>
      simp only [locate?, find?, offsetOf?_eq, h₁, h₂, hrest, Option.map_some, Option.map_none, Option.bind_eq_bind,
        Option.bind_some]
      rfl
    | some q =>
      obtain ⟨inner, after⟩ := q
      have hafter := splitFirst?_eq _ h₂
      rw [List.append_assoc] at hafter hwhole
      subst hafter
      have hp : Parts tag t lead inner after := ⟨hwhole.symm, h₁, h₂⟩
      have hslice := hp.slice?_eq
      rw [stop_ofParts] at hslice
      simp only [locate?, offsetOf?_eq, h₁, h₂, hrest, Option.map_some, Option.bind_eq_bind, Option.bind_some,
        hp.indentedStart?_eq, hslice, hp.find?_eq, slice, stop_ofParts]
      rfl

/-- **A block is found if any begin marker has an end marker behind it.** -/
theorem isSome_find?_iff : (find? tag t).isSome ↔ ∃ i j, StandsAt tag.beginMarker i t ∧ StandsAt tag.endMarker j t ∧
    i + byteLength tag.beginMarker ≤ j := by
  constructor
  · intro h
    obtain ⟨e, he⟩ := Option.isSome_iff_exists.1 h
    obtain ⟨lead, inner, after, hp, -⟩ := exists_parts he
    refine ⟨byteLength lead, byteLength (lead ++ tag.beginMarker ++ inner), ⟨lead, _, hp.whole, rfl⟩,
      ⟨_, after, ?_, rfl⟩, ?_⟩
    · rw [hp.whole]
      simp only [List.append_assoc]
    · rw [byteLength_append, byteLength_append]
      omega
  · rintro ⟨i, j, hi, hj, hle⟩
    obtain ⟨⟨lead, rest⟩, h₁⟩ := Option.isSome_iff_exists.1 (isSome_splitFirst? hi)
    have hwhole := splitFirst?_eq _ h₁
    -- The first begin marker stands at `i` or in front of it, so that the end marker stands behind it, too.
    have hlead : byteLength lead ≤ i := by
      obtain ⟨a, b, ht, rfl⟩ := hi
      exact byteLength_le_of_isPrefix (isPrefix_of_splitFirst? h₁ ht)
    rw [← hwhole] at hj
    obtain ⟨k, hk, -⟩ := standsAt_append_iff.1 ⟨hj, by rw [byteLength_append]; omega⟩
    obtain ⟨⟨inner, after⟩, h₂⟩ := Option.isSome_iff_exists.1 (isSome_splitFirst? hk)
    simp only [find?, h₁, h₂, Option.isSome_some]

/-- The excerpt goes by the offsets `i` of a begin and `j` of an end marker. -/
structure Bounds (tag : Tag) (t : Text) (e : Excerpt) (i j : Nat) : Prop where
  /-- The begin marker is the first one of the text. -/
  first : IsLeast {i | StandsAt tag.beginMarker i t} i
  /-- The end marker is the first one that stands behind it. -/
  nearest : IsLeast {j | StandsAt tag.endMarker j t ∧ i + byteLength tag.beginMarker ≤ j} j
  /-- The excerpt starts with the line of the begin marker if there are only spaces and tabs in front of it on
  that line, and else with the marker. -/
  start_eq : ∃ above line rest, t = above ++ (line ++ (tag.beginMarker ++ rest)) ∧ Terminated above ∧ '\n' ∉ line ∧
    byteLength (above ++ line) = i ∧ e.start = if line.all isIndent then byteLength above else i
  /-- It stops just past the end marker. -/
  stop_eq : e.stop = j + byteLength tag.endMarker
  /-- It does not start behind the begin marker. -/
  start_le : e.start ≤ i
  /-- It stops behind the begin marker. -/
  lt_stop : i < e.stop
  /-- It stops within the text. -/
  stop_le : e.stop ≤ byteLength t
  /-- It does not start within a character. -/
  boundary_start : IsBoundary e.start t
  /-- Nor does it stop within one. -/
  boundary_stop : IsBoundary e.stop t
  /-- It is the slice between its offsets. -/
  slice_eq : slice? e.start e.stop t = some e.text

/-- **A found block goes by its markers.** -/
theorem exists_bounds (h : find? tag t = some e) : ∃ i j, e.Bounds tag t i j := by
  obtain ⟨lead, inner, after, hp, rfl⟩ := exists_parts h
  have hstart := start_ofParts tag lead inner after
  have hstop := stop_ofParts tag lead inner after
  have hbegin : 0 < byteLength tag.beginMarker := by cases tag <;> decide
  obtain ⟨a, b, ht, ha, hb⟩ := slice?_eq_some_iff.1 hp.slice?_eq
  refine ⟨byteLength lead, byteLength (lead ++ tag.beginMarker) + byteLength inner, {
    first := ?first
    nearest := ?nearest
    start_eq := ?start
    stop_eq := by rw [hstop, byteLength_append]
    start_le := by omega
    lt_stop := by omega
    stop_le := by rw [← hb, ht, ← List.append_assoc, byteLength_append _ b]; omega
    boundary_start := ⟨a, _, ht, ha⟩
    boundary_stop := ⟨_, b, ht.trans (List.append_assoc _ _ _).symm, hb⟩
    slice_eq := hp.slice?_eq }⟩
  case first => exact isLeast_offsetOf? (by rw [offsetOf?_eq, hp.first, Option.map_some])
  case nearest =>
    have hleast : IsLeast {k | StandsAt tag.endMarker k (inner ++ (tag.endMarker ++ after))} (byteLength inner) :=
      isLeast_offsetOf? (by rw [offsetOf?_eq, hp.nearest, Option.map_some])
    -- Behind the begin marker the end marker stands in the text where it stands in the rest.
    have hiff (j : Nat) : StandsAt tag.endMarker j t ∧ byteLength lead + byteLength tag.beginMarker ≤ j ↔
        ∃ k, StandsAt tag.endMarker k (inner ++ (tag.endMarker ++ after)) ∧
          byteLength (lead ++ tag.beginMarker) + k = j := by
      rw [hp.whole, ← List.append_assoc lead, ← byteLength_append]
      exact standsAt_append_iff
    refine ⟨(hiff _).2 ⟨_, hleast.1, rfl⟩, fun j hj => ?_⟩
    obtain ⟨k, hk, rfl⟩ := (hiff j).1 hj
    exact Nat.add_le_add_left (hleast.2 hk) _
  case start =>
    obtain ⟨above, line, rfl, habove, hline⟩ := exists_lastLine lead
    refine ⟨above, line, inner ++ (tag.endMarker ++ after), by rw [hp.whole, List.append_assoc], habove, hline, rfl, ?_⟩
    show byteLength (splitIndent (above ++ line)).1 = _
    rw [splitIndent_lastLine habove hline]
    split <;> rfl

/-- The text in front of a found block, and the text behind it. -/
theorem sliceTo?_start (h : find? tag t = some e) : sliceTo? e.start t = some e.before := by
  rw [← whole_find? h, whole, List.append_assoc]
  exact sliceTo?_append _ _

theorem sliceFrom?_stop (h : find? tag t = some e) : sliceFrom? e.stop t = some e.after := by
  rw [← whole_find? h, whole, stop, start, ← byteLength_append]
  exact sliceFrom?_append _ _

end Excerpt

namespace Block

open Excerpt

variable {tag : Tag} {t : Text} {e : Excerpt}

/-! ### What is done with a block -/

/-- The text without a slice of it. -/
def exciseAt? (s : Slice) (t : Text) : Option Text := do
  let before ← sliceTo? s.start t
  let after ← sliceFrom? s.stop t
  joinSeamAt? before (dropSeparator before after)

theorem exciseAt?_eq (h : find? tag t = some e) : exciseAt? e.slice t = some (excise e) := by
  simp only [exciseAt?, slice, sliceTo?_start h, sliceFrom?_stop h, Option.bind_eq_bind, Option.bind_some]
  exact joinSeamAt?_eq_some _ _

/-- What is left without a located block is shorter. -/
theorem length_exciseAt?_lt {s : Slice} {u : Text} (h : locate? tag t = some (some s)) (hu : exciseAt? s t = some u) :
    u.length < t.length := by
  rw [locate?_eq, Option.some.injEq] at h
  obtain ⟨e, he, rfl⟩ := Option.map_eq_some_iff.1 h
  rw [exciseAt?_eq he] at hu
  cases hu
  exact length_excise_lt he

/-- Takes out one block of the tag after the other by offsets, and folds blank runs once one was taken out. -/
def exciseAllAt? (tag : Tag) (removed : Bool) (t : Text) : Option Text :=
  match _h : locate? tag t with
  | none => none
  | some none => some (if removed then foldBlankRuns t else t)
  | some (some s) =>
    match _hu : exciseAt? s t with
    | none => none
    | some u => exciseAllAt? tag true u
termination_by t.length
decreasing_by exact length_exciseAt?_lt _h _hu

/-- The text without the blocks of the tag, by offsets. -/
def removeAllAt? (tag : Tag) (t : Text) : Option Text := exciseAllAt? tag false t

/-- The text with `new` in place of the first block of the tag, by offsets. -/
def replaceAt? (tag : Tag) (new t : Text) : Option (Option Text) := do
  match ← locate? tag t with
  | none => return none
  | some s =>
    let before ← sliceTo? s.start t
    let after ← sliceFrom? s.stop t
    return some (before ++ indentWith (indentOf s.text) new ++ after)

/-- The offset behind the first line that passes the test, counted from that of the first line. -/
def anchorStop? (isAnchor : Text → Bool) : Nat → List Text → Option Nat
  | _, [] => none
  | offset, l :: ls =>
    if isAnchor (anchorText l) then some (offset + byteLength l) else anchorStop? isAnchor (offset + byteLength l) ls

/-- Puts `new` in place of the first block or below the first line that passes the test, by offsets. -/
def upsertAt? (tag : Tag) (new : Text) (isAnchor : Text → Bool) (t : Text) : Option Text :=
  if new = [] then removeAllAt? tag t
  else do
    match ← locate? tag t with
    | some s =>
      let before ← sliceTo? s.start t
      let after ← sliceFrom? s.stop t
      return spliceApart before new after
    | none =>
      match anchorStop? isAnchor 0 (rawLines t) with
      | some offset =>
        let before ← sliceTo? offset t
        let after ← sliceFrom? offset t
        return spliceApart before new after
      | none => return t

theorem exciseAllAt?_eq (tag : Tag) (removed : Bool) (t : Text) : exciseAllAt? tag removed t =
    some (if removed || isIn tag t then foldBlankRuns (exciseAll tag t) else t) := by
  fun_induction exciseAllAt? tag removed t with
  | case1 removed t h => rw [locate?_eq] at h; cases h
  | case2 removed t h =>
    rw [locate?_eq, Option.some.injEq, Option.map_eq_none_iff] at h
    rw [exciseAll_of_find?_eq_none h, isIn, h, Option.isSome_none, Bool.or_false]
  | case3 removed t s h hu =>
    rw [locate?_eq, Option.some.injEq] at h
    obtain ⟨e, he, rfl⟩ := Option.map_eq_some_iff.1 h
    rw [exciseAt?_eq he] at hu
    cases hu
  | case4 removed t s h u hu ih =>
    rw [locate?_eq, Option.some.injEq] at h
    obtain ⟨e, he, rfl⟩ := Option.map_eq_some_iff.1 h
    rw [exciseAt?_eq he, Option.some.injEq] at hu
    have hin : isIn tag t = true := by rw [isIn, he, Option.isSome_some]
    rw [ih, exciseAll_of_find?_eq_some he, hu, hin, Bool.or_true, Bool.true_or]
    rfl

theorem removeAllAt?_eq (tag : Tag) (t : Text) : removeAllAt? tag t = some (removeAll tag t) := by
  rw [removeAllAt?, exciseAllAt?_eq, Bool.false_or, removeAll]

theorem replaceAt?_eq (tag : Tag) (new t : Text) : replaceAt? tag new t = some (replace? tag new t) := by
  rw [replaceAt?, locate?_eq, replace?]
  cases h : find? tag t with
  | none => rfl
  | some e =>
    simp only [Option.map_some, slice, sliceTo?_start h, sliceFrom?_stop h, Option.bind_eq_bind, Option.bind_some]
    rfl

theorem anchorStop?_eq (isAnchor : Text → Bool) (offset : Nat) (ls : List Text) :
    anchorStop? isAnchor offset ls = (splitBelow? isAnchor ls).map fun p => offset + byteLength p.1.flatten := by
  induction ls generalizing offset with
  | nil => rfl
  | cons l ls ih =>
    rw [anchorStop?, splitBelow?, ih]
    split
    · rw [Option.map_some, List.flatten_singleton]
    · simp only [Option.map_map, Function.comp_def, List.flatten_cons, byteLength_append, Nat.add_assoc]

theorem upsertAt?_eq (tag : Tag) (new : Text) (isAnchor : Text → Bool) (t : Text) :
    upsertAt? tag new isAnchor t = some (upsert tag new isAnchor t) := by
  unfold upsertAt? upsert
  split
  · exact removeAllAt?_eq tag t
  · rw [locate?_eq]
    cases he : find? tag t with
    | some e =>
      simp only [Option.map_some, slice, sliceTo?_start he, sliceFrom?_stop he, Option.bind_eq_bind, Option.bind_some]
      rfl
    | none =>
      simp only [Option.map_none, Option.bind_eq_bind, Option.bind_some, anchorStop?_eq, Nat.zero_add]
      cases hs : splitBelow? isAnchor (rawLines t) with
      | none => rfl
      | some p =>
        obtain ⟨above, below⟩ := p
        obtain ⟨lead, l, rfl, hlines, -⟩ := splitBelow?_eq_some hs
        have ht : (lead ++ [l]).flatten ++ below.flatten = t := by
          rw [← List.flatten_append, List.append_assoc, List.singleton_append, ← hlines, rawLines_flatten]
        have hto := sliceTo?_append (lead ++ [l]).flatten below.flatten
        have hfrom := sliceFrom?_append (lead ++ [l]).flatten below.flatten
        rw [ht] at hto hfrom
        simp only [Option.map_some, hto, hfrom, Option.bind_some]
        rfl

/-- **A found block is exact, and no slice is out of range.** A block is found exactly if an end marker stands
behind a begin marker; it goes by the first begin marker and the first end marker behind it, from the line of the
one to just past the other. Searching, removing, exchanging and putting in blocks by offsets never lacks a
result, and gives what is found, left and written. -/
theorem find?_by_offsets (tag : Tag) (t : Text) :
    ((find? tag t).isSome ↔ ∃ i j, StandsAt tag.beginMarker i t ∧ StandsAt tag.endMarker j t ∧
      i + byteLength tag.beginMarker ≤ j) ∧
    (∀ e, find? tag t = some e → ∃ i j, e.Bounds tag t i j) ∧
    locate? tag t = some ((find? tag t).map slice) ∧
    removeAllAt? tag t = some (removeAll tag t) ∧
    (∀ new, replaceAt? tag new t = some (replace? tag new t)) ∧
    ∀ new isAnchor, upsertAt? tag new isAnchor t = some (upsert tag new isAnchor t) :=
  ⟨isSome_find?_iff, fun _ => exists_bounds, locate?_eq tag t, removeAllAt?_eq tag t,
    fun new => replaceAt?_eq tag new t, fun new isAnchor => upsertAt?_eq tag new isAnchor t⟩

/-- An indented block below a character of two bytes. -/
def belowAccent : Excerpt where
  before := "é\n".toList
  text := "\t# --- BEGIN annotate:schema ---\n\t# ü\n\t# --- END annotate:schema ---".toList
  after := "\nclass User\nend\n".toList

/-- Its offsets count bytes. -/
theorem find?_by_offsets_belowAccent :
    find? .schema belowAccent.whole = some belowAccent ∧ belowAccent.start = 3 ∧ belowAccent.stop = 72 ∧
      (∃ i j, belowAccent.Bounds .schema belowAccent.whole i j) ∧
      locate? .schema belowAccent.whole = some (some belowAccent.slice) := by
  obtain ⟨hfind, hstart, hstop⟩ : find? .schema belowAccent.whole = some belowAccent ∧ belowAccent.start = 3 ∧
      belowAccent.stop = 72 := by
    -- the texts are spelled out, as a literal is decoded anew wherever it is compared
    unfold belowAccent
    repeat rewrite [String.toList_ofList]
    decide
  obtain ⟨-, hbounds, hlocate, -⟩ := find?_by_offsets .schema belowAccent.whole
  rw [hfind] at hlocate
  exact ⟨hfind, hstart, hstop, hbounds _ hfind, hlocate⟩

end Block
end Marginalia
