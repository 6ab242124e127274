/-
# Blocks read line by line

The blocks of a text are listed without their empty lines (`Text.blocks`), which
is how a block that was written by the program is told from one that somebody
tore apart only if there are no empty lines in it. A text is snug for a tag if
no empty line stands in a block of the tag; its blocks are then read as they
stand (`Text.Snug.blockRows_eq`). Folding blank runs, taking out other blocks
and writing a block between two lines leave a text snug.

Key definitions: `Text.openBelow`, `Text.Snug`, `Text.blockRows`.
Key theorems: `Text.blocksOf_filter`, `Text.Alike.snug_iff`, `Text.Snug.removeAll`,
`Text.snug_around`.
-/
import Mathlib.Data.List.DropRight
import Marginalia.Proofs.Block.Keeping
import Marginalia.Proofs.Block.Restoring

namespace Marginalia
namespace Text

open foldBlankRuns (go)

/-! ### The block that is open -/

/-- The tag of the block that is open below a line, from that of the one open above it. -/
def openBelow (opened : Option Tag) (l : Text) : Option Tag :=
  match opened, Marker.ofLine? l with
  | none, some (.opening tag) => some tag
  | some _, some (.closing _) => none
  | opened, _ => opened

/-- The tag of the block that is open below lines. -/
def openAfter (opened : Option Tag) (ls : List Text) : Option Tag := ls.foldl openBelow opened

/-- No line of a block of the tag is empty, below lines that leave a block open or none. -/
def SnugFrom (tag : Tag) : Option Tag → List Text → Prop
  | _, [] => True
  | opened, l :: ls => (l = [] → opened ≠ some tag) ∧ SnugFrom tag (openBelow opened l) ls

/-- No empty line stands in a block of the tag. -/
def Snug (tag : Tag) (t : Text) : Prop := SnugFrom tag none (rows t)

/-- The blocks of the tag that are read from lines, the one that is open above them included. -/
def blocksOf (tag : Tag) (opened : Option (Tag × List Text)) (ls : List Text) : List (List Text) :=
  (partsOf opened ls).filterMap (Part.block? tag)

/-- The blocks of the tag in a text, each by all its lines. -/
def blockRows (tag : Tag) (t : Text) : List (List Text) := (partsOf none (rows t)).filterMap (Part.block? tag)

section

variable {tag s s' : Tag} {opened : Option Tag} {ls ms bs cs : List Text} {l : Text} {ps : List Part} {a b t : Text}

theorem openBelow_opening (h : Marker.ofLine? l = some (.opening s)) : openBelow none l = some s := by
  simp only [openBelow, h]

theorem openBelow_source (h : ∀ s, Marker.ofLine? l ≠ some (.opening s)) : openBelow none l = none := by
  unfold openBelow
  split <;> simp_all

theorem openBelow_closing (h : Marker.ofLine? l = some (.closing s')) : openBelow (some s) l = none := by
  simp only [openBelow, h]

theorem openBelow_inner (h : ∀ s', Marker.ofLine? l ≠ some (.closing s')) : openBelow (some s) l = some s := by
  unfold openBelow
  split <;> simp_all

theorem openBelow_of_ofLine?_eq_none (h : Marker.ofLine? l = none) : openBelow opened l = opened := by
  cases opened with
  | none => exact openBelow_source (by simp [h])
  | some s => exact openBelow_inner (by simp [h])

@[simp] theorem openBelow_nil : openBelow opened [] = opened :=
  openBelow_of_ofLine?_eq_none (ofLine?_eq_none not_holdsMarker_nil)

theorem openAfter_append : openAfter opened (ls ++ ms) = openAfter (openAfter opened ls) ms := List.foldl_append

theorem openAfter_of_not_holdsMarker (h : ∀ l ∈ ls, ¬ HoldsMarker l) : openAfter opened ls = opened := by
  induction ls generalizing opened with
  | nil => rfl
  | cons l ls ih =>
    rw [List.forall_mem_cons] at h
    rw [openAfter, List.foldl_cons, openBelow_of_ofLine?_eq_none (ofLine?_eq_none h.1)]
    exact ih h.2

/-- Empty lines open and close nothing. -/
theorem openAfter_solidLines (opened : Option Tag) (t : Text) :
    openAfter opened (solidLines t) = openAfter opened (rows t) := by
  unfold solidLines
  generalize rows t = ls
  induction ls generalizing opened with
  | nil => rfl
  | cons l ls ih =>
    by_cases h0 : l = []
    · subst h0
      rw [List.filter_cons_of_neg (by simp), ih]
      show _ = openAfter (openBelow opened []) ls
      rw [openBelow_nil]
    · rw [List.filter_cons_of_pos (by simpa using h0)]
      exact ih (openBelow opened l)

/-- Below whole parts no block is open. -/
theorem openAfter_parts : ∀ {ps : List Part}, (∀ p ∈ ps, p.Valid) → openAfter none (ps.flatMap Part.lines) = none
  | [], _ => rfl
  | p :: ps, h => by
    rw [List.forall_mem_cons] at h
    have hp : openAfter none p.lines = none := by
      cases p with
      | source l => exact openAfter_of_not_holdsMarker fun l' hl => List.mem_singleton.1 hl ▸ h.1
      | block tag _ =>
        obtain ⟨indent, inner, indent', hi, hi', hin, rfl⟩ := h.1
        have hb : openBelow none (indent ++ tag.beginMarker) = some tag := openBelow_opening (ofLine?_begin hi tag)
        have he : openBelow (some tag) (indent' ++ tag.endMarker) = none := openBelow_closing (ofLine?_end hi' tag)
        show openAfter (openBelow none (indent ++ tag.beginMarker)) (inner ++ [indent' ++ tag.endMarker]) = none
        rw [hb, openAfter_append, openAfter_of_not_holdsMarker hin]
        exact he
    rw [List.flatMap_cons, openAfter_append, hp, openAfter_parts h.2]

theorem HasParts.openAfter (h : HasParts t ps) : openAfter none (rows t) = none := by
  rw [← openAfter_solidLines, h.2, openAfter_parts h.1]

/-! ### Lines without empty ones in blocks -/

theorem snugFrom_append : SnugFrom tag opened (ls ++ ms) ↔
    SnugFrom tag opened ls ∧ SnugFrom tag (openAfter opened ls) ms := by
  induction ls generalizing opened with
  | nil => exact ⟨fun h => ⟨trivial, h⟩, fun h => h.2⟩
  | cons l ls ih =>
    rw [List.cons_append, SnugFrom, SnugFrom, ih, and_assoc]
    rfl

theorem snugFrom_of_ne_nil (h : ∀ l ∈ ls, l ≠ []) : SnugFrom tag opened ls := by
  induction ls generalizing opened with
  | nil => trivial
  | cons l ls ih =>
    rw [List.forall_mem_cons] at h
    exact ⟨fun h0 => absurd h0 h.1, ih h.2⟩

/-- Lines that open no block of the tag. -/
theorem snugFrom_of_not_opening (h : ∀ l ∈ ls, Marker.ofLine? l ≠ some (.opening tag)) (ho : opened ≠ some tag) :
    SnugFrom tag opened ls := by
  induction ls generalizing opened with
  | nil => trivial
  | cons l ls ih =>
    rw [List.forall_mem_cons] at h
    refine ⟨fun _ => ho, ih h.2 ?_⟩
    unfold openBelow
    split
    · next s hm => exact fun he => h.1 (Option.some.inj he ▸ hm)
    · simp
    · exact ho

theorem snug_of_lacks_marker (h : ¬ tag.beginMarker <:+: t) : Snug tag t := by
  refine snugFrom_of_not_opening (fun l hl hm => ?_) (by simp)
  obtain ⟨indent, -, rfl⟩ := Marker.ofLine?_eq_some_iff.1 hm
  have hrow : (Marker.opening tag).text <:+: indent ++ (Marker.opening tag).text :=
    (List.infix_append' indent _ []).trans (by simp)
  refine h ((Marker.opening tag).infix_iff_solidLines.2 ⟨_, List.mem_filter.2 ⟨hl, ?_⟩, hrow⟩)
  simp [(Marker.opening tag).text_ne_nil]

theorem rows_newline_cons (t : Text) : rows ('\n' :: t) = [] :: rows t := rows_line (r := []) (by simp) t

theorem snug_newline_cons : Snug tag ('\n' :: t) ↔ Snug tag t := by
  rw [Snug, rows_newline_cons, SnugFrom, openBelow_nil]
  exact ⟨fun h => h.2, fun h => ⟨fun _ => by simp, h⟩⟩

theorem snug_dropNewlines : Snug tag (dropNewlines t) ↔ Snug tag t := by
  induction t with
  | nil => rfl
  | cons c t ih =>
    by_cases hc : c = '\n'
    · subst hc
      rw [snug_newline_cons, ← ih]
      rfl
    · have hd : dropNewlines (c :: t) = c :: t := by simp [dropNewlines, isNewline, hc]
      rw [hd]

/-- Two texts, of which the first one closes its blocks. -/
theorem snug_append (ha : Terminated a) (h : HasParts a ps) : Snug tag (a ++ b) ↔ Snug tag a ∧ Snug tag b := by
  rw [Snug, rows_append ha, snugFrom_append, h.openAfter]
  rfl

/-! ### Folding -/

/-- Where the tag's block is open, no more than one newline was kept: so an empty line is kept, too. -/
theorem snugFrom_go (t : Text) : ∀ {opened : Option Tag} {run : Nat}, (opened = some tag → run ≤ 1) →
    (SnugFrom tag opened (rows (go run t)) ↔ SnugFrom tag opened (rows t)) := by
  induction t using lineRec with
  | nil => exact fun _ => Iff.rfl
  | last r hr h0 =>
    intro opened run _
    rw [go_of_not_mem hr]
  | line r t hr ih =>
    intro opened run ho
    by_cases h0 : r = []
    · subst h0
      rw [List.nil_append, go, if_pos rfl, rows_newline_cons]
      split
      · next h2 =>
        have hn : opened ≠ some tag := fun h => by have := ho h; omega
        rw [ih fun h => absurd h hn, SnugFrom, openBelow_nil]
        exact ⟨fun h => ⟨fun _ => hn, h⟩, fun h => h.2⟩
      · rw [rows_newline_cons, SnugFrom, SnugFrom, openBelow_nil]
        exact and_congr_right fun hn => ih fun h => absurd h (hn rfl)
    · rw [go_line hr h0, rows_line hr, rows_line hr, SnugFrom, SnugFrom, ih fun _ => Nat.le_refl 1]

theorem snug_foldBlankRuns : Snug tag (foldBlankRuns t) ↔ Snug tag t := snugFrom_go t fun _ => Nat.zero_le 1

/-- Texts that differ by folded blank runs are snug together. -/
theorem Alike.snug_iff (h : Alike a b) : Snug tag a ↔ Snug tag b := by
  rw [← snug_foldBlankRuns (t := a), h, snug_foldBlankRuns]

/-! ### Reading -/

theorem blocksOf_source (h : ∀ s, Marker.ofLine? l ≠ some (.opening s)) :
    blocksOf tag none (l :: ls) = blocksOf tag none ls := by
  rw [blocksOf, partsOf]
  split
  · next s hm => exact absurd hm (h s)
  · exact List.filterMap_cons_none rfl

theorem blocksOf_opening (h : Marker.ofLine? l = some (.opening s)) :
    blocksOf tag none (l :: ls) = blocksOf tag (some (s, [l])) ls := by
  simp only [blocksOf, partsOf, h]

theorem blocksOf_inner (h : ∀ s', Marker.ofLine? l ≠ some (.closing s')) :
    blocksOf tag (some (s, bs)) (l :: ls) = blocksOf tag (some (s, bs ++ [l])) ls := by
  rw [blocksOf, partsOf]
  split
  · next s' hm => exact absurd hm (h s')
  · rfl

theorem blocksOf_closing (h : Marker.ofLine? l = some (.closing s')) :
    blocksOf tag (some (s, bs)) (l :: ls) = (if s = tag then [bs ++ [l]] else []) ++ blocksOf tag none ls := by
  simp only [blocksOf, partsOf, h, List.filterMap_cons, Part.block?]
  by_cases hs : s = tag
  · rw [if_pos hs, if_pos hs, List.singleton_append]
  · rw [if_neg hs, if_neg hs, List.nil_append]

/-- What was read of a block of another tag is not asked for. -/
theorem blocksOf_of_ne (hs : s ≠ tag) : blocksOf tag (some (s, bs)) ls = blocksOf tag (some (s, cs)) ls := by
  induction ls generalizing bs cs with
  | nil => rfl
  | cons l ls ih =>
    by_cases hm : ∃ s', Marker.ofLine? l = some (.closing s')
    · obtain ⟨s', hm⟩ := hm
      rw [blocksOf_closing hm, blocksOf_closing hm, if_neg hs, if_neg hs]
    · have hm := not_exists.1 hm
      rw [blocksOf_inner hm, blocksOf_inner hm]
      exact ih

/-- Without empty lines in blocks of the tag, dropping all empty lines leaves the blocks, also the one
that is open. -/
theorem blocksOf_filter (ls : List Text) :
    (SnugFrom tag none ls → blocksOf tag none (ls.filter (· ≠ [])) = blocksOf tag none ls) ∧
    ∀ {s : Tag} {bs : List Text}, SnugFrom tag (some s) ls →
      blocksOf tag (some (s, bs)) (ls.filter (· ≠ [])) = blocksOf tag (some (s, bs)) ls := by
  induction ls with
  | nil => exact ⟨fun _ => rfl, fun _ => rfl⟩
  | cons l ls ih =>
    obtain ⟨outside, inside⟩ := ih
    have hempty (m : Marker) : Marker.ofLine? [] ≠ some m := by
      rw [ofLine?_eq_none not_holdsMarker_nil]
      exact nofun
    by_cases h0 : l = []
    · subst h0
      simp only [SnugFrom, openBelow_nil, List.filter_cons_of_neg (p := (· ≠ [])) (a := []) (by simp)]
      refine ⟨fun h => ?_, fun {s bs} h => ?_⟩
      · rw [blocksOf_source fun s => hempty _, outside h.2]
      · have hs : s ≠ tag := fun he => h.1 trivial (he ▸ rfl)
        rw [blocksOf_inner fun s => hempty _, inside h.2, blocksOf_of_ne hs]
    · rw [List.filter_cons_of_pos (by simpa using h0)]
      refine ⟨fun h => ?_, fun {s bs} h => ?_⟩
      · by_cases hm : ∃ s, Marker.ofLine? l = some (.opening s)
        · obtain ⟨s, hm⟩ := hm
          rw [blocksOf_opening hm, blocksOf_opening hm, inside (openBelow_opening hm ▸ h.2)]
        · have hm := not_exists.1 hm
          rw [blocksOf_source hm, blocksOf_source hm, outside (openBelow_source hm ▸ h.2)]
      · by_cases hm : ∃ s', Marker.ofLine? l = some (.closing s')
        · obtain ⟨s', hm⟩ := hm
          rw [blocksOf_closing hm, blocksOf_closing hm, outside (openBelow_closing hm ▸ h.2)]
        · have hm := not_exists.1 hm
          rw [blocksOf_inner hm, blocksOf_inner hm, inside (openBelow_inner hm ▸ h.2)]

/-- The blocks of a snug text are read as they stand. -/
theorem Snug.blockRows_eq (h : Snug tag t) : blockRows tag t = blocks tag t := ((blocksOf_filter _).1 h).symm

/-! ### Blocks taken out and put in -/

variable {e : Excerpt} {c indent : Text}

/-- What stands above and below a block of a snug text is snug. -/
theorem Snug.of_find? (hs : Snug tag t) (h : HasParts t ps) (he : Excerpt.find? s t = some e) :
    Snug tag e.before ∧ Snug tag e.after := by
  obtain ⟨pre, ls, post, _, rfl, -, -, hb, ha, hsp⟩ := h.exists_of_find? he
  have hwhole : t = e.before ++ (e.text ++ e.after) := by
    rw [← List.append_assoc]
    exact (Excerpt.whole_find? he).symm
  rw [hwhole] at hs
  refine ⟨((snug_append hsp.before hb).1 hs).1, ?_⟩
  by_cases h0 : e.after = []
  · rw [h0]
    trivial
  · obtain ⟨c, hc⟩ := hsp.after.exists_eq h0
    -- the lines down to the end of the block are whole parts
    have hsplit : t = (e.before ++ e.text ++ ['\n']) ++ c := by
      rw [hwhole, hc]
      simp
    have hpre : HasParts (e.before ++ e.text ++ ['\n']) (pre ++ [.block s ls]) := by
      refine hb.append (h.text_of_spans (Excerpt.whole_find? he) hsp) ?_
      rw [List.append_assoc, solidLines_append hsp.before, solidLines_append_newline, solidLines_nil, List.append_nil]
    rw [← hwhole, hsplit] at hs
    rw [hc, snug_newline_cons]
    exact ((snug_append (terminated_append_newline _) hpre).1 hs).2

theorem snug_dropSeparator {before after : Text} (h : Snug tag after) :
    Snug tag (Block.dropSeparator before after) := by
  unfold Block.dropSeparator
  split
  · rw [snug_newline_cons] at h
    split
    · split
      · exact snug_newline_cons.1 h
      · exact h
    · exact h
  · exact h

theorem Snug.excise (hs : Snug tag t) (h : HasParts t ps) (he : Excerpt.find? s t = some e) :
    Snug tag (Block.excise e) := by
  obtain ⟨pre, _, _, _, -, -, -, hb, -, hsp⟩ := h.exists_of_find? he
  obtain ⟨hbefore, hafter⟩ := hs.of_find? h he
  rw [Block.excise, (alike_joinSeam _ _).snug_iff, snug_append hsp.before hb]
  exact ⟨hbefore, snug_dropSeparator hafter⟩

theorem Snug.exciseAll (hs : Snug tag t) (h : HasParts t ps) : Snug tag (Block.exciseAll s t) := by
  fun_induction Block.exciseAll s t generalizing ps with
  | case1 t _ => exact hs
  | case2 t e he ih =>
    obtain ⟨pre, ls, post, _, rfl, -, -, hb, ha, hsp⟩ := h.exists_of_find? he
    exact ih (hs.excise h he) (hb.append ha (Block.solidLines_excise hsp))

/-- Taking out the blocks of a tag tears no other ones apart. -/
theorem Snug.removeAll (hs : Snug tag t) (h : HasParts t ps) : Snug tag (Block.removeAll s t) := by
  unfold Block.removeAll
  split
  · exact snug_foldBlankRuns.2 (hs.exciseAll h)
  · exact hs

theorem snug_frame_append (hd : Detached c) (hi : IsIndentation indent) (hc : Block.CommentLines cs) (hs : Snug tag c) :
    Snug tag (Block.frame s indent cs ++ c) := by
  have hframe : SnugFrom tag none (Block.framed s indent cs) := snugFrom_of_ne_nil (Block.ne_nil_of_mem_framed hi hc)
  by_cases h0 : c = []
  · rwa [h0, List.append_nil, Snug, Block.rows_frame hi hc]
  · obtain ⟨d, rfl⟩ := hd.exists_eq h0
    have hclosed : openAfter none (Block.framed s indent cs) = none := by
      rw [← Block.rows_frame hi hc, (Block.hasParts_frame hi hc).openAfter]
    rw [Snug, Block.frame_append_newline, rows_paragraph_append (Block.newline_not_mem_framed hi hc),
      snugFrom_append, hclosed]
    exact ⟨hframe, snug_newline_cons.1 hs⟩

/-- A block between two texts, each of which is snug. -/
theorem snug_around (ha : Terminated a) (h : HasParts a ps) (hd : Detached c) (hi : IsIndentation indent)
    (hc : Block.CommentLines cs) (hsa : Snug tag a) (hsc : Snug tag c) :
    Snug tag (a ++ (Block.frame s indent cs ++ c)) :=
  (snug_append ha h).2 ⟨hsa, snug_frame_append hd hi hc hsc⟩

/-- Exchanging a block leaves what stands above and below it. -/
theorem exists_replace?_eq (h : HasParts t ps) (hc : Block.CommentLines cs)
    (hr : Block.replace? s (Block.frame s [] cs) t = some a) :
    ∃ e indent cs' ls ms, Excerpt.find? s t = some e ∧ IsIndentation indent ∧ Block.CommentLines cs' ∧
      ((∀ l ∈ cs, l.getLast? ≠ some '\r') → cs' = cs) ∧ e.Spans ls indent ms ∧
      a = e.before ++ (Block.frame s indent cs' ++ e.after) := by
  obtain ⟨e, he, rfl⟩ := Option.map_eq_some_iff.1 hr
  obtain ⟨_, _, _, indent, -, hi, -, -, -, hsp⟩ := h.exists_of_find? he
  refine ⟨e, indent, _, _, _, he, hi, hc.dropReturn, Block.map_dropReturn_of_getLast?, hsp, ?_⟩
  rw [hsp.indent, Block.indentWith_frame hc, List.append_assoc]

/-- Exchanging a block tears none apart. -/
theorem Snug.replace? (hs : Snug tag t) (h : HasParts t ps) (hc : Block.CommentLines cs)
    (hr : Block.replace? s (Block.frame s [] cs) t = some a) : Snug tag a := by
  obtain ⟨e, indent, cs', _, _, he, hi, hc', -, hsp, rfl⟩ := exists_replace?_eq h hc hr
  obtain ⟨pre, _, _, _, -, -, -, hb, -, -⟩ := h.exists_of_find? he
  obtain ⟨hbefore, hafter⟩ := hs.of_find? h he
  exact snug_around hsp.before hb hsp.after hi hc' hbefore hafter

/-! ### Blocks without their indentation -/

/-- Lines without the spaces and tabs in front. -/
def unindented (ls : List Text) : List Text := ls.map (·.dropWhile isIndent)

/-- The blocks of the tag in a text, read without indentation. -/
def plainBlocks (tag : Tag) (t : Text) : List (List Text) := (blocks tag t).map unindented

/-- A block has the lines with which it is written, but for indentation. -/
theorem unindented_framed (hi : IsIndentation indent) (hc : Block.CommentLines cs) :
    unindented (Block.framed s indent cs) = Block.framed s [] cs := by
  have hmarker (m : Marker) : (indent ++ m.text).dropWhile isIndent = m.text := by
    obtain ⟨u, hu, -⟩ := m.exists_text_eq
    rw [hu, hi.dropWhile_append]
  have hlines : (cs.map (indent ++ ·)).map (·.dropWhile isIndent) = cs := by
    rw [List.map_map]
    refine (List.map_congr_left fun l hl => ?_).trans cs.map_id
    obtain ⟨u, rfl⟩ := List.head?_eq_some_iff.1 (hc l hl).1
    exact hi.dropWhile_append u
  have hopen : (indent ++ s.beginMarker).dropWhile isIndent = s.beginMarker := hmarker (.opening s)
  have hclose : (indent ++ s.endMarker).dropWhile isIndent = s.endMarker := hmarker (.closing s)
  rw [Block.framed_nil, Block.framed, unindented, List.map_cons, List.map_append, List.map_singleton, hlines,
    hopen, hclose]

theorem blocks_of_hasParts (h : HasParts t ps) (tag : Tag) : blocks tag t = ps.filterMap (Part.block? tag) := by
  rw [blocks, h.parts_eq]

theorem blocks_frame (hi : IsIndentation indent) (hc : Block.CommentLines cs) :
    blocks tag (Block.frame s indent cs) =
      [Part.block s (Block.framed s indent cs)].filterMap (Part.block? tag) :=
  blocks_of_hasParts (Block.hasParts_frame hi hc) tag

theorem plainBlocks_frame (hi : IsIndentation indent) (hc : Block.CommentLines cs) :
    plainBlocks tag (Block.frame s indent cs) = if s = tag then [Block.framed s [] cs] else [] := by
  rw [plainBlocks, blocks_frame hi hc]
  by_cases hs : s = tag
  · simp [Part.block?, hs, ← unindented_framed hi hc]
  · simp [Part.block?, hs]

/-- Between the parts of a text, a block is one more. -/
theorem plainBlocks_perm_of_hasParts {qs : List Part} (h : HasParts t (ps ++ qs)) (hi : IsIndentation indent)
    (hc : Block.CommentLines cs) (ha : HasParts a (ps ++ .block s (Block.framed s indent cs) :: qs)) :
    (plainBlocks tag a).Perm (plainBlocks tag (Block.frame s indent cs) ++ plainBlocks tag t) := by
  rw [plainBlocks, plainBlocks, plainBlocks, blocks_of_hasParts h, blocks_of_hasParts ha, blocks_frame hi hc,
    ← List.map_append]
  refine List.Perm.map _ ?_
  rw [List.filterMap_append, List.filterMap_append, ← List.singleton_append, List.filterMap_append, ← List.append_assoc,
    ← List.append_assoc]
  exact List.perm_append_comm.append_right _

end

end Text
end Marginalia
