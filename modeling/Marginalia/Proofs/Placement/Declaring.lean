/-
# A placed block declares nothing

A block of comment lines leaves the classes and modules of a source as they
are, and moves them by as many lines as it adds above them (`Index.Moved`): at
the top of every source, and beside a class wherever the source is in plain code
at the line end where the block goes (`Ruby.Seam`). It is put in by line
numbers, so at other line ends it is no comment: in the body of a here document
a payload declares what it likes.

Key definitions: `Index.Moved`, `Placement.newLine`, `Placement.FitsBeside`.
Key theorems: `Block.exists_indented_render`, `Placement.place_declares`.
-/
import Marginalia.Proofs.Placement.Stacking
import Marginalia.Proofs.Ruby.Standing

namespace Marginalia

open Text

/-! ### Declarations on other lines -/

/-- The declaration `d'` is the declaration `d` on the lines that `f` tells. -/
structure Declaration.Moved (f : Nat → Nat) (d d' : Declaration) : Prop where
  /-- Class or module. -/
  kind : d'.kind = d.kind
  /-- The last part of the name. -/
  name : d'.name = d.name
  /-- The names around it. -/
  scopes : d'.scopes = d.scopes
  /-- The name as written. -/
  writtenPath : d'.writtenPath = d.writtenPath
  /-- The column of the keyword. -/
  column : d'.column = d.column
  /-- The line of the keyword. -/
  line : d'.line = f d.line
  /-- The line of the end. -/
  endLine : d'.endLine = f d.endLine

/-- The index `i'` is that of a source without faults, and lists what `i` lists, on the lines that `f` tells. -/
structure Index.Moved (f : Nat → Nat) (i i' : Index) : Prop where
  /-- The source has no faults. -/
  degraded : i'.degraded = false
  /-- The classes, in the same order. -/
  classes : List.Forall₂ (Declaration.Moved f) i.classes i'.classes
  /-- The modules, in the same order. -/
  modules : List.Forall₂ (Declaration.Moved f) i.modules i'.modules

namespace Ruby

variable {c : Cut} {f : Nat → Nat} {t u : Text}

/-- Lines that are put in above the tail move those of the tail. -/
theorem Cut.line_eq {k m : Nat} (h : c.above = k) (h' : c.above' = k + m) (l : Nat) :
    c.line l = if l ≤ k then l else l + m := by
  rw [Cut.line, h, h']
  split <;> omega

theorem Cut.moved_shift (hf : ∀ l, c.line l = f l) (d : Declaration) : d.Moved f (c.shift d) := by
  have hle : c.line d.line ≤ c.line d.endLine := c.line_mono d.line_le_endLine
  have hend : (c.shift d).endLine = c.line d.endLine := Nat.max_eq_left hle
  exact ⟨rfl, rfl, rfl, rfl, rfl, hf _, hend.trans (hf _)⟩

/-- What declares the same across a cut has the same index, on other lines. -/
theorem moved_ofSource (hf : ∀ l, c.line l = f l)
    (h : (outline u).2 = false ∧ (outline u).1.declarations = (outline t).1.declarations.map c.shift) :
    (Index.ofSource t).Moved f (Index.ofSource u) := by
  have hkind (kind : Declaration.Kind) :
      List.Forall₂ (Declaration.Moved f) ((outline t).1.declarations.filter (·.kind == kind))
        ((outline u).1.declarations.filter (·.kind == kind)) := by
    have hfilter : (outline u).1.declarations.filter (·.kind == kind) =
        ((outline t).1.declarations.filter (·.kind == kind)).map c.shift := by
      rw [h.2, List.filter_map]
      rfl
    rw [hfilter, List.forall₂_map_right_iff, List.forall₂_same]
    exact fun d _ => Cut.moved_shift hf d
  exact ⟨h.1, hkind .klass, hkind .module⟩

end Ruby

/-! ### Counting lines -/

namespace Text

variable {t : Text}

theorem length_rawLines (t : Text) : (rawLines t).length = t.count '\n' + if Terminated t then 0 else 1 := by
  induction t using lineRec with
  | nil => rfl
  | last r hr h0 =>
    rw [rawLines_of_not_mem hr h0, List.count_eq_zero.2 hr, if_neg (not_terminated hr h0)]
    rfl
  | line r t hr ih =>
    rw [rawLines_line hr, List.length_cons, ih, List.count_append, List.count_eq_zero.2 hr, List.count_cons_self]
    simp only [terminated_line_iff]
    omega

theorem length_rawLines_paragraph {ls : List Text} (h : ∀ l ∈ ls, '\n' ∉ l) : (rawLines (paragraph ls)).length = ls.length := by
  rw [← length_rows, rows_paragraph h]

end Text

/-! ### The lines of a block -/

namespace Block

variable {b : Block} {indent : Text}

/-- A line of a block where it is placed. -/
structure IsNoteLine (b : Block) (l : Text) : Prop where
  /-- It is one line. -/
  line : '\n' ∉ l
  /-- It is not empty. -/
  ne_nil : l ≠ []
  /-- It is a comment. -/
  isNote : isNote l = true
  /-- It holds the mark `=end` only if a line of the payload does. -/
  endMark : "=end".toList <:+: l → ∃ m ∈ b.lines, "=end".toList <:+: m

theorem areNotes {ls : List Text} (h : ∀ l ∈ ls, b.IsNoteLine l) : AreNotes ls := fun l hl => ⟨(h l hl).line, (h l hl).isNote⟩

/-- The lines of a block before it is placed. -/
def writtenLines (b : Block) : List Text := b.tag.beginMarker :: (b.lines.map commentLine ++ [b.tag.endMarker])

theorem render_eq_joinLines (h0 : b.lines ≠ []) : b.render = joinLines b.writtenLines := by
  rw [render, if_neg h0]
  rfl

/-- The lines of a block are comments, and the mark `=end` stands in none that is not of the payload. -/
theorem writtenLines_spec (hn : ∀ l ∈ b.lines, '\n' ∉ l) : ∀ l ∈ b.writtenLines,
    l.head? = some '#' ∧ '\n' ∉ l ∧ ("=end".toList <:+: l → ∃ m ∈ b.lines, "=end".toList <:+: m) := by
  have hmarker (m : Marker) : m.text.head? = some '#' ∧ '\n' ∉ m.text ∧
      ("=end".toList <:+: m.text → ∃ m ∈ b.lines, "=end".toList <:+: m) := by
    have hmark : ∀ m ∈ Marker.all, m.text.head? = some '#' ∧ ¬ "=end".toList <:+: m.text := by decide
    obtain ⟨hhead, he⟩ := hmark m m.mem_all
    exact ⟨hhead, m.newline_not_mem_text, fun h => absurd h he⟩
  intro l hl
  rw [writtenLines, List.mem_cons, List.mem_append, List.mem_singleton] at hl
  rcases hl with rfl | hl | rfl
  · exact hmarker (.opening b.tag)
  · obtain ⟨m, hm, rfl⟩ := List.mem_map.1 hl
    unfold commentLine
    split
    · exact ⟨rfl, by decide, fun h => absurd h (by decide)⟩
    · refine ⟨rfl, ?_, fun h => ⟨m, hm, infix_of_first_not_mem (a := [Tag.commentSign, ' ']) (by decide) h⟩⟩
      simpa [Tag.commentSign] using hn m hm
  · exact hmarker (.closing b.tag)

/-- A line of a block is a comment where it is placed, also without its carriage return. -/
theorem isNoteLine_indent (hi : IsIndentation indent) (hn : ∀ l ∈ b.lines, '\n' ∉ l) {l p : Text}
    (hl : l ∈ b.writtenLines) (hp : p <+: l) (hhead : p.head? = some '#') : b.IsNoteLine (indent ++ p) := by
  obtain ⟨-, hnl, he⟩ := writtenLines_spec hn l hl
  obtain ⟨u, rfl⟩ := List.head?_eq_some_iff.1 hhead
  have hnp : '\n' ∉ '#' :: u := fun hm => hnl (hp.subset hm)
  refine ⟨?_, by simp, isNote_comment hi u, fun h => he ?_⟩
  · rw [List.mem_append, not_or]
    exact ⟨hi.newline_not_mem, hnp⟩
  · exact (infix_of_first_not_mem (fun hm => absurd (hi _ hm) (by decide)) h).trans hp.isInfix

/-- **A rendered block is made of comment lines** wherever it is placed, if its payload is made of lines. -/
theorem exists_indented_render (h0 : b.lines ≠ []) (hn : ∀ l ∈ b.lines, '\n' ∉ l) (hi : IsIndentation indent) :
    ∃ ls, Placement.indented indent b.render = joinLines ls ∧ ls ≠ [] ∧ ∀ l ∈ ls, b.IsNoteLine l := by
  have hspec := writtenLines_spec hn
  rw [render_eq_joinLines h0]
  unfold Placement.indented
  split
  · next hnil =>
    subst hnil
    exact ⟨_, rfl, List.cons_ne_nil _ _, fun l hl => isNoteLine_indent hi hn hl List.prefix_rfl (hspec l hl).1⟩
  · have hmem {l : Text} (hl : l ∈ b.tag.beginMarker :: b.lines.map commentLine) : l ∈ b.writtenLines := by
      rw [writtenLines, ← List.cons_append]
      exact List.mem_append_left _ hl
    have hlines : Text.lines (joinLines b.writtenLines) =
        (b.tag.beginMarker :: b.lines.map commentLine).map dropReturn ++ [b.tag.endMarker] :=
      lines_joinLines (Marker.newline_not_mem_text (.closing b.tag)) (Marker.text_ne_nil (.closing b.tag))
        fun l hl => (hspec l (hmem hl)).2.1
    refine ⟨_, rfl, by rw [hlines]; simp, fun l' hl' => ?_⟩
    obtain ⟨p, hp, rfl⟩ := List.mem_map.1 hl'
    obtain ⟨l, hl, hpre, hhead⟩ : ∃ l ∈ b.writtenLines, p <+: l ∧ p.head? = some '#' := by
      rw [hlines, List.mem_append, List.mem_singleton] at hp
      rcases hp with hp | rfl
      · obtain ⟨l, hl, rfl⟩ := List.mem_map.1 hp
        exact ⟨l, hmem hl, dropReturn_isPrefix l, head?_dropReturn (hspec l (hmem hl)).1⟩
      · have hl : b.tag.endMarker ∈ b.writtenLines := by simp [writtenLines]
        exact ⟨_, hl, List.prefix_rfl, (hspec _ hl).1⟩
    rw [if_neg (by rintro rfl; cases hhead)]
    exact isNoteLine_indent hi hn hl hpre hhead

end Block

namespace Placement

open Block Ruby

/-! ### Beside a class -/

/-- The text above the line end at which a block goes. -/
def upper (pos : Position) (d : Declaration) (t : Text) : Text := ((rawLines t).take (cutLine pos d)).flatten

/-- The text below the line end at which a block goes. -/
def lower (pos : Position) (d : Declaration) (t : Text) : Text := ((rawLines t).drop (cutLine pos d)).flatten

/-- The line in the text `u`, which is `t` with a block placed, for a line of `t`: it moves by as many lines as
were added, unless it is above the block. At the top nothing that counts is above it. -/
def newLine (pos : Position) (d : Declaration) (t u : Text) (l : Nat) : Nat :=
  if l ≤ (rawLines (upper pos d t)).length then l else l + (rawLines u).length - (rawLines t).length

/-- A block may go beside the class: the source is in plain code there, and if the payload holds an `=end`, no
`=begin` waits for it. -/
structure FitsBeside (pos : Position) (d : Declaration) (t : Text) (b : Block) : Prop where
  /-- The source is in plain code. -/
  seam : Seam (upper pos d t) (lower pos d t)
  /-- No block comment ends in the block. -/
  begins : (∀ l ∈ b.lines, ¬ "=end".toList <:+: l) ∨ Settled (upper pos d t) (lower pos d t)

variable {pos : Position} {d : Declaration} {t u : Text} {b : Block} {ls : List Text} {l k m : Nat}

theorem upper_append_lower (pos : Position) (d : Declaration) (t : Text) : upper pos d t ++ lower pos d t = t := by
  rw [upper, lower, ← List.flatten_append, List.take_append_drop, rawLines_flatten]

/-- If the line above the block has no newline, there is nothing below it. -/
theorem lower_eq_nil (h : ¬ Terminated (upper pos d t)) : lower pos d t = [] := by
  have hle : (rawLines t).length ≤ cutLine pos d := Nat.le_of_not_lt fun hlt => h (terminated_take t hlt)
  rw [lower, List.drop_eq_nil_of_le hle, List.flatten_nil]

theorem FitsBeside.takes (h : FitsBeside pos d t b) (h0 : ls ≠ []) (hl : ∀ l ∈ ls, b.IsNoteLine l) :
    Takes (upper pos d t) (lower pos d t) ls where
  seam := h.seam
  ne_nil := h0
  notes := areNotes hl
  solid l hm := (hl l hm).ne_nil
  begins := h.begins.imp_left fun hb l hm he => by
    obtain ⟨m, hm, he⟩ := (hl l hm).endMark he
    exact hb m hm he

theorem newLine_eq (hk : (rawLines (upper pos d t)).length = k) (hu : (rawLines u).length = (rawLines t).length + m) :
    newLine pos d t u l = if l ≤ k then l else l + m := by
  rw [newLine, hk, hu]
  split
  · rfl
  · omega

/-- Beside a class, a block that fits there moves what is below it. -/
theorem moved_beside (hp : pos ≠ .top) (h : FitsBeside pos d t b) (h0 : b.lines ≠ []) (hn : ∀ l ∈ b.lines, '\n' ∉ l)
    (ht : (Index.ofSource t).degraded = false) :
    (Index.ofSource t).Moved (newLine pos d t (place pos t d b.render)) (Index.ofSource (place pos t d b.render)) := by
  obtain ⟨ls, he, hne, hls⟩ := exists_indented_render h0 hn (isIndentation_indentAt (rawLines t) d.line)
  have htakes := h.takes hne hls
  have hsplit := upper_append_lower pos d t
  have hparagraph := length_rawLines_paragraph htakes.notes.lines
  have hcount := length_rawLines (upper pos d t)
  have hplace : place pos t d b.render = upper pos d t ++ (if Terminated (upper pos d t) then [] else ['\n']) ++
      (paragraph ls ++ lower pos d t) := by
    rw [place_eq_insertLine hp, he, ← joinLines_append hne]
    simp only [insertLine, List.append_assoc]
    rfl
  by_cases hx : Terminated (upper pos d t)
  · rw [if_pos hx, List.append_nil] at hplace
    rw [if_pos hx, Nat.add_zero] at hcount
    have hd := declarations_insert hx htakes (by rwa [hsplit])
    rw [hsplit, ← hplace] at hd
    have hheight : (rawLines (place pos t d b.render)).length = (rawLines t).length + ls.length := by
      conv => rhs; rw [← hsplit]
      rw [hplace, rawLines_append hx, rawLines_append hx, rawLines_append (terminated_paragraph ls)]
      simp only [List.length_append, hparagraph]
      omega
    exact moved_ofSource (fun l => (Cut.line_eq rfl rfl l).trans (newLine_eq hcount hheight).symm) hd
  · rw [lower_eq_nil hx, List.append_nil] at hsplit
    rw [if_neg hx, lower_eq_nil hx, List.append_nil, List.append_assoc, List.singleton_append] at hplace
    rw [if_neg hx] at hcount
    rw [lower_eq_nil hx] at htakes
    have hd := declarations_append hx htakes (by rwa [hsplit])
    rw [← hplace] at hd
    have hheight : (rawLines (place pos t d b.render)).length = (rawLines t).length + ls.length := by
      conv => rhs; rw [← hsplit]
      rw [hplace, hcount, ← List.singleton_append, ← List.append_assoc, rawLines_append (terminated_append_newline _),
        List.length_append, hparagraph, length_rawLines, if_pos (terminated_append_newline _), List.count_append]
      rfl
    have hindex : Index.ofSource (upper pos d t) = Index.ofSource t := congrArg _ hsplit
    rw [← hindex]
    exact moved_ofSource (fun l => (Cut.line_eq rfl rfl l).trans (newLine_eq hcount hheight).symm) hd

/-! ### At the top -/

theorem isNote_of_isHead {r : Text} (h : Directive.IsHead r) : isNote r = true := by
  have hd := h.2
  rw [Directive.isDirective_dropReturn] at hd
  unfold Directive.isDirective at hd
  split at hd
  · next rest ht =>
    have hr := dropEndWhile_append_takeEndWhile isBlank r
    rw [show dropEndWhile isBlank r = '#' :: rest from ht, List.cons_append] at hr
    have hnote := isNote_comment IsIndentation.nil (rest ++ takeEndWhile isBlank r)
    rwa [List.nil_append, hr] at hnote
  · cases hd

theorem exists_newlines_eq (t : Text) : ∃ n, t = paragraph (List.replicate n []) ++ dropNewlines t := by
  induction t with
  | nil => exact ⟨0, rfl⟩
  | cons c t ih =>
    by_cases hc : c = '\n'
    · subst hc
      obtain ⟨n, hn⟩ := ih
      refine ⟨n + 1, ?_⟩
      rw [List.replicate_succ, paragraph_cons, List.nil_append, List.cons_append]
      exact congrArg _ hn
    · exact ⟨0, (dropNewlines_of_head? (by simpa using hc)).symm⟩

/-- The lines of a text with a block at its top, down to the first line that is neither directive nor empty. -/
def topLines (hs ls : List Text) (tail : Text) : List Text :=
  (if hs = [] then [] else hs ++ [[]]) ++ (ls ++ if tail = [] then [] else [[]])

theorem atTop_eq_paragraph {hs : List Text} {c : Text} (h0 : ls ≠ []) (ht : Directive.splitHeader t = (paragraph hs, c)) :
    atTop t (joinLines ls) = paragraph (topLines hs ls (dropNewlines c)) ++ dropNewlines c := by
  rw [atTop_eq, ht, topHead_paragraph, joinLines_append h0, headed, topLines]
  by_cases hs0 : hs = [] <;> by_cases hc : dropNewlines c = [] <;> simp [hs0, hc, paragraph]

theorem areNotes_topLines {hs : List Text} (hh : AreNotes hs) (hl : AreNotes ls) (tail : Text) :
    AreNotes (topLines hs ls tail) := by
  have hblank : AreNotes [[]] := areNotes_replicate 1
  unfold topLines
  split <;> split
  · exact areNotes_nil.append (hl.append areNotes_nil)
  · exact areNotes_nil.append (hl.append hblank)
  · exact (hh.append hblank).append (hl.append areNotes_nil)
  · exact (hh.append hblank).append (hl.append hblank)

theorem height_paragraph_append (hl : AreNotes ls) (t : Text) :
    (rawLines (paragraph ls ++ t)).length = ls.length + (rawLines t).length := by
  rw [rawLines_append (terminated_paragraph ls), List.length_append, length_rawLines_paragraph hl.lines]

theorem line_exchange {tail : Text} (ht : (rawLines t).length = k + (rawLines tail).length)
    (hu : (rawLines u).length = m + (rawLines tail).length) (l : Nat) :
    (exchange tail k m).line l = newLine .top d t u l := by
  have h0 : (rawLines (upper .top d t)).length = 0 := rfl
  rw [newLine, h0, ht, hu, Cut.line, exchange]
  dsimp only
  split <;> split <;> omega

/-- At the top, a block moves all that is declared. -/
theorem moved_top (hd : d ∈ (Index.ofSource t).classes) (h0 : b.lines ≠ []) (hn : ∀ l ∈ b.lines, '\n' ∉ l)
    (ht : (Index.ofSource t).degraded = false) :
    (Index.ofSource t).Moved (newLine .top d t (place .top t d b.render)) (Index.ofSource (place .top t d b.render)) := by
  obtain ⟨ls, he, hne, hls⟩ := exists_indented_render h0 hn .nil
  rw [indented, if_pos rfl] at he
  obtain ⟨hs, c, hh, -, hcase⟩ := Directive.exists_splitHeader_eq t
  have hheads : AreNotes hs := fun r hr => ⟨(hh r hr).1, isNote_of_isHead (hh r hr)⟩
  rcases hcase with ⟨hsplit, htext⟩ | ⟨-, -, hlines, -⟩
  · obtain ⟨n, hc⟩ := exists_newlines_eq c
    have hold : AreNotes (hs ++ List.replicate n []) := hheads.append (areNotes_replicate n)
    have hnew : AreNotes (topLines hs ls (dropNewlines c)) := areNotes_topLines hheads (areNotes hls) _
    have ht' : t = paragraph (hs ++ List.replicate n []) ++ dropNewlines c := by
      rw [htext, paragraph_append, List.append_assoc, ← hc]
    have hu : place .top t d b.render = paragraph (topLines hs ls (dropNewlines c)) ++ dropNewlines c := by
      rw [place, he, atTop_eq_paragraph hne hsplit]
    rw [ht'] at ht
    have hmoved := declarations_top hold hnew ht
    rw [← ht', ← hu] at hmoved
    refine moved_ofSource (line_exchange ?_ ?_) hmoved
    · conv => lhs; rw [ht']
      exact height_paragraph_append hold _
    · rw [hu, height_paragraph_append hnew]
  · -- A text of directives alone declares no class.
    have hnone := (List.mem_filter.1 hd).1
    rw [declarations_eq_nil_of_notes hheads (.inr hlines)] at hnone
    cases hnone

/-! ### Everywhere -/

/-- Two classes, one below the other. -/
def siblingClasses : Text := "class A\nend\nclass B < A\nend\n".toList

/-- The upper one. -/
def siblingAbove : Declaration := .spanning .klass "A" [] "A" 1 0 2

/-- A block whose payload looks like code. -/
def codeBlock : Block := .mk .schema ["class C".toList, [], "end".toList]

/-- A class on the line on which a here document is announced. -/
def heraldClass : Text := "class User; end; SQL = <<T\nselect\nT\n".toList

/-- That class. -/
def herald : Declaration := .spanning .klass "User" [] "User" 1 0 1

/-- A block whose payload holds code between the marks of an interpolation. -/
def intruder : Block := .mk .schema ["#\x7bclass Foo; end\x7d".toList]

end Placement
end Marginalia
