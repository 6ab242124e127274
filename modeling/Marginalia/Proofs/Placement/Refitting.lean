/-
# Blocks put in and exchanged

A block is indented in two places. Where it is put in (`Placement.indented`), a
block that needs no indentation is taken as it is; where it is exchanged
(`Block.indentWith`), its lines are read and joined again in any case. A line that is
read loses the carriage return at its end, so the two come to the same exactly
if there is indentation or no payload line ends with a carriage return. Where a
block that was put in is found again, exchanging it for itself leaves the text as it
is exactly then (`Placement.replace?_place_iff`).

Key definition: `Placement.fitted`.
Key theorems: `Placement.indented_render_eq_iff`, `Placement.find?_place_iff`, `Placement.replace?_place_iff`.
-/
import Marginalia.Proofs.Block.Locating
import Marginalia.Proofs.Placement.Splicing
import Marginalia.Ruby.Reader

namespace Marginalia

namespace Text

/-- Only a carriage return at the end is dropped. -/
theorem dropReturn_eq_self_iff {l : Text} : dropReturn l = l ↔ l.getLast? ≠ some '\r' := by
  refine ⟨fun h hl => ?_, dropReturn_of_getLast?⟩
  obtain ⟨u, rfl⟩ := List.getLast?_eq_some_iff.1 hl
  have hd : dropReturn (u ++ ['\r']) = u := by simp [dropReturn, dropLineEnd]
  have hlength : u.length = (u ++ ['\r']).length := congrArg List.length (hd.symm.trans h)
  rw [List.length_append, List.length_singleton] at hlength
  omega

/-- A word without carriage returns stands in a line as it stands in what is read of it. -/
theorem infix_dropReturn_iff {word l : Text} (h0 : word ≠ []) (hr : '\r' ∉ word) :
    word <:+: dropReturn l ↔ word <:+: l := by
  refine ⟨fun h => h.trans (dropReturn_isPrefix l).isInfix, fun h => ?_⟩
  rcases dropReturn_eq l with hl | hl
  · rwa [hl]
  · rw [← hl] at h
    exact infix_of_infix_append h0 (by simpa using hr) h

end Text

namespace Block

open Text

variable {tag : Tag} {indent above below : Text} {cs : List Text} {b : Block}

theorem head?_commentLine (l : Text) : (commentLine l).head? = some '#' := by
  unfold commentLine
  split <;> rfl

/-- A comment ends with a carriage return if its payload line does. -/
theorem getLast?_commentLine_iff {l : Text} : (commentLine l).getLast? = some '\r' ↔ l.getLast? = some '\r' := by
  unfold commentLine
  split
  · next h => simp [h, Tag.commentSign]
  · next h =>
    obtain ⟨c, u, rfl⟩ := List.exists_cons_of_ne_nil h
    simp only [List.getLast?_cons_cons]

theorem head?_of_mem_commentLines (hn : ∀ l ∈ b.lines, '\n' ∉ l) :
    ∀ c ∈ b.commentLines, c.head? = some '#' ∧ '\n' ∉ c :=
  List.forall_mem_map.2 fun l hl => ⟨head?_commentLine l, newline_not_mem_commentLine (hn l hl)⟩

/-- A block is the text of its comment lines. -/
theorem frame_nil_inj {cs' : List Text} (h : ∀ c ∈ cs, '\n' ∉ c) (h' : ∀ c ∈ cs', '\n' ∉ c) :
    frame tag [] cs = frame tag [] cs' ↔ cs = cs' := by
  refine ⟨fun he => ?_, fun he => by rw [he]⟩
  simp only [frame_eq, List.nil_append, List.map_id', List.append_cancel_left_eq, List.cons.injEq, true_and,
    List.append_cancel_right_eq] at he
  calc cs = rows (paragraph cs) := (rows_paragraph h).symm
    _ = rows (paragraph cs') := by rw [he]
    _ = cs' := rows_paragraph h'

/-- Read line by line, a written block loses the carriage returns at the ends of its lines. -/
theorem indentWith_render (h : b.lines ≠ []) (hn : ∀ l ∈ b.lines, '\n' ∉ l) (indent : Text) :
    indentWith indent b.render = frame b.tag indent (b.commentLines.map dropReturn) := by
  rw [render_eq_frame h, indentWith_frame_of_head? (head?_of_mem_commentLines hn)]

/-- Without indentation this leaves the block as it is exactly if it has no such carriage return. -/
theorem indentWith_nil_render_eq_iff (hn : ∀ l ∈ b.lines, '\n' ∉ l) :
    indentWith [] b.render = b.render ↔ ∀ l ∈ b.lines, l.getLast? ≠ some '\r' := by
  by_cases h : b.lines = []
  · rw [render_eq_nil_iff.2 h, h]
    exact iff_of_true rfl nofun
  have hc : ∀ c ∈ b.commentLines, '\n' ∉ c := fun c hc => (head?_of_mem_commentLines hn c hc).2
  have hd : ∀ c ∈ b.commentLines.map dropReturn, '\n' ∉ c :=
    List.forall_mem_map.2 fun c hm hin => hc c hm ((dropReturn_isPrefix c).subset hin)
  calc indentWith [] b.render = b.render
      ↔ b.commentLines.map dropReturn = b.commentLines := by
        rw [indentWith_render h hn, render_eq_frame h, frame_nil_inj hd hc]
    _ ↔ ∀ c ∈ b.commentLines, dropReturn c = id c := by rw [← List.map_inj_left, List.map_id]
    _ ↔ ∀ l ∈ b.lines, l.getLast? ≠ some '\r' := by
        simp only [commentLines, List.forall_mem_map, id_eq, dropReturn_eq_self_iff, ne_eq, getLast?_commentLine_iff]

/-- No end marker stands in front of the end of a block exactly if none stands in its comment lines. -/
theorem endMarker_infix_iff (hi : IsIndentation indent) :
    tag.endMarker <:+: '\n' :: (paragraph (cs.map (indent ++ ·)) ++ indent) ↔ ∃ c ∈ cs, tag.endMarker <:+: c := by
  obtain ⟨u, hu, -, hn⟩ := Marker.exists_text_eq (.closing tag)
  have hu : tag.endMarker = '#' :: u := hu
  have hn : '\n' ∉ tag.endMarker := hn
  have h0 : tag.endMarker ≠ [] := Marker.text_ne_nil (.closing tag)
  have hindent (c : Text) : tag.endMarker <:+: indent ++ c ↔ tag.endMarker <:+: c := by
    refine ⟨fun h => ?_, fun h => h.trans (List.suffix_append indent c).isInfix⟩
    rw [hu] at h ⊢
    exact infix_of_first_not_mem hi.sign_not_mem h
  have hlast : ¬ tag.endMarker <:+: indent := fun h => hi.sign_not_mem (h.subset (hu ▸ List.mem_cons_self))
  calc tag.endMarker <:+: '\n' :: (paragraph (cs.map (indent ++ ·)) ++ indent)
      ↔ tag.endMarker <:+: paragraph (cs.map (indent ++ ·) ++ [indent]) := by
        rw [paragraph_append, paragraph_cons, paragraph_nil, ← List.append_assoc, infix_append_newline hn]
        simpa [h0] using infix_append_newline hn (a := []) (b := paragraph (cs.map (indent ++ ·)) ++ indent)
    _ ↔ ∃ l ∈ cs.map (indent ++ ·) ++ [indent], tag.endMarker <:+: l := infix_paragraph_iff hn h0
    _ ↔ ∃ c ∈ cs, tag.endMarker <:+: c := by
        simp only [List.mem_append, List.mem_map, List.mem_singleton, or_and_right, exists_or, exists_eq_left, hlast,
          or_false, exists_exists_and_eq_and, hindent]

/-- A block of comments at the start of a line is what is found exactly if no begin marker stands above it and
no end marker in its lines. -/
theorem find?_frame_iff (ha : Terminated above) (hi : IsIndentation indent) :
    Excerpt.find? tag (above ++ (frame tag indent cs ++ below)) = some ⟨above, frame tag indent cs, below⟩ ↔
      ¬ tag.beginMarker <:+: above ∧ ∀ c ∈ cs, ¬ tag.endMarker <:+: c := by
  have htext : frame tag indent cs = indent ++ (tag.beginMarker ++
      (('\n' :: (paragraph (cs.map (indent ++ ·)) ++ indent)) ++ tag.endMarker)) := by
    rw [frame_eq]
    simp only [List.cons_append, List.append_assoc]
  have hinner : (∀ c ∈ cs, ¬ tag.endMarker <:+: c) ↔
      ¬ tag.endMarker <:+: '\n' :: (paragraph (cs.map (indent ++ ·)) ++ indent) := by
    rw [endMarker_infix_iff hi, not_exists]
    simp only [not_and]
  rw [hinner]
  constructor
  · intro h
    obtain ⟨indent', inner, hf⟩ := Excerpt.find?_eq_some_iff.1 h
    obtain rfl : indent' = indent := hf.indentOf_eq.symm.trans (indentOf_frame hi)
    obtain rfl := List.append_cancel_right (List.append_cancel_left (List.append_cancel_left
      (htext.symm.trans hf.text_eq)))
    exact ⟨hf.first, hf.nearest⟩
  · rintro ⟨hb, he⟩
    have hf : Excerpt.IsFirst tag (above ++ (frame tag indent cs ++ below)) ⟨above, frame tag indent cs, below⟩ indent
        ('\n' :: (paragraph (cs.map (indent ++ ·)) ++ indent)) :=
      ⟨by simp only [Excerpt.whole, List.append_assoc], htext, hi, .inl ha, hb, he⟩
    exact hf.find?_eq

end Block

namespace Placement

open Text Block

variable {b : Block}

/-! ### Where a block is put -/

/-- The indentation with which a block is put in. -/
def indentFor (pos : Position) (t : Text) (d : Declaration) : Text :=
  match pos with
  | .top => []
  | .before | .after => indentAt (rawLines t) d.line

/-- The block as it is put in, with what stands above and below it. -/
def fitted (pos : Position) (t : Text) (d : Declaration) (block : Text) : Excerpt where
  before :=
    match pos with
    | .top => topHead (Directive.splitHeader t).1
    | .before | .after =>
      let head := ((rawLines t).take (cutLine pos d)).flatten
      head ++ (if head = [] ∨ head.getLast? = some '\n' then [] else ['\n'])
  text := indented (indentFor pos t d) block
  after := '\n' ::
    match pos with
    | .top =>
      let rest := dropNewlines (Directive.splitHeader t).2
      if rest = [] then [] else '\n' :: rest
    | .before | .after => ((rawLines t).drop (cutLine pos d)).flatten

theorem isIndentation_indentFor (pos : Position) (t : Text) (d : Declaration) : IsIndentation (indentFor pos t d) := by
  cases pos with
  | top => exact .nil
  | before | after => exact isIndentation_indentAt _ _

/-- The placed text is the block with what stands above and below it. -/
theorem whole_fitted (pos : Position) (t : Text) (d : Declaration) (block : Text) :
    (fitted pos t d block).whole = place pos t d block := by
  cases pos with
  | top => simp only [fitted, Excerpt.whole, place, atTop_eq, indentFor, indented, if_true, List.append_assoc]
  | before | after =>
    rw [place_eq_insertLine (by decide)]
    simp only [fitted, Excerpt.whole, insertLine, indentFor, List.append_assoc]

theorem terminated_fitted (pos : Position) (t : Text) (d : Declaration) (block : Text) :
    Terminated (fitted pos t d block).before := by
  cases pos with
  | top => exact terminated_topHead _
  | before | after =>
    simp only [fitted]
    split
    · next h => rwa [List.append_nil]
    · exact terminated_append_newline _

/-! ### The two indentations -/

/-- **The two indentations agree unless a carriage return shows.** -/
theorem indented_render_eq_iff (hn : ∀ l ∈ b.lines, '\n' ∉ l) (indent : Text) :
    indentWith indent b.render = indented indent b.render ↔
      indent ≠ [] ∨ ∀ l ∈ b.lines, l.getLast? ≠ some '\r' := by
  unfold indented
  split
  · next h =>
    subst h
    rw [indentWith_nil_render_eq_iff hn]
    simp
  · next h => exact iff_of_true rfl (.inl h)

/-- A block with payload is put in as comment lines in which end markers stand as in its own. -/
theorem exists_indented_render_eq (h : b.lines ≠ []) (hn : ∀ l ∈ b.lines, '\n' ∉ l) (indent : Text) :
    ∃ cs, indented indent b.render = frame b.tag indent cs ∧
      ((∀ c ∈ cs, ¬ b.tag.endMarker <:+: c) ↔ ∀ c ∈ b.commentLines, ¬ b.tag.endMarker <:+: c) := by
  unfold indented
  split
  · next h0 => exact ⟨b.commentLines, by rw [h0, render_eq_frame h], Iff.rfl⟩
  · refine ⟨b.commentLines.map dropReturn, indentWith_render h hn indent, ?_⟩
    have hr : '\r' ∉ b.tag.endMarker := by cases b.tag <;> decide
    have he : b.tag.endMarker ≠ [] := Marker.text_ne_nil (.closing b.tag)
    simp only [List.forall_mem_map, infix_dropReturn_iff he hr]

/-- A block that is put in is found again exactly if no begin marker stands above it and no payload line spells
the end marker. -/
theorem find?_place_iff (h : b.lines ≠ []) (hn : ∀ l ∈ b.lines, '\n' ∉ l) (pos : Position) (t : Text)
    (d : Declaration) :
    Excerpt.find? b.tag (place pos t d b.render) = some (fitted pos t d b.render) ↔
      ¬ b.tag.beginMarker <:+: (fitted pos t d b.render).before ∧ ∀ c ∈ b.commentLines, ¬ b.tag.endMarker <:+: c := by
  obtain ⟨cs, htext, hcs⟩ := exists_indented_render_eq h hn (indentFor pos t d)
  have habove := terminated_fitted pos t d b.render
  have hfitted : fitted pos t d b.render = ⟨(fitted pos t d b.render).before, frame b.tag (indentFor pos t d) cs,
      (fitted pos t d b.render).after⟩ := by
    rw [← htext]
    rfl
  rw [← whole_fitted]
  generalize fitted pos t d b.render = e at habove hfitted ⊢
  rw [hfitted, Excerpt.whole, List.append_assoc, find?_frame_iff habove (isIndentation_indentFor pos t d), hcs]

/-- **Exchanging a block and putting it in come to the same unless a carriage return shows.** The block of a
payload takes the place of an old one as it would be put in with the indentation of that one exactly if there is
indentation or no payload line ends with a carriage return. A block that is put in stays as it is
if it is exchanged for itself exactly then, provided that it is what is found: no begin marker stands above it and
none of its lines spells the end marker. -/
theorem replace?_place_iff (tag : Tag) (payload : Text) :
    let b := Block.ofText tag payload
    (∀ t e indent inner, Excerpt.IsFirst tag t e indent inner →
      (replace? tag b.render t = some (e.before ++ indented indent b.render ++ e.after) ↔
        indent ≠ [] ∨ ∀ l ∈ b.lines, l.getLast? ≠ some '\r')) ∧
    ∀ pos t d, b.render ≠ [] →
      (Excerpt.find? tag (place pos t d b.render) = some (fitted pos t d b.render) ↔
        ¬ tag.beginMarker <:+: (fitted pos t d b.render).before ∧ ∀ c ∈ b.commentLines, ¬ tag.endMarker <:+: c) ∧
      (Excerpt.find? tag (place pos t d b.render) = some (fitted pos t d b.render) →
        (replace? tag b.render (place pos t d b.render) = some (place pos t d b.render) ↔
          indentFor pos t d ≠ [] ∨ ∀ l ∈ b.lines, l.getLast? ≠ some '\r')) := by
  intro b
  have hn : ∀ l ∈ b.lines, '\n' ∉ l := fun _ => newline_not_mem_lines_ofText
  have hfirst {t : Text} {e : Excerpt} {indent inner : Text} (hf : e.IsFirst tag t indent inner) :
      replace? tag b.render t = some (e.before ++ indented indent b.render ++ e.after) ↔
        indent ≠ [] ∨ ∀ l ∈ b.lines, l.getLast? ≠ some '\r' := by
    rw [replace?, hf.find?_eq, Option.map_some, hf.indentOf_eq, Option.some.injEq, List.append_cancel_right_eq,
      List.append_cancel_left_eq, indented_render_eq_iff hn]
  refine ⟨fun t e indent inner hf => hfirst hf, fun pos t d h0 => ⟨?_, fun hfound => ?_⟩⟩
  · exact find?_place_iff (render_eq_nil_iff.not.1 h0) hn pos t d
  · obtain ⟨indent, inner, hf⟩ := Excerpt.find?_eq_some_iff.1 hfound
    obtain ⟨cs, htext, -⟩ := exists_indented_render_eq (render_eq_nil_iff.not.1 h0) hn (indentFor pos t d)
    obtain rfl : indentFor pos t d = indent := by
      calc indentFor pos t d = indentOf (frame b.tag (indentFor pos t d) cs) :=
            (indentOf_frame (isIndentation_indentFor pos t d)).symm
        _ = indentOf (fitted pos t d b.render).text := by rw [← htext]; rfl
        _ = indent := hf.indentOf_eq
    have hiff := hfirst hf
    rwa [show _ ++ indented _ b.render ++ _ = place pos t d b.render from whole_fitted pos t d b.render] at hiff

/-! ### A carriage return -/

/-- A block whose comment ends with a carriage return. -/
def returnBlock : Block := Block.ofText .schema "id\r\n".toList

/-- A class in a module. -/
def itemClass : Text := "module Shop\n  class Item\n  end\nend\n".toList

/-- The class. -/
def itemAt : Declaration := .spanning .klass "Item" ["Shop"] "Item" 2 2 3

/-- With indentation the block loses the carriage return when it is put in, and stays. -/
theorem replace?_place_iff_item :
    itemAt ∈ (Index.ofSource itemClass).classes ∧
      Excerpt.find? .schema (place .before itemClass itemAt returnBlock.render) =
        some (fitted .before itemClass itemAt returnBlock.render) ∧
      replace? .schema returnBlock.render (place .before itemClass itemAt returnBlock.render) =
        some (place .before itemClass itemAt returnBlock.render) := by
  have hd : itemAt ∈ (Index.ofSource itemClass).classes := by
    -- the texts are spelled out, as a literal is decoded anew wherever it is compared
    unfold itemAt itemClass
    repeat rewrite [String.toList_ofList]
    decide
  obtain ⟨-, hplace⟩ := replace?_place_iff .schema "id\r\n".toList
  obtain ⟨hfound, hstays⟩ := hplace .before itemClass itemAt (by decide)
  have hf := hfound.2 ⟨by decide, by decide⟩
  exact ⟨hd, hf, (hstays hf).2 (.inl (by decide))⟩

/-- A class at the start of a line. -/
def userClass : Text := "class User\nend\n".toList

/-- Without indentation the block keeps the carriage return when it is put in, and loses it when it is
exchanged for itself. -/
theorem replace?_drops_return :
    let put := ("# --- BEGIN annotate:schema ---\n# id\r\n# --- END annotate:schema ---\n" ++
      "class User\nend\n").toList
    let again := ("# --- BEGIN annotate:schema ---\n# id\n# --- END annotate:schema ---\n" ++
      "class User\nend\n").toList
    ¬ HoldsMarker userClass ∧
      insert? .before (Index.ofSource userClass) userClass { name := "User", block := returnBlock.render } = some put ∧
      indentWith [] returnBlock.render ≠ indented [] returnBlock.render ∧
      replace? .schema returnBlock.render put = some again ∧ again ≠ put := by
  unfold userClass returnBlock
  repeat rewrite [String.toList_append]
  repeat rewrite [String.toList_ofList]
  refine ⟨?_, ?_, ?_, ?_, ?_⟩
  all_goals decide

end Placement
end Marginalia
