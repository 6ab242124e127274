/-
# A batch at the top of a file

The blocks of a batch that goes to the top stand below the leading directives,
which stay the leading ones, and above the rest of the text, in the order of
their classes and with one empty line between any two of them
(`insertAll_top`). Each block is placed in a text that already starts with the
blocks before it; as a block starts with a begin marker, which is no directive,
the header is found again every time. A text that declares something is more
than its leading directives, so there is a rest below the blocks.

Key theorems: `Directive.headerLength_topHead_append`, `Placement.stack_eq_intercalate`,
`Placement.insertAll_top`.
-/
import Marginalia.Proofs.Placement.Declaring
import Marginalia.Proofs.Placement.Interleaving
import Marginalia.Proofs.Placement.Patching

namespace Marginalia

open Text

/-! ### The header of a text -/

namespace Directive

open Placement

variable {hs : List Text} {c t : Text}

theorem headerLength_paragraph_append (h : ∀ r ∈ hs, IsHead r) (c : Text) :
    headerLength (paragraph hs ++ c) = hs.length + headerLength c := by
  induction hs with
  | nil => rw [paragraph_nil, List.nil_append, List.length_nil, Nat.zero_add]
  | cons r hs ih =>
    rw [List.forall_mem_cons] at h
    rw [paragraph_cons, List.append_assoc, List.cons_append, headerLength_line h.1.1, if_pos h.1.2, ih h.2,
      List.length_cons]
    omega

/-- It does not matter whether a newline ends the last line. -/
theorem headerLength_append_newline (h : ¬ Terminated t) : headerLength (t ++ ['\n']) = headerLength t := by
  induction t using lineRec with
  | nil => exact absurd terminated_nil h
  | last r hr h0 =>
    have hline : Text.lines r = [r] := by
      rw [Text.lines, rawLines_of_not_mem hr h0, List.map_singleton, dropLineEnd_of_not_mem hr]
    have hlength : headerLength r = ([r].takeWhile isDirective).length := by rw [headerLength, hline]
    rw [hlength, headerLength_line hr, isDirective_dropReturn, List.takeWhile_cons]
    split <;> rfl
  | line r t hr ih =>
    have ht : ¬ Terminated t := fun ht => h (terminated_line_iff.2 ht)
    rw [List.append_assoc, List.cons_append, headerLength_line hr, headerLength_line hr, ih ht]

/-- Below the header of a text and an empty line, other text leaves the header as long as it was. -/
theorem headerLength_topHead_append (t : Text) (h : headerLength c = 0) :
    headerLength (topHead (splitHeader t).1 ++ c) = headerLength t := by
  have hheaded {hs : List Text} (hh : ∀ r ∈ hs, IsHead r) : headerLength (headed hs ++ c) = hs.length := by
    unfold headed
    split
    · next h0 => rw [h0, List.nil_append, h, List.length_nil]
    · rw [List.append_assoc, headerLength_paragraph_append hh, List.singleton_append, headerLength_newline, Nat.add_zero]
  obtain ⟨hs, d, hh, hd, ⟨hsplit, rfl⟩ | ⟨rfl, hsplit, hlines, hn⟩⟩ := exists_splitHeader_eq t
  · rw [hsplit, topHead_paragraph, hheaded hh, headerLength_paragraph_append hh, hd, Nat.add_zero]
  · rw [hsplit, topHead_of_not_terminated hn hlines, hheaded hh, ← headerLength_append_newline hn, hlines,
      ← List.append_nil (paragraph hs), headerLength_paragraph_append hh, hd, Nat.add_zero]

/-- What declares a class is more than leading directives and empty lines below them. -/
theorem rest_ne_nil {d : Declaration} (hd : d ∈ (Index.ofSource t).classes) :
    dropNewlines (splitHeader t).2 ≠ [] := by
  intro h0
  have hdecl : d ∈ (Ruby.outline t).1.declarations := (List.mem_filter.1 hd).1
  obtain ⟨hs, c, hh, -, hcase⟩ := exists_splitHeader_eq t
  have hheads : AreNotes hs := fun r hr => ⟨(hh r hr).1, isNote_of_isHead (hh r hr)⟩
  rcases hcase with ⟨hsplit, rfl⟩ | ⟨rfl, -, hlines, -⟩
  · rw [hsplit] at h0
    obtain ⟨n, hc⟩ := exists_newlines_eq c
    rw [show dropNewlines c = [] from h0, List.append_nil] at hc
    have hnotes : AreNotes (hs ++ List.replicate n []) := hheads.append (areNotes_replicate n)
    rw [Ruby.declarations_eq_nil_of_notes hnotes (.inl (by rw [paragraph_append, ← hc]))] at hdecl
    cases hdecl
  · rw [Ruby.declarations_eq_nil_of_notes hheads (.inr hlines)] at hdecl
    cases hdecl

end Directive

/-! ### The stack of blocks -/

namespace Placement

open Block Directive

variable {bs : List Text} {c t : Text} {index : Index} {rs : List Request}

/-- A block that is written starts with the line of its begin marker. -/
theorem opens_render {b : Block} (h : b.render ≠ []) : Opens b.render :=
  ⟨b.tag, _, render_eq (render_eq_nil_iff.not.1 h)⟩

/-- Stacked blocks have one empty line between any two of them, and one between the last of them and the text
below. -/
theorem stack_eq_intercalate (h : bs ≠ []) (c : Text) :
    stack bs c = ['\n', '\n'].intercalate bs ++ '\n' :: if c = [] then [] else '\n' :: c := by
  induction bs with
  | nil => exact absurd rfl h
  | cons b bs ih =>
    cases bs with
    | nil => rw [List.intercalate_singleton]; rfl
    | cons b' bs =>
      have hne : stack (b' :: bs) c ≠ [] := by simp [stack, stackOn]
      rw [stack, List.foldr_cons, ← stack, stackOn, if_neg hne, ih (List.cons_ne_nil b' bs),
        List.intercalate_cons_cons]
      simp only [List.append_assoc, List.cons_append, List.nil_append]

/-- Blocks of a batch at the top are stacked below the header, the ones placed last on top. -/
theorem placeAll_top_eq (hb : ∀ b ∈ bs, Opens b) (h0 : bs ≠ []) (t : Text) :
    bs.foldl atTop t = topHead (splitHeader t).1 ++ stack bs.reverse (dropNewlines (splitHeader t).2) := by
  obtain ⟨hs, c, -, -, hhead, hrest, -, -, hfold⟩ := exists_foldl_atTop_eq t
  rw [← hhead, ← hrest]
  exact hfold hb h0

/-- **A batch at the top goes below the leading directives**, which stay the leading ones: first they and an
empty line, if there are any, then the blocks in the order of their classes, those of one line from the last to the
first and all of them an empty line apart, then an empty line and the rest of the text, without the empty lines at
its start. There is a rest, as there are classes. -/
theorem insertAll_top (t : Text) (hb : ∀ r ∈ rs, r.block = [] ∨ ∃ b : Block, r.block = b.render)
    (hr : ∃ r ∈ rs, r.block ≠ [] ∧ (index.resolve? r.name).isSome) :
    let rest := dropNewlines (splitHeader t).2
    (∃ order, TopDown .top (resolved index rs) order ∧
      (insertAll .top index t rs).text = topHead (splitHeader t).1 ++
        (['\n', '\n'].intercalate ((order.filter fun x => x.2.block ≠ []).map (·.2.block)) ++
          '\n' :: if rest = [] then [] else '\n' :: rest)) ∧
    (index = Index.ofSource t → rest ≠ []) ∧
    headerLength (insertAll .top index t rs).text = headerLength t := by
  intro rest
  obtain ⟨r, hrs, hblock, hfound⟩ := hr
  obtain ⟨d, hd⟩ := Option.isSome_iff_exists.1 hfound
  have hmem : (d, r) ∈ bottomUp .top (resolved index rs) :=
    List.mem_mergeSort.2 (List.mem_filterMap.2 ⟨r, hrs, by rw [hd]; rfl⟩)
  -- the blocks that are placed, in the order in which they are placed
  let bs := ((bottomUp .top (resolved index rs)).filter fun x => x.2.block ≠ []).map (·.2.block)
  have hopens : ∀ b ∈ bs, Opens b := by
    intro b hm
    obtain ⟨x, hx, rfl⟩ := List.mem_map.1 hm
    obtain ⟨hx, h0⟩ := List.mem_filter.1 hx
    have h0 : x.2.block ≠ [] := of_decide_eq_true h0
    obtain ⟨b, he⟩ := (hb x.2 (mem_resolved (List.mem_mergeSort.1 hx)).2).resolve_left h0
    rw [he] at h0 ⊢
    exact opens_render h0
  have hne : bs ≠ [] :=
    List.ne_nil_of_mem (List.mem_map_of_mem (List.mem_filter.2 ⟨hmem, decide_eq_true hblock⟩))
  have htext : (insertAll .top index t rs).text = topHead (splitHeader t).1 ++ stack bs.reverse rest := by
    show placeAll .top t (bottomUp .top (resolved index rs)) = _
    rw [placeAll_filter, placeAll_top fun x hx => of_decide_eq_true (List.mem_filter.1 hx).2]
    exact placeAll_top_eq hopens hne t
  have hne' : bs.reverse ≠ [] := List.reverse_ne_nil_iff.2 hne
  refine ⟨⟨_, topDown_bottomUp .top _, ?_⟩, ?_, ?_⟩
  · rw [htext, stack_eq_intercalate hne', List.filter_reverse, List.map_reverse]
  · rintro rfl
    exact rest_ne_nil (Index.mem_of_resolve? hd)
  · rw [htext]
    have hstack : Opens (stack bs.reverse rest) := opens_stack (fun b hm => hopens b (List.mem_reverse.1 hm)) hne' rest
    exact headerLength_topHead_append t hstack.headerLength_eq_zero

/-- Three classes, two of them on one line. -/
def shopClasses : Text :=
  "class Shop\n".toList ++ "  class Item; end; class Cart; end\n".toList ++ "end\n".toList

/-- Two directives with carriage returns, and classes without an empty line above them. -/
def headedClasses : Text :=
  "#!/usr/bin/env ruby\r\n".toList ++ "# typed: strict\r\n".toList ++ shopClasses

/-- Requests for the classes, from the bottom up, one of them without lines, and for one that is not there. -/
def headedRequests : List Request :=
  [("Item", Block.mk .schema ["id".toList]), ("Shop::Cart", Block.mk .mailer [[], "cart".toList]),
    ("Ghost", Block.mk .schema ["id".toList]), ("Item", Block.mk .routes []),
    ("Shop", Block.mk .routes ["GET /".toList])].map fun p => { name := p.1, block := p.2.render }

theorem insertAll_top_classes :
    let index := Index.ofSource headedClasses
    let text := (insertAll .top index headedClasses headedRequests).text
    (∀ r ∈ headedRequests, r.block = [] ∨ ∃ b : Block, r.block = b.render) ∧
      (∃ r ∈ headedRequests, r.block ≠ [] ∧ (index.resolve? r.name).isSome) ∧
      text = "#!/usr/bin/env ruby\r\n".toList ++ "# typed: strict\r\n\n".toList ++ ['\n', '\n'].intercalate
        [Block.render ⟨.routes, ["GET /".toList]⟩, Block.render ⟨.mailer, [[], "cart".toList]⟩,
          Block.render ⟨.schema, ["id".toList]⟩, shopClasses] ∧
      headerLength text = 2 := by
  intro index text
  have hb : ∀ r ∈ headedRequests, r.block = [] ∨ ∃ b : Block, r.block = b.render := fun r hm => by
    obtain ⟨p, -, rfl⟩ := List.mem_map.1 hm
    exact .inr ⟨p.2, rfl⟩
  have hr : ∃ r ∈ headedRequests, r.block ≠ [] ∧ (index.resolve? r.name).isSome := by decide
  have hsorted : bottomUp .top (resolved index headedRequests) = resolved index headedRequests :=
    bottomUp_of_pairwise (by decide)
  have htext : text = placeAll .top headedClasses (resolved index headedRequests) := congrArg _ hsorted
  obtain ⟨-, -, hlength⟩ := insertAll_top headedClasses hb hr
  exact ⟨hb, hr, htext.trans (by decide +kernel), hlength.trans (by decide)⟩

end Placement
end Marginalia
