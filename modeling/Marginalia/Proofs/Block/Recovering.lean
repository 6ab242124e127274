/-
# Blocks read back

A payload is written as a block, and the block is put on lines of its own into
a text. Payload lines are written as they are, and a block ends with the first
end marker below its begin marker; so it is found whole exactly if none of its
comment lines spells the end marker (`Block.recovered_iff`). The comment signs
taken off again, the lines between the markers are those of the payload.

Key definitions: `Block.uncomment`, `Block.payloadLines`.
Key theorem: `Block.recovered_iff`.
-/
import Marginalia.Proofs.Block.Locating

namespace Marginalia
namespace Block

open Text

/-- A comment line without its comment sign and the space behind it. -/
def uncomment (l : Text) : Text := l.drop 2

/-- The lines of a block between its markers, without comment signs. -/
def payloadLines (block : Text) : List Text := ((rows block).drop 1).dropLast.map uncomment

theorem uncomment_commentLine (l : Text) : uncomment (commentLine l) = l := by
  unfold commentLine
  split
  · next h => rw [h]; rfl
  · rfl

/-- The payload is read back from the lines of the block. -/
theorem payloadLines_render {b : Block} (h : b.lines ≠ []) (hn : ∀ l ∈ b.lines, '\n' ∉ l) :
    payloadLines b.render = b.lines := by
  rw [payloadLines, rows_render h hn, List.drop_one, List.tail_cons, List.dropLast_concat, commentLines, List.map_map]
  exact List.map_id'' uncomment_commentLine _

/-- **A written block is recovered whole unless its payload spells the end marker.** Put between two
texts, the first of which holds no begin marker of the tag, the block of a payload that is not blank is
found from its begin marker to its last character exactly if no comment line of it holds the end marker.
Without comment signs the lines between its markers are those of the payload. -/
theorem recovered_iff (tag : Tag) (payload before after : Text) (hp : ¬ payload.all isBlank)
    (hb : ¬ tag.beginMarker <:+: before) :
    (Excerpt.find? tag (before ++ '\n' :: ((ofText tag payload).render ++ '\n' :: after)) =
        some ⟨before ++ ['\n'], (ofText tag payload).render, '\n' :: after⟩ ↔
      ∀ l ∈ (ofText tag payload).commentLines, ¬ tag.endMarker <:+: l) ∧
    payloadLines (ofText tag payload).render = Text.lines (dropEndNewlines payload) := by
  have h0 : (ofText tag payload).lines ≠ [] := lines_ofText_eq_nil_iff.not.2 hp
  have hlines : (ofText tag payload).lines = Text.lines (dropEndNewlines payload) := if_neg hp
  have hfresh : ¬ tag.beginMarker <:+: before ++ ['\n'] := by
    have hn : '\n' ∉ tag.beginMarker := Marker.newline_not_mem_text (.opening tag)
    rw [infix_append_newline hn, List.infix_nil]
    exact fun h => h.elim hb tag.beginMarker_ne_nil
  have hsealed : Sealed tag (ofText tag payload).render ↔
      ∀ l ∈ (ofText tag payload).commentLines, ¬ tag.endMarker <:+: l := sealed_render_iff h0
  have hwhole : before ++ '\n' :: ((ofText tag payload).render ++ '\n' :: after) =
      (before ++ ['\n']) ++ ((ofText tag payload).render ++ '\n' :: after) := by simp
  rw [← hsealed, hwhole]
  refine ⟨⟨fun h => ?_, fun h => ?_⟩, ?_⟩
  · exact sealed_of_find? h (head?_render h0)
  · exact h.find?_eq (terminated_append_newline before) hfresh _
  · rw [payloadLines_render h0 fun _ => newline_not_mem_lines_ofText, hlines]

/-- The columns of a table below a line of code. -/
theorem recovered_iff_columns :
    Excerpt.find? .schema ("class User".toList ++ '\n' ::
        ((ofText .schema "id\n\nname\n".toList).render ++ '\n' :: "end".toList)) =
      some ⟨"class User\n".toList, (ofText .schema "id\n\nname\n".toList).render, "\nend".toList⟩ ∧
    payloadLines (ofText .schema "id\n\nname\n".toList).render = ["id".toList, [], "name".toList] := by
  obtain ⟨hfind, hlines⟩ := recovered_iff .schema "id\n\nname\n".toList "class User".toList "end".toList
    (by decide) (by decide)
  exact ⟨hfind.2 (by decide), hlines.trans (by decide)⟩

/-- A payload line that spells the end marker ends the block: what is below it is not recovered. -/
theorem not_recovered_spelled_end :
    ¬ "id\n--- END annotate:schema ---\nname".toList.all isBlank ∧
    ¬ HoldsMarker "class User".toList ∧ ¬ HoldsMarker "end".toList ∧
    Excerpt.find? .schema ("class User".toList ++ '\n' ::
        ((ofText .schema "id\n--- END annotate:schema ---\nname".toList).render ++ '\n' :: "end".toList)) ≠
      some ⟨"class User\n".toList, (ofText .schema "id\n--- END annotate:schema ---\nname".toList).render,
        "\nend".toList⟩ := by
  repeat rewrite [String.toList_ofList]
  decide

end Block
end Marginalia
