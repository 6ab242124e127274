/-
# Blocks of lines read back

A text with line ends is written as a block, its lines indented below a mark. From there the lines are read
(`Yaml.blockLines_indented`), put together up to the line ends at the end (`Yaml.joinBlock_eq`), and the signs
behind the mark tell how many line ends there are (`Yaml.blockText_rows`): none, one or all.

Key definitions: `Yaml.indented`, `Yaml.IsBlock`.
Key theorems: `Yaml.joinBlock_eq`, `Yaml.paragraph_eq_append`, `Yaml.blockLines_indented`, `Yaml.blockText_rows`.
-/
import Marginalia.Data.Yaml.Printer
import Marginalia.Data.Yaml.Reader
import Marginalia.Proofs.Block.Framing
import Marginalia.Proofs.Text.Folding

namespace Marginalia
namespace Text

/-- Line ends are cut off behind the last sign that is none. -/
theorem dropEndNewlines_append {a : Text} (ha : a.getLast? ≠ some '\n') (b : Text) :
    dropEndNewlines (a ++ b) = a ++ dropEndNewlines b := by
  have hlast : ∀ c, (a ++ dropEndNewlines b).getLast? = some c → ¬ isNewline c := by
    intro c hc hn
    rw [isNewline, beq_iff_eq] at hn
    rw [List.getLast?_append, Option.or_eq_some_iff, hn] at hc
    exact hc.elim (getLast?_dropEndNewlines b) fun h => ha h.2
  have hend : ∀ c ∈ takeEndWhile isNewline b, isNewline c := fun c hc => beq_iff_eq.2 (newlines_takeEndWhile b c hc)
  have h := (dropEndWhile_append hend hlast).1
  rwa [List.append_assoc, dropEndNewlines, dropEndWhile_append_takeEndWhile] at h

theorem dropEndNewlines_append_newline (t : Text) : dropEndNewlines (t ++ ['\n']) = dropEndNewlines t := by
  simp [dropEndNewlines, dropEndWhile, isNewline]

theorem dropEndNewlines_newlines (n : Nat) : dropEndNewlines (List.replicate n '\n') = [] := by
  induction n with
  | zero => rfl
  | succ n ih => rw [List.replicate_succ', dropEndNewlines_append_newline, ih]

theorem dropEndNewlines_of_getLast? {t : Text} (h : t.getLast? ≠ some '\n') : dropEndNewlines t = t := by
  have happend := dropEndNewlines_append h []
  rwa [List.append_nil, show dropEndNewlines [] = [] from rfl, List.append_nil] at happend

theorem paragraph_rows (t : Text) : paragraph (rows t) = if Terminated t then t else t ++ ['\n'] := by
  induction t using lineRec with
  | nil => rfl
  | last r hr h0 => rw [rows_of_not_mem hr h0, if_neg (not_terminated hr h0), paragraph_cons, paragraph_nil]
  | line r t hr ih =>
    rw [rows_line hr, paragraph_cons, ih]
    split <;> simp_all [terminated_line_iff]

theorem dropEndNewlines_paragraph_rows (t : Text) : dropEndNewlines (paragraph (rows t)) = dropEndNewlines t := by
  rw [paragraph_rows]
  split
  · rfl
  · exact dropEndNewlines_append_newline t

end Text

namespace Yaml

open Text

/-! ### The text of a block -/

theorem getLast?_of_not_mem {l : Text} (h : '\n' ∉ l) : l.getLast? ≠ some '\n' := fun hl => h (List.mem_of_getLast? hl)

/-- The lines are put together without the line ends at the end. Each line end is put before the line below it,
so that `gap` of them are still to be put, and one more if a line stands above. -/
theorem joinBlock_eq : ∀ {ls : List Text}, (∀ l ∈ ls, '\n' ∉ l) → ∀ (first afterBlank : Bool) (gap : Nat),
    joinBlock false first afterBlank gap ls =
      dropEndNewlines (List.replicate (if first then gap else gap + 1) '\n' ++ paragraph ls)
  | [], _, _, _, _ => by rw [joinBlock, paragraph_nil, List.append_nil, dropEndNewlines_newlines]
  | [] :: ls, h, first, afterBlank, gap => by
    rw [joinBlock, joinBlock_eq (List.forall_mem_cons.1 h).2, paragraph_cons, List.nil_append]
    cases first <;> simp [List.replicate_succ']
  | (c :: l) :: ls, h, first, afterBlank, gap => by
    rw [List.forall_mem_cons] at h
    have hrest := joinBlock_eq h.2 false (isBlank c) 0
    have hlast : (List.replicate (if first then gap else gap + 1) '\n' ++ c :: l).getLast? ≠ some '\n' := by
      rw [List.getLast?_append_of_ne_nil _ (List.cons_ne_nil c l)]
      exact getLast?_of_not_mem h.1
    rw [paragraph_cons, ← List.append_assoc, dropEndNewlines_append hlast, joinBlock, hrest]
    cases first <;> rfl

/-- The line ends at the end of lines, told by the empty lines at their end. -/
theorem paragraph_eq_append {ls : List Text} (h : ∀ l ∈ ls, '\n' ∉ l) :
    paragraph ls = dropEndNewlines (paragraph ls) ++
      List.replicate ((takeEndWhile (·.isEmpty) ls).length + if dropEndNewlines (paragraph ls) = [] then 0 else 1) '\n' := by
  induction ls using List.reverseRecOn with
  | nil => rfl
  | append_singleton ls l ih =>
    rw [List.forall_mem_append, List.forall_mem_singleton] at h
    rw [paragraph_append, paragraph_cons, paragraph_nil]
    by_cases hl : l = []
    · subst hl
      have hlength : (takeEndWhile (·.isEmpty) (ls ++ [[]])).length = (takeEndWhile (·.isEmpty) ls).length + 1 := by
        simp [takeEndWhile]
      rw [List.nil_append, dropEndNewlines_append_newline, hlength, Nat.add_right_comm, List.replicate_succ',
        ← List.append_assoc, ← ih h.1]
    · have hlength : (takeEndWhile (·.isEmpty) (ls ++ [l])).length = 0 := by
        simp [takeEndWhile, hl]
      have hlast : (paragraph ls ++ l).getLast? ≠ some '\n' := by
        rw [List.getLast?_append_of_ne_nil _ hl]
        exact getLast?_of_not_mem h.2
      rw [← List.append_assoc, dropEndNewlines_append_newline, dropEndNewlines_of_getLast? hlast, hlength, if_neg]
      · rfl
      · exact fun hnil => hl (List.append_eq_nil_iff.1 hnil).2

/-! ### The lines of a block -/

/-- A line of a block as it is written. -/
def indented (indent : Nat) (l : Text) : Text := if l = [] then [] else List.replicate indent ' ' ++ l

theorem not_mem_indented {l : Text} (h : '\n' ∉ l) (indent : Nat) : '\n' ∉ indented indent l := by
  unfold indented
  split
  · exact List.not_mem_nil
  · exact fun hm => (List.mem_append.1 hm).elim (fun hr => absurd (List.eq_of_mem_replicate hr) (by decide)) h

theorem takeWhile_indented {indent : Nat} {l : Text} (h0 : l ≠ []) (u : Text) :
    (indented indent l ++ u).takeWhile (· == ' ') = List.replicate indent ' ' ++ (l ++ u).takeWhile (· == ' ') := by
  rw [indented, if_neg h0, List.append_assoc, List.takeWhile_append_of_pos]
  exact fun c hc => by rw [List.eq_of_mem_replicate hc]; rfl

theorem drop_indented (indent : Nat) (l : Text) : (indented indent l).drop indent = l := by
  unfold indented
  split
  · next h => rw [h, List.drop_nil]
  · rw [List.drop_append_of_le_length (by simp), List.drop_of_length_le (by simp), List.nil_append]

theorem length_indented {indent : Nat} {l : Text} (h0 : l ≠ []) : (indented indent l).length = indent + l.length := by
  rw [indented, if_neg h0, List.length_append, List.length_replicate]

theorem dropLineEnd_indented {indent : Nat} {l : Text} (h : '\r' ∉ l) :
    dropLineEnd (indented indent l ++ ['\n']) = indented indent l := by
  refine dropReturn_of_getLast? fun hl => ?_
  have hm := List.mem_of_getLast? hl
  unfold indented at hm
  split at hm
  · cases hm
  · exact (List.mem_append.1 hm).elim (fun hr => absurd (List.eq_of_mem_replicate hr) (by decide)) h

/-- The text is empty or begins with a token. -/
def StartsToken (u : Text) : Prop := ∀ c, u.head? = some c → isWritable c = true ∧ c ≠ ' ' ∧ c ≠ '\n' ∧ c ≠ '#'

theorem exists_rawLines_cons {c : Char} (hn : c ≠ '\n') (u : Text) :
    ∃ l ls, rawLines (c :: u) = (c :: l) :: ls := by
  rw [rawLines, if_neg hn]
  split <;> exact ⟨_, _, rfl⟩

theorem dropLineEnd_ne_nil {c : Char} (hn : c ≠ '\n') (hr : c ≠ '\r') (l : Text) : dropLineEnd (c :: l) ≠ [] := by
  unfold dropLineEnd
  split
  · next r h =>
    rintro hnil
    rw [List.reverse_eq_nil_iff.1 hnil, List.reverse_eq_iff] at h
    exact hr (List.cons.inj h).1
  · next r h =>
    rintro hnil
    rw [List.reverse_eq_nil_iff.1 hnil, List.reverse_eq_iff] at h
    exact hn (List.cons.inj h).1
  · exact List.cons_ne_nil c l

/-- A token at the start of a line is no part of a block above. -/
theorem blockLines_rawLines {indent : Nat} (hi : 0 < indent) {u : Text} (hu : StartsToken u) :
    blockLines indent (rawLines u) = ([], rawLines u) := by
  cases u with
  | nil => rfl
  | cons c u =>
    obtain ⟨hw, hblank, hn, -⟩ := hu c rfl
    obtain ⟨l, ls, hl⟩ := exists_rawLines_cons hn u
    have hinner : 0 < (dropLineEnd (c :: l)).length :=
      List.length_pos_iff.2 (dropLineEnd_ne_nil hn (by rintro rfl; exact absurd hw (by decide)) l)
    rw [hl, blockLines, List.takeWhile_cons_of_neg (by simpa using hblank), if_pos]
    simp [hi, hinner]

/-- The lines of a block are read without their indentation, up to what stands below the block. -/
theorem blockLines_indented {indent : Nat} (hi : 0 < indent) {u : Text} (hu : StartsToken u) {ls : List Text}
    (hn : ∀ l ∈ ls, '\n' ∉ l) (hr : ∀ l ∈ ls, '\r' ∉ l) :
    blockLines indent (rawLines (paragraph (ls.map (indented indent)) ++ u)) = (ls, rawLines u) := by
  induction ls with
  | nil => exact blockLines_rawLines hi hu
  | cons l ls ih =>
    rw [List.forall_mem_cons] at hn hr
    rw [List.map_cons, paragraph_cons, List.append_assoc, List.cons_append, rawLines_line (not_mem_indented hn.1 indent),
      blockLines, ih hn.2 hr.2, dropLineEnd_indented hr.1, drop_indented, if_neg]
    by_cases h0 : l = []
    · simp [h0, indented]
    · rw [takeWhile_indented h0, List.length_append, List.length_replicate, Bool.and_eq_true, decide_eq_true_eq]
      omega

/-! ### The signs behind the mark -/

/-- Whether the indentation of a block is told, since its first line may not show it. -/
def hidesIndent (t : Text) : Bool := t.head?.any fun c => c == ' ' || isLineEnd c

theorem blockIndent_indented {indent : Nat} (hi : 0 < indent) {t : Text} (h0 : t ≠ []) (hh : hidesIndent t = false)
    (hr : '\r' ∉ t) (u : Text) :
    blockIndent 1 (rawLines (paragraph ((rows t).map (indented indent)) ++ u)) = indent := by
  obtain ⟨c, t, rfl⟩ := List.exists_cons_of_ne_nil h0
  have hc : c ≠ ' ' ∧ c ≠ '\n' := by
    constructor <;> rintro rfl <;> exact absurd hh (by simp [hidesIndent, isLineEnd])
  obtain ⟨l, ls, hrows⟩ : ∃ l ls, rows (c :: t) = (c :: l) :: ls := by
    obtain ⟨l, ls, hl⟩ := exists_rawLines_cons hc.2 t
    exact ⟨_, _, by rw [rows, hl, List.map_cons, List.takeWhile_cons_of_pos (by simp [isNewline, hc.2])]⟩
  have hn : '\n' ∉ c :: l := not_mem_of_mem_rows (hrows ▸ List.mem_cons_self)
  have hr' : '\r' ∉ c :: l := fun hm => hr (subset_of_mem_lines (lines_eq_rows hr ▸ hrows ▸ List.mem_cons_self) hm)
  rw [hrows, List.map_cons, paragraph_cons, List.append_assoc, List.cons_append, rawLines_line (not_mem_indented hn indent),
    blockIndent, dropLineEnd_indented hr', takeWhile_indented (List.cons_ne_nil c l), List.cons_append,
    List.takeWhile_cons_of_neg (by simpa using hc.1), List.append_nil, List.length_replicate,
    length_indented (List.cons_ne_nil c l), if_pos (by simp)]
  omega

/-- The sign behind the mark of a block that tells its indentation. -/
def hintOf (t : Text) : Text := if hidesIndent t then ['2'] else []

/-- What happens to the line ends at the end of a text. -/
def chompingOf (t : Text) : Chomping :=
  if t.getLast? ≠ some '\n' then .strip
  else if t = ['\n'] ∨ (Text.after? ['\n', '\n'] t.reverse).isSome then .keep else .clip

/-- The sign for what happens to the line ends. -/
def chompSign : Chomping → Text
  | .strip => ['-']
  | .keep => ['+']
  | .clip => []

theorem flatMap_newline_cons (f : Text → Text) (ls : List Text) (u : Text) :
    (ls.flatMap fun l => '\n' :: f l) ++ '\n' :: u = '\n' :: (paragraph (ls.map f) ++ u) := by
  induction ls with
  | nil => rfl
  | cons l ls ih =>
    rw [List.flatMap_cons, List.append_assoc, ih, List.map_cons, paragraph_cons]
    simp

theorem blockOf_eq (t u : Text) : blockOf 2 t ++ '\n' :: u =
    '|' :: (hintOf t ++ chompSign (chompingOf t) ++ '\n' :: (paragraph ((lines t).map (indented 2)) ++ u)) := by
  have hsign : chompSign (chompingOf t) =
      if t.getLast? ≠ some '\n' then ['-']
      else if t = ['\n'] ∨ (Text.after? ['\n', '\n'] t.reverse).isSome then ['+'] else [] := by
    unfold chompingOf
    split
    · rfl
    · split <;> rfl
  rw [hsign, ← flatMap_newline_cons, ← List.append_assoc, ← List.cons_append]
  rfl

theorem blockHeader?_signs (t body : Text) : blockHeader? (hintOf t ++ chompSign (chompingOf t) ++ '\n' :: body) =
    some (chompingOf t, if hidesIndent t then some 2 else none, body) := by
  unfold hintOf
  cases hidesIndent t <;> cases chompingOf t <;> rfl

/-- The signs behind the mark tell the line ends at the end of the text. -/
theorem blockText_rows (t : Text) : blockText false (chompingOf t) (rows t) = t := by
  have hn : ∀ l ∈ rows t, '\n' ∉ l := fun l hl => not_mem_of_mem_rows hl
  have hbody : joinBlock false true false 0 (rows t) = dropEndNewlines t := by
    rw [joinBlock_eq hn, if_pos rfl, List.replicate_zero, List.nil_append, dropEndNewlines_paragraph_rows]
  unfold chompingOf
  split
  · next hl => rw [blockText, hbody, dropEndNewlines_of_getLast? hl]
  · next hl =>
    rw [ne_eq, not_not] at hl
    split
    · have hend := paragraph_eq_append hn
      rw [dropEndNewlines_paragraph_rows, paragraph_rows, if_pos (.inr hl)] at hend
      rw [blockText, hbody]
      refine Eq.trans ?_ hend.symm
      split <;> rfl
    · next hk =>
      obtain ⟨r, rfl⟩ := List.getLast?_eq_some_iff.1 hl
      rw [not_or] at hk
      have hr : r ≠ [] := by
        rintro rfl
        exact hk.1 rfl
      have hlast : r.getLast? ≠ some '\n' := by
        intro hr
        obtain ⟨q, rfl⟩ := List.getLast?_eq_some_iff.1 hr
        exact hk.2 (by simp [after?])
      rw [blockText, hbody, dropEndNewlines_append_newline, dropEndNewlines_of_getLast? hlast, if_neg hr]

/-- Where the header and the lines of a block are known and its last line is ended, its text is. -/
theorem block?_eq {c : Cursor} {chomping : Chomping} {digit : Option Nat} {body : Text} {indent : Nat}
    {block rest : List Text} (hheader : blockHeader? (c.rest.drop 1) = some (chomping, digit, body))
    (hindent : digit.getD (blockIndent 1 (rawLines body)) = indent)
    (hlines : blockLines indent (rawLines body) = (block, rest)) (hended : rest = [] → Terminated body) :
    block? false 1 c = some (.str (String.ofList (blockText false chomping block)),
      { rest := rest.flatten, anchors := c.anchors }) := by
  have hopen : (rest.isEmpty && body.getLast?.any (· != '\n')) = false := by
    cases rest with
    | cons l ls => rfl
    | nil => rcases hended rfl with h | h <;> simp [h]
  have hkept : (if rest.isEmpty && body.getLast?.any (· != '\n') && block.getLast?.any (· ≠ []) then Chomping.strip
      else chomping) = chomping := by
    rw [hopen]
    rfl
  subst hindent
  rw [block?, hheader]
  cases digit with
  | none =>
    rw [Option.getD_none] at hlines
    simp only [Option.bind_eq_bind, Option.bind_some, Nat.max_self, hlines, hkept]
    rfl
  | some d =>
    rw [Option.getD_some] at hlines
    simp only [Option.bind_eq_bind, Option.bind_some, Nat.sub_self, Nat.zero_add, hlines, hkept]
    rfl

/-- A block is read as the text that it was written for. -/
theorem block?_blockOf {t : Text} (h0 : t ≠ []) (hr : '\r' ∉ t) {u : Text} (hu : StartsToken u) {c : Cursor}
    (hc : c.rest = blockOf 2 t ++ '\n' :: u) :
    block? false 1 c = some (.str (String.ofList t), { rest := u, anchors := c.anchors }) := by
  have hn : ∀ l ∈ rows t, '\n' ∉ l := fun l hl => not_mem_of_mem_rows hl
  have hr' : ∀ l ∈ rows t, '\r' ∉ l := fun l hl hm => hr (subset_of_mem_lines (lines_eq_rows hr ▸ hl) hm)
  have hindent : (if hidesIndent t then some 2 else none).getD
      (blockIndent 1 (rawLines (paragraph ((rows t).map (indented 2)) ++ u))) = 2 := by
    cases hh : hidesIndent t with
    | true => rfl
    | false => exact blockIndent_indented (by decide) h0 hh hr u
  rw [blockOf_eq, lines_eq_rows hr] at hc
  rw [block?_eq (by rw [hc]; exact blockHeader?_signs t _) hindent (blockLines_indented (by decide) hu hn hr'),
    blockText_rows, rawLines_flatten]
  intro hnil
  rw [rawLines_eq_nil_iff.1 hnil, List.append_nil]
  exact terminated_paragraph _

/-! ### What is written -/

/-- A block is written with the characters of its text, the signs behind the mark and blanks. -/
theorem isWritable_blockOf {t : Text} (h : ∀ c ∈ t, isWritable c = true) : ∀ c ∈ blockOf 2 t, isWritable c = true := by
  have hindented : ∀ l ∈ lines t, ∀ c ∈ indented 2 l, isWritable c = true := by
    intro l hl c hc
    unfold indented at hc
    split at hc
    · cases hc
    · rcases List.mem_append.1 hc with hc | hc
      · rw [List.eq_of_mem_replicate hc]
        rfl
      · exact h c (subset_of_mem_lines hl hc)
  intro c hc
  have hmem := List.mem_append_left ['\n'] hc
  rw [blockOf_eq, List.append_nil, List.mem_cons, List.mem_append, List.mem_append, List.mem_cons, paragraph,
    List.mem_flatMap] at hmem
  rcases hmem with rfl | (hc | hc) | rfl | ⟨l, hl, hc⟩
  · rfl
  · unfold hintOf at hc
    split at hc
    · rw [List.mem_singleton.1 hc]; rfl
    · cases hc
  · cases hk : chompingOf t <;> rw [hk] at hc <;> simp only [chompSign, List.mem_singleton, List.not_mem_nil] at hc <;>
      rw [hc] <;> rfl
  · rfl
  · obtain ⟨m, hm, rfl⟩ := List.mem_map.1 hl
    rcases List.mem_append.1 hc with hc | hc
    · exact hindented m hm c hc
    · rw [List.mem_singleton.1 hc]; rfl

end Yaml
end Marginalia
