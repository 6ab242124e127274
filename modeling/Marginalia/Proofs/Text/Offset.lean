/-
# Offsets

Offsets count bytes. A text can be cut at an offset that lies within it and between
two of its characters, and nowhere else (`Text.cutAt?_eq_some_iff`); so a slice from
one offset to another is a stretch of the text, and there is none if one of them is
out of range or within a character, or if they are the wrong way round. The first place of a
word is the least offset at which it stands (`Text.isLeast_offsetOf?`), and the
line on which a text ends starts behind the last newline (`Text.lineStart_append`).

Key definitions: `Text.cutAt?`, `Text.slice?`, `Text.StandsAt`, `Text.offsetOf?`, `Text.lineStart`.
Key theorems: `Text.cutAt?_eq_some_iff`, `Text.slice?_eq_some_iff`, `Text.offsetOf?_eq`, `Text.isLeast_offsetOf?`,
`Text.lineStart_append`.
-/
import Mathlib.Order.Bounds.Basic
import Marginalia.Proofs.Text.Lines

namespace Marginalia
namespace Text

/-! ### Cuts at offsets -/

/-- The two parts of a text at an offset in bytes. There are none if the offset lies beyond the text
or within one of its characters. -/
def cutAt? : (offset : Nat) → Text → Option (Text × Text)
  | 0, t => some ([], t)
  | _ + 1, [] => none
  | offset + 1, c :: cs =>
    if c.utf8Size ≤ offset + 1 then (cutAt? (offset + 1 - c.utf8Size) cs).map fun p => (c :: p.1, p.2)
    else none

/-- A difference that does not fall below zero. -/
def minus? (m n : Nat) : Option Nat := if n ≤ m then some (m - n) else none

theorem byteLength_cons (c : Char) (t : Text) : byteLength (c :: t) = c.utf8Size + byteLength t := rfl

theorem byteLength_append (a b : Text) : byteLength (a ++ b) = byteLength a + byteLength b := by
  induction a with
  | nil => exact (Nat.zero_add _).symm
  | cons c a ih => rw [List.cons_append, byteLength_cons, byteLength_cons, ih, Nat.add_assoc]

theorem byteLength_newlines (n : Nat) : byteLength (List.replicate n '\n') = n := by
  induction n with
  | zero => rfl
  | succ n ih => rw [List.replicate_succ, byteLength_cons, ih, Nat.add_comm]; rfl

theorem cutAt?_zero (t : Text) : cutAt? 0 t = some ([], t) := by cases t <;> rfl

theorem cutAt?_append (a b : Text) : cutAt? (byteLength a) (a ++ b) = some (a, b) := by
  induction a with
  | nil => exact cutAt?_zero b
  | cons c a ih =>
    have hpos := Char.utf8Size_pos c
    obtain ⟨n, hn⟩ : ∃ n, byteLength (c :: a) = n + 1 := ⟨byteLength (c :: a) - 1, by rw [byteLength_cons]; omega⟩
    have hrest : n + 1 - c.utf8Size = byteLength a := by rw [← hn, byteLength_cons]; omega
    have hfits : c.utf8Size ≤ n + 1 := by rw [← hn, byteLength_cons]; omega
    rw [hn, List.cons_append, cutAt?, if_pos hfits, hrest, ih, Option.map_some]

/-- A text is cut at the offset that is the length of the first part in bytes. -/
theorem cutAt?_eq_some_iff {offset : Nat} {t a b : Text} :
    cutAt? offset t = some (a, b) ↔ a ++ b = t ∧ byteLength a = offset := by
  constructor
  · intro h
    induction t generalizing offset a with
    | nil =>
      cases offset with
      | zero => cases h; exact ⟨rfl, rfl⟩
      | succ n => cases h
    | cons c t ih =>
      cases offset with
      | zero => cases h; exact ⟨rfl, rfl⟩
      | succ n =>
        rw [cutAt?] at h
        split at h
        · next hfits =>
          obtain ⟨⟨a', b'⟩, hcut, heq⟩ := Option.map_eq_some_iff.1 h
          cases heq
          obtain ⟨rfl, hlen⟩ := ih hcut
          exact ⟨rfl, by rw [byteLength_cons, hlen]; omega⟩
        · cases h
  · rintro ⟨rfl, rfl⟩
    exact cutAt?_append a b

theorem minus?_add_left (m n : Nat) : minus? (m + n) n = some m := by
  rw [minus?, if_pos (Nat.le_add_left n m), Nat.add_sub_cancel]

/-! ### Slices -/

/-- The offset lies within the text, and within none of its characters. -/
def IsBoundary (offset : Nat) (t : Text) : Prop := ∃ a b, t = a ++ b ∧ byteLength a = offset

/-- The text up to an offset. -/
def sliceTo? (stop : Nat) (t : Text) : Option Text := (cutAt? stop t).map (·.1)

/-- The text from an offset on. -/
def sliceFrom? (start : Nat) (t : Text) : Option Text := (cutAt? start t).map (·.2)

/-- The text from one offset to another. -/
def slice? (start stop : Nat) (t : Text) : Option Text := (sliceTo? stop t).bind (sliceFrom? start)

theorem sliceTo?_append (a b : Text) : sliceTo? (byteLength a) (a ++ b) = some a := by
  rw [sliceTo?, cutAt?_append, Option.map_some]

theorem sliceFrom?_append (a b : Text) : sliceFrom? (byteLength a) (a ++ b) = some b := by
  rw [sliceFrom?, cutAt?_append, Option.map_some]

theorem slice?_append (a m b : Text) : slice? (byteLength a) (byteLength (a ++ m)) (a ++ (m ++ b)) = some m := by
  rw [slice?, ← List.append_assoc, sliceTo?_append, Option.bind_some, sliceFrom?_append]

/-- A slice is the stretch of the text between two boundaries. -/
theorem slice?_eq_some_iff {start stop : Nat} {t m : Text} :
    slice? start stop t = some m ↔ ∃ a b, t = a ++ (m ++ b) ∧ byteLength a = start ∧ byteLength (a ++ m) = stop := by
  constructor
  · intro h
    obtain ⟨lead, hlead, hm⟩ := Option.bind_eq_some_iff.1 h
    obtain ⟨⟨_, b⟩, hstop, rfl⟩ := Option.map_eq_some_iff.1 hlead
    obtain ⟨⟨a, _⟩, hstart, rfl⟩ := Option.map_eq_some_iff.1 hm
    obtain ⟨rfl, hlength⟩ := cutAt?_eq_some_iff.1 hstop
    obtain ⟨rfl, rfl⟩ := cutAt?_eq_some_iff.1 hstart
    exact ⟨a, b, List.append_assoc _ _ _, rfl, hlength⟩
  · rintro ⟨a, b, rfl, rfl, rfl⟩
    exact slice?_append a m b

/-- Of two initial parts of a text the one with fewer bytes is a part of the other. -/
theorem isPrefix_of_byteLength_le {a b c d : Text} (h : a ++ b = c ++ d) (hl : byteLength a ≤ byteLength c) :
    a <+: c := by
  rcases List.append_eq_append_iff.1 h with ⟨m, rfl, -⟩ | ⟨m, rfl, -⟩
  · exact List.prefix_append a m
  · cases m with
    | nil => rw [List.append_nil]
    | cons x m =>
      have hpos := Char.utf8Size_pos x
      rw [byteLength_append, byteLength_cons] at hl
      omega

theorem byteLength_le_of_isPrefix {a b : Text} (h : a <+: b) : byteLength a ≤ byteLength b := by
  obtain ⟨m, rfl⟩ := h
  rw [byteLength_append]
  omega

/-! ### The first place of a word -/

/-- The word stands in the text at the offset. -/
def StandsAt (word : Text) (offset : Nat) (t : Text) : Prop := ∃ a b, t = a ++ (word ++ b) ∧ byteLength a = offset

/-- The offset of the first place where `word` stands. -/
def offsetOf? (word : Text) : Text → Option Nat
  | [] => if word = [] then some 0 else none
  | c :: cs => if (after? word (c :: cs)).isSome then some 0 else (offsetOf? word cs).map (c.utf8Size + ·)

/-- The offset is the length of what stands in front of the first place. -/
theorem offsetOf?_eq (word : Text) : ∀ t : Text, offsetOf? word t = (splitFirst? word t).map (byteLength ·.1)
  | [] => by
    rw [offsetOf?, splitFirst?]
    split <;> rfl
  | c :: cs => by
    rw [offsetOf?, splitFirst?, offsetOf?_eq word cs]
    cases after? word (c :: cs) with
    | some rest => rfl
    | none =>
      simp only [Option.isSome_none, Bool.false_eq_true, if_false, Option.map_map]
      rfl

/-- What stands in front of the first place of a word stands in front of all its places. -/
theorem isPrefix_of_splitFirst? {word : Text} : ∀ {t lead rest a b : Text},
    splitFirst? word t = some (lead, rest) → t = a ++ (word ++ b) → lead <+: a
  | [], lead, rest, a, b, h, ht => by
    rw [splitFirst?] at h
    split at h
    · cases h
      exact List.nil_prefix
    · cases h
  | c :: cs, lead, rest, a, b, h, ht => by
    rw [splitFirst?] at h
    split at h
    · cases h
      exact List.nil_prefix
    · next hn =>
      obtain ⟨⟨lead', rest'⟩, hfirst, heq⟩ := Option.map_eq_some_iff.1 h
      cases heq
      cases a with
      | nil => exact absurd ⟨b, ht.symm⟩ (after?_eq_none_iff.1 hn)
      | cons x a =>
        rw [List.cons_append, List.cons.injEq] at ht
        rw [ht.1, List.prefix_cons_inj]
        exact isPrefix_of_splitFirst? hfirst ht.2

/-- The search gives the least offset at which the word stands. -/
theorem isLeast_offsetOf? {word t : Text} {offset : Nat} (h : offsetOf? word t = some offset) :
    IsLeast {i | StandsAt word i t} offset := by
  rw [offsetOf?_eq] at h
  obtain ⟨⟨lead, rest⟩, hfirst, rfl⟩ := Option.map_eq_some_iff.1 h
  refine ⟨⟨lead, rest, ?_, rfl⟩, ?_⟩
  · rw [← List.append_assoc, splitFirst?_eq word hfirst]
  · rintro _ ⟨a, b, ht, rfl⟩
    exact byteLength_le_of_isPrefix (isPrefix_of_splitFirst? hfirst ht)

/-- A word that stands somewhere is found. -/
theorem isSome_splitFirst? {word t : Text} {offset : Nat} (h : StandsAt word offset t) :
    (splitFirst? word t).isSome := by
  obtain ⟨a, b, rfl, -⟩ := h
  rw [Option.isSome_iff_ne_none, Ne, splitFirst?_eq_none_iff, not_not]
  exact ⟨a, b, List.append_assoc _ _ _⟩

/-- Behind a part of a text the word stands where it stands in the rest. -/
theorem standsAt_append_iff {word a t : Text} {offset : Nat} :
    StandsAt word offset (a ++ t) ∧ byteLength a ≤ offset ↔ ∃ i, StandsAt word i t ∧ byteLength a + i = offset := by
  constructor
  · rintro ⟨⟨b, c, ht, rfl⟩, hle⟩
    obtain ⟨m, rfl⟩ := isPrefix_of_byteLength_le ht hle
    rw [List.append_assoc] at ht
    exact ⟨byteLength m, ⟨m, c, List.append_cancel_left ht, rfl⟩, (byteLength_append a m).symm⟩
  · rintro ⟨_, ⟨m, c, rfl, rfl⟩, rfl⟩
    refine ⟨⟨a ++ m, c, ?_, byteLength_append a m⟩, Nat.le_add_right _ _⟩
    rw [List.append_assoc]

/-! ### The line of an offset -/

/-- The offset of the last place where a character stands. -/
def lastOffsetOf? (c : Char) : Text → Option Nat
  | [] => none
  | x :: xs =>
    match lastOffsetOf? c xs with
    | some i => some (x.utf8Size + i)
    | none => if x = c then some 0 else none

/-- The offset at which the line starts on which a text ends. -/
def lineStart (t : Text) : Nat :=
  match lastOffsetOf? '\n' t with
  | some i => i + 1
  | none => 0

theorem lastOffsetOf?_eq_none {c : Char} {t : Text} (h : c ∉ t) : lastOffsetOf? c t = none := by
  induction t with
  | nil => rfl
  | cons x xs ih =>
    rw [List.mem_cons, not_or] at h
    rw [lastOffsetOf?, ih h.2]
    exact if_neg (Ne.symm h.1)

/-- The last place of a character in a text below which there is none. -/
theorem lastOffsetOf?_append {c : Char} {t : Text} (h : c ∉ t) (a : Text) :
    lastOffsetOf? c (a ++ c :: t) = some (byteLength a) := by
  induction a with
  | nil =>
    rw [List.nil_append, lastOffsetOf?, lastOffsetOf?_eq_none h]
    exact if_pos rfl
  | cons x a ih => rw [List.cons_append, lastOffsetOf?, ih, byteLength_cons]

/-- Above the line on which a text ends all lines are ended. -/
theorem lineStart_append {above line : Text} (ha : Terminated above) (hl : '\n' ∉ line) :
    lineStart (above ++ line) = byteLength above := by
  by_cases h0 : above = []
  · subst h0
    rw [List.nil_append, lineStart, lastOffsetOf?_eq_none hl]
    rfl
  · obtain ⟨r, rfl⟩ := ha.exists_eq h0
    rw [lineStart, List.append_assoc, List.singleton_append, lastOffsetOf?_append hl, byteLength_append]
    rfl

/-- Every text ends on a line. -/
theorem exists_lastLine (t : Text) : ∃ above line, t = above ++ line ∧ Terminated above ∧ '\n' ∉ line := by
  induction t using lineRec with
  | nil => exact ⟨[], [], rfl, terminated_nil, List.not_mem_nil⟩
  | last r hr h0 => exact ⟨[], r, rfl, terminated_nil, hr⟩
  | line r t hr ih =>
    obtain ⟨above, line, rfl, ha, hl⟩ := ih
    refine ⟨r ++ '\n' :: above, line, ?_, terminated_line_iff.2 ha, hl⟩
    rw [List.append_assoc, List.cons_append]

/-- There is one such line only. -/
theorem lastLine_unique {above line above' line' : Text} (ha : Terminated above) (hl : '\n' ∉ line)
    (ha' : Terminated above') (hl' : '\n' ∉ line') (h : above ++ line = above' ++ line') :
    above = above' ∧ line = line' := by
  have hlength : byteLength above = byteLength above' := by
    calc byteLength above = lineStart (above ++ line) := (lineStart_append ha hl).symm
      _ = lineStart (above' ++ line') := by rw [h]
      _ = byteLength above' := lineStart_append ha' hl'
  have hcut := cutAt?_append above line
  rw [h, hlength, cutAt?_append, Option.some.injEq, Prod.mk.injEq] at hcut
  exact ⟨hcut.1.symm, hcut.2.symm⟩

end Text
end Marginalia
