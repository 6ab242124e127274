/-
# Notes are passed over

Between two tokens of code, where a value is due, a reader is at rest
(`Ruby.Reader.Rests`): a line that is blank or a comment is passed over there,
and nothing but the place of the reader changes (`Ruby.Reader.Rests.reads_notes`).

Key definitions: `Text.AreNotes`, `Ruby.Reader.goTo`, `Ruby.Reader.Rests`.
Key theorem: `Ruby.Reader.Rests.reads_notes`.
-/
import Marginalia.Proofs.Block.Framing
import Marginalia.Proofs.Ruby.Stepping

namespace Marginalia

namespace Text

/-- Lines that are blank or comments. -/
def AreNotes (ls : List Text) : Prop := ∀ l ∈ ls, '\n' ∉ l ∧ isNote l = true

variable {ls ms : List Text} {l : Text}

theorem areNotes_nil : AreNotes [] := fun _ h => by cases h

theorem areNotes_cons : AreNotes (l :: ls) ↔ ('\n' ∉ l ∧ isNote l = true) ∧ AreNotes ls := List.forall_mem_cons

theorem AreNotes.append (h : AreNotes ls) (h' : AreNotes ms) : AreNotes (ls ++ ms) := List.forall_mem_append.2 ⟨h, h'⟩

theorem areNotes_replicate (n : Nat) : AreNotes (List.replicate n []) := fun l h => by
  rw [List.eq_of_mem_replicate h]
  exact ⟨List.not_mem_nil, rfl⟩

theorem AreNotes.lines (h : AreNotes ls) : ∀ l ∈ ls, '\n' ∉ l := fun l hl => (h l hl).1

end Text

open Text

namespace Ruby
namespace Reader

/-- The reader with other text to be read. -/
def goTo (r : Reader) (t : Text) (p : Place) : Reader := { r with rest := t, place := p }

/-- The reader is between two tokens of code, where a gap may stand and a value is due. -/
structure Rests (r : Reader) : Prop where
  /-- It is in code. -/
  inCode : r.opening.isText = false
  /-- A value is due, as it is where a statement begins. -/
  due : r.due = .operand
  /-- A gap stands before the rest. -/
  spaced : r.spaced = true
  /-- No here document begins on the next line. -/
  pending : r.pending = []

variable {r : Reader} {d : Char} {l t u : Text} {ls : List Text} {p : Place}

theorem goTo_self (h : r.rest = t) (hp : r.place = p) : r.goTo t p = r := by
  subst h hp
  rfl

theorem reads_goTo_self {n : Nat} (h : r.rest = t) (hn : r.place.column = n) :
    Reads r (r.goTo t ⟨r.place.line, n⟩) := by
  subst h hn
  exact .refl

theorem Rests.goTo (h : r.Rests) (t : Text) (p : Place) : (r.goTo t p).Rests := ⟨h.inCode, h.due, h.spaced, h.pending⟩

theorem next_eq_goTo (hr : r.rest = d :: t) : r.next = r.goTo t (r.place.past d) := by
  rw [next, hr]
  rfl

/-- Passing over a part of a line changes nothing but the column. -/
theorem exists_skip_eq (hr : r.rest = l ++ t) (hn : '\n' ∉ l) :
    ∃ n, r.skip l.length = r.goTo t ⟨r.place.line, n⟩ := by
  induction l generalizing r with
  | nil => exact ⟨r.place.column, (goTo_self hr rfl).symm⟩
  | cons d l ih =>
    rw [List.mem_cons, not_or] at hn
    obtain ⟨n, he⟩ := ih (r := r.next) (by rw [rest_next, hr]; rfl) hn.2
    refine ⟨n, ?_⟩
    rw [List.length_cons, skip, he, next_eq_goTo hr, Place.past, if_neg (Ne.symm hn.1)]
    rfl

/-! ### A line -/

theorem openBody_of_pending (h : r.pending = []) : r.openBody = r := by rw [openBody, h]

theorem Rests.step_newline (h : r.Rests) (hr : r.rest = '\n' :: t) : step r = r.goTo t ⟨r.place.line + 1, 0⟩ := by
  have hspaced : { r.goTo t ⟨r.place.line + 1, 0⟩ with spaced := true } = r.goTo t ⟨r.place.line + 1, 0⟩ := by
    rw [← h.spaced]
    rfl
  rw [step_of_code h.inCode, codeStep_cons hr, if_pos rfl, lineEnd, if_pos h.due, next_eq_goTo hr, Place.past,
    if_pos rfl, hspaced, openBody_of_pending (h.goTo t ⟨r.place.line + 1, 0⟩).pending]

theorem Rests.step_gap (h : r.Rests) (hr : r.rest = d :: t) (hd : isGap d = true) :
    step r = r.goTo t ⟨r.place.line, r.place.column + d.utf8Size⟩ := by
  have hne : d ≠ '\n' := by
    rintro rfl
    cases hd
  rw [step_of_code h.inCode, codeStep_cons hr, if_neg hne, if_pos hd, next_eq_goTo hr, Place.past, if_neg hne,
    ← h.spaced]
  rfl

theorem Rests.exists_step_sign (h : r.Rests) (hr : r.rest = '#' :: (l ++ t)) (hn : '\n' ∉ l) (ht : Detached t) :
    ∃ n, step r = r.goTo t ⟨r.place.line, n⟩ := by
  have hn' : '\n' ∉ '#' :: l := fun hm => (List.mem_cons.1 hm).elim (by decide) hn
  have htake : r.rest.takeWhile (· != '\n') = '#' :: l := by
    have hl : ∀ c ∈ '#' :: l, (c != '\n') = true := fun c hc => by
      rw [bne_iff_ne]
      exact fun he => hn' (he ▸ hc)
    have ht : t.takeWhile (· != '\n') = [] := by
      rcases ht with rfl | ht
      · rfl
      · obtain ⟨u, rfl⟩ := List.head?_eq_some_iff.1 ht
        rfl
    rw [hr, ← List.cons_append, List.takeWhile_append_of_pos hl, ht, List.append_nil]
  obtain ⟨n, he⟩ := exists_skip_eq (r := r) (l := '#' :: l) hr hn'
  refine ⟨n, ?_⟩
  rw [step_of_code h.inCode, codeStep_cons hr, if_neg (by decide), if_neg (by decide), if_pos rfl, skipWhile, htake, he,
    ← h.spaced]
  rfl

theorem Rests.reads_newline (h : r.Rests) (hr : r.rest = '\n' :: t) : Reads r (r.goTo t ⟨r.place.line + 1, 0⟩) :=
  .single ⟨by rw [hr]; exact List.cons_ne_nil _ _, (h.step_newline hr).symm⟩

/-- A reader at rest comes to the end of a line that is blank or a comment. -/
theorem Rests.reads_line (h : r.Rests) (hr : r.rest = l ++ t) (hn : '\n' ∉ l) (hl : isNote l = true) (ht : Detached t) :
    ∃ n, Reads r (r.goTo t ⟨r.place.line, n⟩) := by
  induction l generalizing r with
  | nil => exact ⟨r.place.column, reads_goTo_self hr rfl⟩
  | cons d l ih =>
    have hne : r.rest ≠ [] := by
      rw [hr]
      exact List.cons_ne_nil _ _
    rw [List.mem_cons, not_or] at hn
    by_cases hd : isIndent d = true
    · have hgap : isGap d = true := by
        rcases Bool.or_eq_true_iff.1 hd with hd | hd <;> rw [eq_of_beq hd] <;> rfl
      have hl' : isNote l = true := by rwa [isNote, List.dropWhile_cons_of_pos hd] at hl
      obtain ⟨n, hread⟩ := ih (h.goTo (l ++ t) ⟨r.place.line, r.place.column + d.utf8Size⟩) rfl hn.2 hl'
      exact ⟨n, .head ⟨hne, (h.step_gap hr hgap).symm⟩ hread⟩
    · rw [isNote, List.dropWhile_cons_of_neg hd, List.head?_cons, Option.all_some, Bool.or_eq_true, beq_iff_eq,
        beq_iff_eq] at hl
      obtain rfl : d = '#' := hl.resolve_left fun he => hn.1 he.symm
      obtain ⟨n, he⟩ := h.exists_step_sign hr hn.2 ht
      exact ⟨n, .single ⟨hne, he.symm⟩⟩

/-- A reader at rest passes over lines that are blank or comments. -/
theorem Rests.reads_notes (h : r.Rests) (hr : r.rest = paragraph ls ++ t) (hc : r.place.column = 0) (hl : AreNotes ls) :
    Reads r (r.goTo t ⟨r.place.line + ls.length, 0⟩) := by
  induction ls generalizing r with
  | nil =>
    rw [List.length_nil, Nat.add_zero]
    exact reads_goTo_self hr hc
  | cons l ls ih =>
    obtain ⟨⟨hn, hnote⟩, hl⟩ := areNotes_cons.1 hl
    rw [paragraph_cons, List.append_assoc, List.cons_append] at hr
    obtain ⟨n, hline⟩ := h.reads_line hr hn hnote (.inr rfl)
    have hnext := (h.goTo ('\n' :: (paragraph ls ++ t)) ⟨r.place.line, n⟩).reads_newline rfl
    have hread := ih (h.goTo (paragraph ls ++ t) ⟨r.place.line + 1, 0⟩) rfl rfl hl
    rw [List.length_cons, Nat.add_comm ls.length, ← Nat.add_assoc]
    exact (hline.trans hnext).trans hread

/-- A line that ends where nothing is open leaves a reader at rest. -/
theorem exists_rests_newline (ho : r.opening = .source) (hp : r.pending = []) (hr : r.rest = '\n' :: t) :
    ∃ s, Reads r s ∧ s.Rests ∧ s.rest = t ∧ s.place.column = 0 ∧ s.frames = r.frames ∧ s.degraded = r.degraded := by
  have hcode : r.opening.isText = false := by
    rw [ho]
    rfl
  have hhead : r.endLoopHead = r := by rw [endLoopHead, ho]
  refine ⟨step r, .single ⟨by rw [hr]; exact List.cons_ne_nil _ _, rfl⟩, ?_⟩
  rw [step_of_code hcode, codeStep_cons hr, if_pos rfl, lineEnd, hhead]
  by_cases hd : r.due = .operand
  · rw [if_pos hd, next_eq_goTo hr, Place.past, if_pos rfl, openBody_of_pending]
    · exact ⟨⟨hcode, hd, rfl, hp⟩, rfl, rfl, rfl, rfl⟩
    · exact hp
  · rw [if_neg hd, next_eq_goTo (r := r.endStatement) hr, Place.past, if_pos rfl, openBody_of_pending]
    · exact ⟨⟨hcode, rfl, rfl, hp⟩, rfl, rfl, rfl, rfl⟩
    · exact hp

end Reader
end Ruby
end Marginalia
