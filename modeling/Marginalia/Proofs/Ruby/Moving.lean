/-
# What steps are made of

A step of the reader tells many tokens apart, but it is made of few moves:
characters are passed over, tokens end, stretches are opened, closed and
dropped, and the name of a definition is followed. What is reached by such
moves (`Ruby.Reader.Reaches`) holds what every step comes to, and what is left when the source has ended.
So an invariant of reading is proved for the moves alone.

Key definitions: `Ruby.Reader.Reaches`.
Key theorems: `Ruby.reaches_step`, `Ruby.reaches_finish`, `Ruby.exists_reaches_outline`.
-/
import Marginalia.Proofs.Ruby.Cut

namespace Marginalia
namespace Ruby

open Text

namespace Reader

variable {s r : Reader} {part : NamePart} {name : Text}

/-- What is reached from `s` by the moves that steps are made of. -/
inductive Reaches (s : Reader) : Reader → Prop
  /-- No move is made. -/
  | refl : Reaches s s
  /-- Something is noted, with the text and the open stretches as they are. -/
  | note {r : Reader} (h : Reaches s r) (due : Due) (spaced called : Bool) (names : Nat) (listing : Bool)
    (pending : List Heredoc) (degraded : Bool) :
    Reaches s { r with due, spaced, called, names, listing, pending, degraded }
  /-- A character is passed over. -/
  | next {r : Reader} (h : Reaches s r) : Reaches s r.next
  /-- A token ends. -/
  | token {r : Reader} (h : Reaches s r) (d : Due) : Reaches s (r.token d)
  /-- The innermost stretch turns out to be another one, which is no definition. -/
  | setOpening {r : Reader} {o : Opening} (h : Reaches s r) (ho : o.isDefinition = false) : Reaches s (r.setOpening o)
  /-- A stretch is opened that is no definition. -/
  | push {r : Reader} {o : Opening} (h : Reaches s r) (ho : o.isDefinition = false) (p : Place) : Reaches s (r.push o p)
  /-- The innermost stretch is closed. -/
  | pop {r : Reader} (h : Reaches s r) (p : Place) : Reaches s (r.pop p)
  /-- The innermost stretch is dropped. -/
  | dissolve {r : Reader} (h : Reaches s r) : Reaches s r.dissolve
  /-- A definition is opened by its keyword. -/
  | define {r : Reader} {name : Text} (h : Reaches s r) (hn : name <+: r.rest) (h0 : name ≠ []) (kind : Declaration.Kind)
    (d : Due) : Reaches s (((r.skip name.length).token d).push (.definition kind .due [] none) r.place)
  /-- The name of a definition goes on or ends with a token that is no constant. -/
  | follow {r : Reader} {part : NamePart} (h : Reaches s r) (hp : ∀ c, part ≠ .constant c) : Reaches s (r.follow part)
  /-- A constant is read, with which the name may go on as well. -/
  | constant {r : Reader} {name : Text} (h : Reaches s r) (hc : isConstant name) (hn : name <+: r.rest) :
    Reaches s (r.plainName name)
  /-- The definition has no name, or none as yet. -/
  | unname {r : Reader} {kind : Declaration.Kind} {phase phase' : NamePhase} {written written' : Text}
    {name : Option DeclaredName} (h : Reaches s r) (ho : r.opening = .definition kind phase written name)
    (hp : phase' = .due ∨ phase' = .complete) : Reaches s (r.setOpening (.definition kind phase' written' none))

attribute [grind ←] Reaches.refl Reaches.note Reaches.next Reaches.token Reaches.setOpening Reaches.push Reaches.pop
  Reaches.dissolve Reaches.follow

theorem isPrefix_nameAt (t : Text) : nameAt t <+: t := by
  have hmark : ∀ t : Text, nameMark t <+: t := by
    intro t
    unfold nameMark
    (repeat' split) <;> simp
  have ht := List.takeWhile_append_dropWhile (p := isNameChar) (l := t)
  conv => rhs; rw [← ht]
  exact List.prefix_append_right_inj _ |>.2 (hmark _)

@[simp] theorem frames_next (r : Reader) : r.next.frames = r.frames := by
  unfold next
  split <;> rfl

@[simp] theorem frames_skip : ∀ (n : Nat) (r : Reader), (r.skip n).frames = r.frames
  | 0, _ => rfl
  | n + 1, r => by rw [skip, frames_skip n, frames_next]

@[simp] theorem place_setOpening (r : Reader) (o : Opening) : (r.setOpening o).place = r.place := by
  unfold setOpening
  split <;> rfl

@[simp] theorem place_dissolve (r : Reader) : r.dissolve.place = r.place := by
  unfold dissolve
  split <;> rfl

@[simp] theorem place_follow (r : Reader) (part : NamePart) : (r.follow part).place = r.place := by
  unfold follow fault
  (repeat' split) <;> simp

@[simp] theorem place_endHead (r : Reader) : r.endHead.place = r.place := by
  unfold endHead
  split <;> simp

@[simp] theorem place_meet (r : Reader) (part : NamePart) : (r.meet part).place = r.place := by simp [meet]

@[grind ←] theorem reaches_skip : ∀ (n : Nat) {r : Reader}, Reaches s r → Reaches s (r.skip n)
  | 0, _, h => h
  | n + 1, _, h => reaches_skip n h.next

section

variable (h : Reaches s r)

include h

@[grind ←] theorem reaches_fault : Reaches s r.fault := h.note _ _ _ _ _ _ _

@[grind ←] theorem reaches_skipWhile (p : Char → Bool) : Reaches s (r.skipWhile p) := reaches_skip _ h

@[grind ←] theorem reaches_skipTo (rest : Text) : Reaches s (r.skipTo rest) := reaches_skip _ h

@[grind ←] theorem reaches_endHead : Reaches s r.endHead := by
  unfold endHead
  split <;> grind [Opening.isDefinition]

theorem reaches_meet (hp : ∀ c, part ≠ .constant c) : Reaches s (r.meet part) := reaches_endHead (h.follow hp)

theorem reaches_plainName (hn : name <+: r.rest) : Reaches s (r.plainName name) := by
  by_cases hc : isConstant name
  · exact h.constant hc hn
  · have hmeet : Reaches s (r.meet .operand) := reaches_meet h (by simp)
    rw [plainName, if_neg hc]
    grind

@[grind ←] theorem reaches_meet_other : Reaches s (r.meet .other) := reaches_meet h (by simp)

@[grind ←] theorem reaches_meet_operand : Reaches s (r.meet .operand) := reaches_meet h (by simp)

@[grind ←] theorem reaches_endLoopHead : Reaches s r.endLoopHead := by
  unfold endLoopHead
  split
  · exact h.setOpening rfl
  · exact h

@[grind ←] theorem reaches_endStatement : Reaches s r.endStatement := h.note _ _ _ _ _ _ _

@[grind ←] theorem reaches_openBody : Reaches s r.openBody := by
  unfold openBody
  split <;> grind [Opening.isDefinition]

@[grind ←] theorem reaches_lineEnd : Reaches s r.lineEnd := by
  unfold lineEnd
  grind

@[grind ←] theorem reaches_endQuote (flagged : Bool) : Reaches s (r.endQuote flagged) := by
  unfold endQuote
  grind

@[grind ←] theorem reaches_quotedStep (q : Quote) (depth : Nat) : Reaches s (r.quotedStep q depth) := by
  unfold quotedStep
  (repeat' split) <;> grind [Opening.isDefinition]

@[grind ←] theorem reaches_heredocStep (doc : Heredoc) : Reaches s (r.heredocStep doc) := by
  unfold heredocStep
  (repeat' split) <;> grind [Opening.isDefinition]

@[grind ←] theorem reaches_openQuote (q : Quote) (rest : Text) : Reaches s (r.openQuote q rest) := by
  unfold openQuote
  grind [Opening.isDefinition]

@[grind ←] theorem reaches_openWith {o : Opening} (ho : o.isDefinition = false) (name : Text) :
    Reaches s (r.openWith name o) := by
  unfold openWith
  grind [reaches_meet]

theorem reaches_openWith_definition (hn : name <+: r.rest) (h0 : name ≠ []) (kind : Declaration.Kind) :
    Reaches s (r.openWith name (.definition kind .due [] none)) := by
  have hmeet : Reaches s (r.meet .other) := reaches_meet h (by simp)
  have hopen := hmeet.define (by rwa [rest_meet]) h0 kind .operand
  rwa [place_meet] at hopen

@[grind ←] theorem reaches_refuseSuperclass : Reaches s r.refuseSuperclass := by
  unfold refuseSuperclass
  split
  · next ho => exact reaches_fault (h.unname ho (.inr rfl))
  · exact h

@[grind ←] theorem reaches_closeWithEnd (name : Text) : Reaches s (r.closeWithEnd name) := by
  unfold closeWithEnd
  grind

end

@[grind ←] theorem reaches_methodName : ∀ (fuel : Nat) {r : Reader}, Reaches s r → Reaches s (r.methodName fuel)
  | 0, _, h => h
  | fuel + 1, r, h => by
    have ih {r : Reader} (h : Reaches s r) : Reaches s (r.methodName fuel) := reaches_methodName fuel h
    unfold methodName
    grind

section

variable (h : Reaches s r)

include h

theorem reaches_keyword (hn : name <+: r.rest) (h0 : name ≠ []) (k : Keyword) : Reaches s (r.keyword name k) := by
  have hopen := reaches_openWith_definition h hn h0
  unfold keyword
  (repeat' split) <;> grind [Opening.isDefinition]

theorem reaches_named (hn : name <+: r.rest) : Reaches s (r.named name) := by
  unfold named
  split
  · next k hk =>
    have h0 : name ≠ [] := by
      rintro rfl
      cases hk
    exact reaches_keyword h hn h0 k
  · exact reaches_plainName h hn

theorem reaches_nameOrKeyword (hn : name <+: r.rest) : Reaches s (word.nameOrKeyword r name) := by
  unfold word.nameOrKeyword
  split
  · exact reaches_plainName h hn
  · split
    · split
      · next n ho _ =>
        have hopening : (r.skip n).opening = r.opening := by rw [opening, frames_skip, opening]
        exact reaches_fault ((reaches_skip n h).unname (hopening.trans ho) (.inl rfl))
      · exact reaches_named (reaches_fault h.dissolve) (by simpa using hn)
    · exact reaches_named h hn

@[grind ←] theorem reaches_word : Reaches s r.word := by
  have hn := isPrefix_nameAt r.rest
  have hword := reaches_nameOrKeyword h hn
  have hplain := reaches_plainName h hn
  unfold word
  grind

@[grind ←] theorem reaches_operator (n : Nat) (hp : ∀ c, part ≠ .constant c) : Reaches s (r.operator n part) :=
  (reaches_skip n (reaches_meet h hp)).token _

@[grind ←] theorem reaches_openBracket {o : Opening} (ho : o.isDefinition = false) : Reaches s (r.openBracket o) := by
  have hbracket : Reaches s (r.meet .bracket) := reaches_meet h (by simp)
  unfold openBracket
  (repeat' split) <;> grind [Opening.isDefinition]

@[grind ←] theorem reaches_closeBracket (o : Opening) : Reaches s (r.closeBracket o) := by
  unfold closeBracket
  grind

@[grind ←] theorem reaches_closeBrace : Reaches s r.closeBrace := by
  unfold closeBrace
  grind

@[grind ←] theorem reaches_equals : Reaches s r.equals := by
  unfold equals
  (repeat' split) <;> grind

@[grind ←] theorem reaches_lessThan : Reaches s r.lessThan := by
  unfold lessThan
  (repeat' split) <;> grind [Opening.isDefinition]

@[grind ←] theorem reaches_colon : Reaches s r.colon := by
  have hscope : Reaches s (r.meet .scope) := reaches_meet h (by simp)
  unfold colon
  (repeat' split) <;> grind

@[grind ←] theorem reaches_question : Reaches s r.question := by
  unfold question
  (repeat' split) <;> grind

@[grind ←] theorem reaches_sigilled : Reaches s r.sigilled := by
  unfold sigilled
  (repeat' split) <;> grind

@[grind ←] theorem reaches_number : Reaches s r.number := by
  have hnumber : Reaches s (r.meet .number) := reaches_meet h (by simp)
  unfold number
  grind

@[grind ←] theorem reaches_dots : Reaches s r.dots := by
  have hdot : Reaches s (r.meet .dot) := reaches_meet h (by simp)
  unfold dots
  split <;> grind

@[grind ←] theorem reaches_sign (c : Char) (rest : Text) : Reaches s (r.sign c rest) := by
  have hended : Reaches s (r.meet .other).endLoopHead := reaches_endLoopHead (reaches_meet_other h)
  unfold sign
  (repeat' split) <;> grind [Opening.isDefinition]

@[grind ←] theorem reaches_codeStep : Reaches s r.codeStep := by
  unfold codeStep
  (repeat' split) <;> grind

end

end Reader

open Reader

variable {s r : Reader}

/-- **Steps are made of moves.** -/
theorem reaches_step (h : Reaches s r) : Reaches s (step r) := by
  unfold step
  split <;> grind

theorem reaches_readAll : ∀ (fuel : Nat) {r : Reader}, Reaches s r → Reaches s (readAll fuel r)
  | 0, _, h => h
  | fuel + 1, r, h => by
    rw [readAll]
    split
    · exact h
    · exact reaches_readAll fuel (reaches_step h)

theorem reaches_finish (h : Reaches s r) : Reaches s (finish r) := by
  have hdissolve (ns : List Nat) : ∀ {r : Reader}, Reaches s r → Reaches s (ns.foldl (fun r _ => r.dissolve) r) := by
    induction ns with
    | nil => exact id
    | cons n ns ih => exact fun h => ih h.dissolve
  unfold finish
  grind

/-- The outline of a source is that of the outermost stretch of a reader which is reached from its start. -/
theorem exists_reaches_outline (t : Text) : ∃ r, Reaches (.start t) r ∧
    (outline t).1 = (r.frames.getLast?.map (·.outline r.place)).getD (.group ⟨1, 0⟩ r.place []) := by
  refine ⟨finish (readAll (2 * t.length + 1) (.start t)), reaches_finish (reaches_readAll _ .refl), ?_⟩
  rw [outline]
  cases (finish (readAll (2 * t.length + 1) (.start t))).frames.getLast? <;> rfl

end Ruby
end Marginalia
