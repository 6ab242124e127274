/-
# What the reader decides by

The reader decides what to do by the characters at hand, by no more than two
in most cases. This module says so of the functions that match on them: each
is put as a choice between conditions on the first and the second character
that are left to be read, where the end of the text counts as a newline.

Key definition: `Ruby.Reader.shovel`.
Key theorems: `Ruby.Reader.quotedStep_cons`, `Ruby.Reader.heredocStep_cons`, `Ruby.Reader.word_eq`,
`Ruby.Reader.lessThan_eq`, `Ruby.Reader.colon_cons`.
-/
import Marginalia.Proofs.Ruby.Lookahead

namespace Marginalia
namespace Ruby
namespace Reader

variable {r : Reader} {d : Char} {t : Text}

theorem quotedStep_cons (hr : r.rest = d :: t) (q : Quote) (depth : Nat) : r.quotedStep q depth =
    if d = '\\' ∧ t ≠ [] then r.skip 2
    else if d = '#' ∧ ahead t = '\x7b' then
      if q.interpolates then
        { r.skip 2 with due := .operand, spaced := true, called := false }.push .code r.place
      else r.next
    else if d = q.close then
      match depth with
      | 0 => r.endQuote q.flagged
      | depth + 1 => r.next.setOpening (.quoted q depth)
    else if q.opener = some d then r.next.setOpening (.quoted q (depth + 1))
    else r.next := by
  unfold quotedStep
  split <;> rename_i hc <;> rw [hr] at hc <;> cases hc
  · rfl
  · rfl
  · next h₁ h₂ =>
    have hmark : ¬ (d = '\\' ∧ t ≠ []) := by cases t <;> simp_all
    have hcode : ¬ (d = '#' ∧ ahead t = '\x7b') := by cases t <;> simp_all
    exact ((if_neg hmark).trans (if_neg hcode)).symm

theorem heredocStep_cons (hr : r.rest = d :: t) (doc : Heredoc) : r.heredocStep doc =
    if r.place.column = 0 ∧ doc.endsAt r.rest then
      { ((r.skipWhile (· != '\n')).next.pop (r.skipWhile (· != '\n')).next.place) with
        due := .operand, spaced := true }.openBody
    else if doc.interpolates ∧ d = '\\' ∧ t ≠ [] then r.skip 2
    else if doc.interpolates ∧ d = '#' ∧ ahead t = '\x7b' then
        { r.skip 2 with due := .operand, spaced := true, called := false }.push .code r.place
    else r.next := by
  unfold heredocStep
  dsimp only
  congr 1
  split <;> rename_i hc
  · rw [hr] at hc
    cases hc
    simp
  · rw [hr] at hc
    cases hc
    simp
  · next h₁ h₂ => cases t <;> simp_all

theorem methodName_succ (r : Reader) (fuel : Nat) : r.methodName (fuel + 1) =
    match operatorNameAt? r.rest with
    | some op => r.skip op.length
    | none =>
      if isNameStart (ahead r.rest) then
        let s := r.skip (nameAt r.rest).length
        if ahead s.rest = '.' then s.next.methodName fuel
        else if ahead s.rest = ':' ∧ ahead s.rest.tail = ':' then (s.skip 2).methodName fuel
        else if ahead s.rest = '=' ∧ ['=', '~', '>', ' ', '\n'].contains (ahead s.rest.tail) = false then s.next
        else s
      else r := by
  rw [methodName]
  cases operatorNameAt? r.rest with
  | some op => rfl
  | none =>
    dsimp only
    generalize r.skip (nameAt r.rest).length = s
    split
    · next c t hr =>
      rw [hr, ahead_cons]
      congr 1
      split
      · next hs => simp [hs]
      · next hs => simp [hs]
      · next d t hs =>
        simp only [hs, ahead_cons, List.tail_cons]
        cases ['=', '~', '>', ' ', '\n'].contains d <;> simp
      · next h₁ h₂ h₃ =>
        rcases hs : s.rest with _ | ⟨c, _ | ⟨d, u⟩⟩ <;> simp_all
    · next hr =>
      rw [hr]
      rfl

theorem word_eq (r : Reader) : r.word =
    let name := nameAt r.rest
    let t := r.rest.drop name.length
    if ahead t = ':' ∧ ahead t.tail ≠ ':' then
      if r.called then r.plainName name
      else ((r.meet .other).skip (name.length + 1)).token .operand
    else word.nameOrKeyword r name := by
  unfold word
  dsimp only
  generalize r.rest.drop (nameAt r.rest).length = t
  split
  · simp
  · next t h =>
    have h' : ahead t ≠ ':' := by cases t <;> simp_all
    simp [h']
  · rcases t with _ | ⟨c, t⟩ <;> simp_all

theorem openBracket_eq (r : Reader) (o : Opening) : r.openBracket o =
    if r.opening = .method .named ∧ o = .paren then
      ((r.setOpening (.method .listed)).next.token .operand).push o r.place
    else if o = .brace then ((r.meet .other).next.token .operand).push o r.place
    else ((r.meet .bracket).next.token .operand).push o r.place := by
  unfold openBracket
  dsimp only
  split <;> simp_all

theorem equals_eq (r : Reader) : r.equals =
    if (r.opening = .method .named ∨ r.opening = .method .listed) ∧ ahead r.rest = '=' ∧ r.rest.tail ≠ [] then
      if ['=', '~', '>'].contains (ahead r.rest.tail) then r.operator 2 .other
      else (r.next.token .operand).pop r.place
    else r.operator 1 .other := by
  unfold equals
  split
  · simp_all
  · next phase d rest h₁ h₂ h₃ =>
    cases phase <;> simp_all [token]
  · next h₁ h₂ =>
    rcases hr : r.rest with _ | ⟨c, _ | ⟨d, t⟩⟩
    · simp
    · simp
    · split
      · next h =>
        rcases h with ⟨h | h, h', -⟩ <;> simp_all
      · rfl

/-- Reads `<<`, which announces a here document if a value may begin there. -/
def shovel (r : Reader) : Reader :=
  match heredoc? (r.rest.drop 2) with
  | some (doc, after) =>
    if r.opensArgument (r.rest.drop 2) then
      let r := ((r.meet .operand).skipTo after).token .operator
      { r with pending := r.pending ++ [doc] }
    else r.operator 2 .other
  | none => r.operator 2 .other

theorem lessThan_eq (r : Reader) : r.lessThan =
    if ahead r.rest = '<' ∧ ahead r.rest.tail = '<' then
      match r.opening with
      | .definition .klass .due _ _ => ((r.setOpening .body).skip 2).token .operand
      | _ => r.shovel
    else r.operator 1 .superclass := by
  unfold lessThan
  split
  · next rest hr =>
    have hlt : ahead r.rest = '<' ∧ ahead r.rest.tail = '<' := by simp [hr]
    obtain rfl : rest = r.rest.drop 2 := by simp [hr]
    exact (if_pos hlt).symm
  · next h =>
    have hne : ¬ (ahead r.rest = '<' ∧ ahead r.rest.tail = '<') := by
      rcases hr : r.rest with _ | ⟨c, _ | ⟨d, t⟩⟩ <;> simp_all
    rw [if_neg hne]

theorem colon_cons (hr : r.rest = ':' :: t) : r.colon =
    if ahead t = ':' then { ((r.meet .scope).skip 2).token .operand with called := !r.spaced }
    else if ahead t = '"' then r.openQuote (delimited '"' true false) (r.rest.drop 2)
    else if ahead t = '\x27' then r.openQuote (delimited '\x27' false false) (r.rest.drop 2)
    else if isNameStart (ahead t) then
      let s := (r.meet .operand).skip (1 + (nameAt t).length)
      { s.token .operator with names := s.names - 1 }
    else
      match operatorNameAt? t with
      | some op =>
        let s := (r.meet .operand).skip (1 + op.length)
        { s.token .operator with names := s.names - 1 }
      | none => r.operator 1 .other := by
  unfold colon
  split
  · next h =>
    rw [hr] at h
    cases h
    rfl
  · next h =>
    rw [hr] at h ⊢
    cases h
    rfl
  · next h =>
    rw [hr] at h ⊢
    cases h
    rfl
  · next u h₁ h₂ h₃ h₄ =>
    rw [hr] at h₄
    cases h₄
    rcases t with _ | ⟨d, t⟩
    · rfl
    · have hd : d ≠ ':' ∧ d ≠ '"' ∧ d ≠ '\x27' := by simp_all
      exact ((if_neg hd.1).trans ((if_neg hd.2.1).trans (if_neg hd.2.2))).symm
  · next h =>
    exact absurd hr (h t)

theorem question_cons (hr : r.rest = '?' :: t) : r.question =
    if r.due = .operand ∧ ahead t = '\\' ∧ t.tail ≠ [] then ((r.meet .operand).skip 3).token .operator
    else if r.due = .operand ∧ ¬ (Text.isBlank (ahead t) ∨ isNameChar (ahead t) ∧ isNameChar (ahead t.tail)) then
      ((r.meet .operand).skip 2).token .operator
    else r.operator 1 .other := by
  unfold question
  split
  · next hd h =>
    rw [hr] at h
    cases h
    simp [hd]
  · next c u h₁ hd h₂ =>
    rw [hr] at h₂
    cases h₂
    have hmark : ¬ (c = '\\' ∧ u ≠ []) := by cases u <;> simp_all
    simp only [hd, ahead_cons, List.tail_cons, true_and, if_neg hmark, any_head? (p := isNameChar) (by decide)]
    by_cases hc : Text.isBlank c ∨ isNameChar c ∧ isNameChar (ahead u)
    · rw [if_pos hc, if_neg (not_not.2 hc)]
    · rw [if_neg hc, if_pos hc]
  · next h₁ h₂ =>
    cases hd : r.due with
    | operand =>
      cases t with
      | nil => simp [show Text.isBlank '\n' = true by decide]
      | cons c t => exact absurd hr (h₂ c t hd)
    | _ => simp

theorem sigilled_eq (r : Reader) : r.sigilled =
    if ahead r.rest = '$' then
      if r.rest.tail ≠ [] then
        let n := if isNameStart (ahead r.rest.tail) then (r.rest.tail.takeWhile isNameChar).length else 1
        { ((r.meet .operand).skip (1 + n)).token .operator with names := r.names - 1 }
      else r.next.fault
    else
      let n := (r.rest.takeWhile (· == '@')).length
      let name := (r.rest.drop n).takeWhile isNameChar
      let s := ((r.meet .operand).skip (n + name.length)).token .operator
      if name = [] ∨ 2 < n then s.fault else s := by
  unfold sigilled
  split
  · next h => simp_all
  · next h => simp_all
  · next h₁ h₂ =>
    rcases hr : r.rest with _ | ⟨c, _ | ⟨d, t⟩⟩ <;> simp_all

theorem dots_eq (r : Reader) : r.dots =
    if ahead r.rest = '.' ∧ ahead r.rest.tail = '.' then
      ((r.meet .other).skipWhile (· == '.')).token .operand
    else { (r.meet .dot).next.token .operand with called := true } := by
  unfold dots
  split
  · next h => simp_all
  · rcases hr : r.rest with _ | ⟨c, _ | ⟨d, t⟩⟩ <;> simp_all

theorem number_eq (r : Reader) : r.number =
    let s := (r.meet .number).skipWhile fun c => c.isDigit || c == '_'
    if ahead s.rest = '.' ∧ (ahead s.rest.tail).isDigit then
      (s.next.skipWhile fun c => c.isDigit || c == '_').token .operator
    else s.token .operator := by
  have hline : Char.isDigit '\n' = false := by decide
  unfold number
  dsimp only
  generalize (r.meet .number).skipWhile _ = s
  split
  · simp_all
    split <;> rfl
  · rcases hr : s.rest with _ | ⟨c, _ | ⟨d, t⟩⟩ <;> simp_all

theorem codeStep_cons (hr : r.rest = d :: t) : r.codeStep =
    if d = '\n' then r.lineEnd
    else if isGap d then { r.next with spaced := true }
    else if d = '#' then { r.skipWhile (· != '\n') with spaced := true }
    else
      match afterBlockComment? r.rest with
      | some after => { r.skipTo after with spaced := true }
      | none =>
        if r.opensComment then (r.skip r.rest.length).fault
        else if r.endsSource then r.skip r.rest.length
        else if d = '\\' ∧ (t.head? = some '\n' ∨ t.take 2 = ['\x0d', '\n']) then
          { (r.skipWhile (· != '\n')).next with spaced := true }
        else if d.isDigit then r.number
        else if isNameStart d ∧ d ≠ '\ufeff' then r.word
        else
          match r.operatorName? with
          | some op => { (((r.meet .operand).skip op.length).token .either) with names := r.names - 1 }
          | none => r.sign d t := by
  unfold codeStep
  split <;> rename_i h <;> rw [hr] at h <;> cases h
  cases afterBlockComment? r.rest <;> cases r.operatorName? <;> rfl

end Reader
end Ruby
end Marginalia
