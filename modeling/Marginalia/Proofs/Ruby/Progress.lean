/-
# What a step of reading takes

Each step of the reader takes at least one character as long as there is one
and no fault is met (`Ruby.advances_step`), and none forgets a fault. So a
source that is read without a fault is read to its end, however many more steps
are allowed (`Ruby.readAll_eq`).

Key definitions: `Ruby.Reader.Advances`, `Ruby.Reads`.
Key theorems: `Ruby.advances_step`, `Ruby.degraded_step`, `Ruby.readAll_eq`.
-/
import Mathlib.Logic.Relation
import Marginalia.Ruby.Reader

namespace Marginalia
namespace Ruby
namespace Reader

variable {r s : Reader} {n : Nat}

theorem drop_length_takeWhile (p : Char → Bool) (t : Text) : t.drop (t.takeWhile p).length = t.dropWhile p := by
  have h : (t.takeWhile p ++ t.dropWhile p).drop (t.takeWhile p).length = t.dropWhile p := List.drop_left
  rwa [List.takeWhile_append_dropWhile] at h

/-! ### What is left of the text, and the faults -/

@[simp] theorem rest_next (r : Reader) : r.next.rest = r.rest.tail := by
  unfold next
  split <;> simp_all

@[simp] theorem degraded_next (r : Reader) : r.next.degraded = r.degraded := by
  unfold next
  split <;> rfl

@[simp] theorem rest_skip : ∀ (n : Nat) (r : Reader), (r.skip n).rest = r.rest.drop n
  | 0, _ => rfl
  | n + 1, r => by rw [skip, rest_skip n, rest_next, List.drop_tail]

@[simp] theorem degraded_skip : ∀ (n : Nat) (r : Reader), (r.skip n).degraded = r.degraded
  | 0, _ => rfl
  | n + 1, r => by rw [skip, degraded_skip n, degraded_next]

@[simp] theorem rest_skipWhile (r : Reader) (p : Char → Bool) : (r.skipWhile p).rest = r.rest.dropWhile p := by
  rw [skipWhile, rest_skip, drop_length_takeWhile]

@[simp] theorem degraded_skipWhile (r : Reader) (p : Char → Bool) : (r.skipWhile p).degraded = r.degraded :=
  degraded_skip _ r

@[simp] theorem degraded_skipTo (r : Reader) (rest : Text) : (r.skipTo rest).degraded = r.degraded :=
  degraded_skip _ r

@[simp] theorem rest_setOpening (r : Reader) (o : Opening) : (r.setOpening o).rest = r.rest := by
  unfold setOpening
  split <;> rfl

@[simp] theorem degraded_setOpening (r : Reader) (o : Opening) : (r.setOpening o).degraded = r.degraded := by
  unfold setOpening
  split <;> rfl

@[simp] theorem rest_push (r : Reader) (o : Opening) (p : Place) : (r.push o p).rest = r.rest := rfl

@[simp] theorem degraded_push (r : Reader) (o : Opening) (p : Place) : (r.push o p).degraded = r.degraded := rfl

@[simp] theorem rest_pop (r : Reader) (p : Place) : (r.pop p).rest = r.rest := by
  unfold pop
  split <;> rfl

@[simp] theorem degraded_pop (r : Reader) (p : Place) : (r.pop p).degraded = r.degraded := by
  unfold pop
  split <;> rfl

@[simp] theorem rest_dissolve (r : Reader) : r.dissolve.rest = r.rest := by
  unfold dissolve
  split <;> rfl

@[simp] theorem degraded_dissolve (r : Reader) : r.dissolve.degraded = r.degraded := by
  unfold dissolve
  split <;> rfl

@[simp] theorem rest_token (r : Reader) (d : Due) : (r.token d).rest = r.rest := rfl

@[simp] theorem degraded_token (r : Reader) (d : Due) : (r.token d).degraded = r.degraded := rfl

@[simp] theorem rest_fault (r : Reader) : r.fault.rest = r.rest := rfl

@[simp] theorem degraded_fault (r : Reader) : r.fault.degraded = true := rfl

@[simp] theorem rest_follow (r : Reader) (p : NamePart) : (r.follow p).rest = r.rest := by
  unfold follow
  split <;> (repeat' split) <;> simp

@[simp] theorem rest_endHead (r : Reader) : r.endHead.rest = r.rest := by
  unfold endHead
  split <;> simp

@[simp] theorem degraded_endHead (r : Reader) : r.endHead.degraded = r.degraded := by
  unfold endHead
  split <;> simp

@[simp] theorem rest_meet (r : Reader) (p : NamePart) : (r.meet p).rest = r.rest := by
  rw [meet, rest_endHead, rest_follow]

/-! ### No fault is forgotten -/

section

variable (h : r.degraded = true)

include h

@[simp] theorem degraded_follow (p : NamePart) : (r.follow p).degraded = true := by
  unfold follow
  split <;> (repeat' split) <;> simp [h]

@[simp] theorem degraded_meet (p : NamePart) : (r.meet p).degraded = true := by
  rw [meet, degraded_endHead, degraded_follow h]

@[simp] theorem degraded_endLoopHead : r.endLoopHead.degraded = true := by
  unfold endLoopHead
  split <;> simp [h]

@[simp] theorem degraded_openBody : r.openBody.degraded = true := by
  unfold openBody
  split <;> simp [h]

@[simp] theorem degraded_lineEnd : r.lineEnd.degraded = true := by
  unfold lineEnd
  refine degraded_openBody ?_
  split <;> simp [h, endStatement]

@[simp] theorem degraded_endQuote (flagged : Bool) : (r.endQuote flagged).degraded = true := by
  unfold endQuote
  split <;> simp [h]

@[simp] theorem degraded_quotedStep (q : Quote) (depth : Nat) : (r.quotedStep q depth).degraded = true := by
  unfold quotedStep
  (repeat' split) <;> simp [h]

@[simp] theorem degraded_heredocStep (doc : Heredoc) : (r.heredocStep doc).degraded = true := by
  unfold heredocStep
  (repeat' split) <;> simp [h]

@[simp] theorem degraded_openQuote (q : Quote) (rest : Text) : (r.openQuote q rest).degraded = true := by
  simp [openQuote, h]

@[simp] theorem degraded_plainName (name : Text) : (r.plainName name).degraded = true := by
  simp [plainName, h]

@[simp] theorem degraded_openWith (name : Text) (o : Opening) : (r.openWith name o).degraded = true := by
  simp [openWith, h]

@[simp] theorem degraded_refuseSuperclass : r.refuseSuperclass.degraded = true := by
  unfold refuseSuperclass
  split <;> simp [h]

@[simp] theorem degraded_closeWithEnd (name : Text) : (r.closeWithEnd name).degraded = true := by
  unfold closeWithEnd
  dsimp only
  (repeat' split) <;> simp [h]

end

@[simp] theorem degraded_methodName : ∀ (fuel : Nat) {r : Reader}, r.degraded = true →
    (r.methodName fuel).degraded = true
  | 0, _, h => h
  | fuel + 1, r, h => by
    unfold methodName
    dsimp only
    (repeat' split) <;> simp [h, degraded_methodName fuel]

section

variable (h : r.degraded = true)

include h

@[simp] theorem degraded_keyword (name : Text) (k : Keyword) : (r.keyword name k).degraded = true := by
  unfold keyword
  dsimp only
  (repeat' split) <;> simp [h]

@[simp] theorem degraded_named (name : Text) : (r.named name).degraded = true := by
  unfold named
  split <;> simp [h]

@[simp] theorem degraded_nameOrKeyword (name : Text) : (word.nameOrKeyword r name).degraded = true := by
  unfold word.nameOrKeyword
  split
  · exact degraded_plainName h name
  · split
    · split
      · rfl
      · exact degraded_named rfl name
    · exact degraded_named h name

@[simp] theorem degraded_word : r.word.degraded = true := by
  unfold word
  dsimp only
  (repeat' split) <;> simp [h]

@[simp] theorem degraded_operator (n : Nat) (p : NamePart) : (r.operator n p).degraded = true := by
  simp [operator, h]

@[simp] theorem degraded_openBracket (o : Opening) : (r.openBracket o).degraded = true := by
  unfold openBracket
  split <;> simp [h]

@[simp] theorem degraded_closeBracket (o : Opening) : (r.closeBracket o).degraded = true := by
  unfold closeBracket
  split <;> simp [h]

@[simp] theorem degraded_closeBrace : r.closeBrace.degraded = true := by
  unfold closeBrace
  split <;> simp [h]

@[simp] theorem degraded_equals : r.equals.degraded = true := by
  unfold equals
  (repeat' split) <;> simp [h]

@[simp] theorem degraded_lessThan : r.lessThan.degraded = true := by
  unfold lessThan
  (repeat' split) <;> simp [h]

@[simp] theorem degraded_colon : r.colon.degraded = true := by
  unfold colon
  (repeat' split) <;> simp [h]

@[simp] theorem degraded_question : r.question.degraded = true := by
  unfold question
  (repeat' split) <;> simp [h]

@[simp] theorem degraded_sigilled : r.sigilled.degraded = true := by
  unfold sigilled
  dsimp only
  (repeat' split) <;> simp [h]

@[simp] theorem degraded_number : r.number.degraded = true := by
  unfold number
  dsimp only
  (repeat' split) <;> simp [h]

@[simp] theorem degraded_dots : r.dots.degraded = true := by
  unfold dots
  split <;> simp [h]

@[simp] theorem degraded_sign (c : Char) (rest : Text) : (r.sign c rest).degraded = true := by
  unfold sign
  dsimp only
  (repeat' split) <;> simp [h, endStatement]

@[simp] theorem degraded_codeStep : r.codeStep.degraded = true := by
  unfold codeStep
  (repeat' split) <;> simp [h]

end

/-! ### Characters are taken -/

@[simp] theorem rest_endLoopHead (r : Reader) : r.endLoopHead.rest = r.rest := by
  unfold endLoopHead
  split <;> simp

@[simp] theorem rest_openBody (r : Reader) : r.openBody.rest = r.rest := by
  unfold openBody
  split <;> rfl

@[simp] theorem rest_lineEnd (r : Reader) : r.lineEnd.rest = r.rest.tail := by
  unfold lineEnd
  split <;> simp [endStatement]

@[simp] theorem rest_plainName (r : Reader) (name : Text) : (r.plainName name).rest = r.rest.drop name.length := by
  simp [plainName]

@[simp] theorem rest_openWith (r : Reader) (name : Text) (o : Opening) :
    (r.openWith name o).rest = r.rest.drop name.length := by
  simp [openWith]

@[simp] theorem rest_refuseSuperclass (r : Reader) : r.refuseSuperclass.rest = r.rest := by
  unfold refuseSuperclass
  split <;> simp

@[simp] theorem rest_closeWithEnd (r : Reader) (name : Text) :
    (r.closeWithEnd name).rest = r.rest.drop name.length := by
  unfold closeWithEnd
  dsimp only
  (repeat' split) <;> simp

@[simp] theorem rest_operator (r : Reader) (n : Nat) (p : NamePart) : (r.operator n p).rest = r.rest.drop n := by
  simp [operator]

@[simp] theorem rest_openBracket (r : Reader) (o : Opening) : (r.openBracket o).rest = r.rest.tail := by
  unfold openBracket
  split <;> simp

@[simp] theorem rest_closeBracket (r : Reader) (o : Opening) : (r.closeBracket o).rest = r.rest.tail := by
  unfold closeBracket
  split <;> simp

@[simp] theorem rest_closeBrace (r : Reader) : r.closeBrace.rest = r.rest.tail := by
  unfold closeBrace
  split <;> simp

@[simp] theorem rest_openQuote (r : Reader) (q : Quote) (rest : Text) :
    (r.openQuote q rest).rest = r.rest.drop (r.rest.length - rest.length) := by
  simp [openQuote, skipTo]

theorem length_dropWhile_le (p : Char → Bool) (t : Text) : (t.dropWhile p).length ≤ t.length :=
  (List.dropWhile_suffix p).length_le

theorem length_endQuote_le (r : Reader) (flagged : Bool) : (r.endQuote flagged).rest.length ≤ r.rest.tail.length := by
  unfold endQuote
  split
  · simpa using length_dropWhile_le _ r.rest.tail
  · simp

theorem length_methodName_le : ∀ (fuel : Nat) (r : Reader), (r.methodName fuel).rest.length ≤ r.rest.length
  | 0, _ => Nat.le_refl _
  | fuel + 1, r => by
    unfold methodName
    dsimp only
    (repeat' split) <;> try simp
    · exact Nat.le_trans (length_methodName_le fuel _) (by simp)
    · exact Nat.le_trans (length_methodName_le fuel _) (by simp)

theorem length_keyword_le (r : Reader) (name : Text) (k : Keyword) :
    (r.keyword name k).rest.length ≤ (r.rest.drop name.length).length := by
  unfold keyword
  dsimp only
  (repeat' split) <;> try simp
  exact Nat.le_trans (length_methodName_le _ _) (by simpa using length_dropWhile_le isGap (r.rest.drop name.length))

theorem length_named_le (r : Reader) (name : Text) :
    (r.named name).rest.length ≤ (r.rest.drop name.length).length := by
  unfold named
  split
  · exact length_keyword_le r name _
  · simp

/-- There is less to be read, unless a fault was met. -/
def Advances (r s : Reader) : Prop := s.degraded = false → s.rest.length < r.rest.length

theorem Advances.of_lt (h : s.rest.length < r.rest.length) : Advances r s := fun _ => h

theorem Advances.of_degraded (h : s.degraded = true) : Advances r s := fun hd => by rw [h] at hd; cases hd

theorem nameAt_ne_nil {c : Char} {t : Text} (h : isNameStart c) : nameAt (c :: t) ≠ [] := by
  simp [nameAt, isNameChar, h]

theorem advances_word {c : Char} {t : Text} (hr : r.rest = c :: t) (hc : isNameStart c) : Advances r r.word := by
  have hpos : 0 < (nameAt r.rest).length := List.length_pos_iff.2 (hr ▸ nameAt_ne_nil hc)
  have hlen : (r.rest.drop (nameAt r.rest).length).length < r.rest.length := by
    have h0 : 0 < r.rest.length := by simp [hr]
    rw [List.length_drop]
    omega
  have hplain : Advances r (r.plainName (nameAt r.rest)) := .of_lt (by rwa [rest_plainName])
  have hword : Advances r (word.nameOrKeyword r (nameAt r.rest)) := by
    unfold word.nameOrKeyword
    split
    · exact hplain
    · split
      · split
        · exact .of_degraded rfl
        · exact .of_degraded (degraded_named rfl _)
      · exact .of_lt (Nat.lt_of_le_of_lt (length_named_le r _) hlen)
  unfold word
  dsimp only
  split
  · exact hword
  · split
    · exact hplain
    · refine .of_lt ?_
      simp at hlen ⊢
      omega
  · exact hword

theorem length_openQuote_lt {q : Quote} {t : Text} (h : t.length < r.rest.length) :
    (r.openQuote q t).rest.length < r.rest.length := by
  simp
  omega

theorem length_heredocWord?_le {t after : Text} {doc : Heredoc} {indented : Bool}
    (h : heredocWord? indented t = some (doc, after)) : after.length ≤ t.length := by
  unfold heredocWord? at h
  dsimp only at h
  split at h
  · next q rest =>
    split at h
    · split at h
      · next hr =>
        split at h <;> cases h
        have hle := congrArg List.length hr
        simp at hle ⊢
        omega
      · cases h
    · split at h <;> cases h
      exact length_dropWhile_le _ _
  · cases h

theorem length_heredoc?_le {t after : Text} {doc : Heredoc} (h : heredoc? t = some (doc, after)) :
    after.length ≤ t.length := by
  unfold heredoc? at h
  split at h
  · exact Nat.le_succ_of_le (length_heredocWord?_le h)
  · exact Nat.le_succ_of_le (length_heredocWord?_le h)
  · exact length_heredocWord?_le h

theorem length_delimiter?_le {t after : Text} {q : Quote} {interpolates flagged : Bool}
    (h : delimiter? interpolates flagged t = some (q, after)) : after.length ≤ t.length := by
  unfold delimiter? at h
  (repeat' split at h) <;> cases h
  simp

theorem length_percentQuote?_le {t after : Text} {q : Quote} (h : percentQuote? t = some (q, after)) :
    after.length ≤ t.length := by
  unfold percentQuote? at h
  split at h
  · split at h
    · exact Nat.le_succ_of_le (length_delimiter?_le h)
    · split at h
      · exact Nat.le_succ_of_le (length_delimiter?_le h)
      · exact length_delimiter?_le h
  · cases h

section

variable {c : Char} {t : Text} (hr : r.rest = c :: t)

include hr

theorem length_equals_lt : r.equals.rest.length < r.rest.length := by
  unfold equals
  (repeat' split) <;> (simp [hr]; try omega)

theorem length_lessThan_lt : r.lessThan.rest.length < r.rest.length := by
  unfold lessThan
  dsimp only
  split
  · next rest hr' =>
    split
    · simp only [rest_token, rest_skip, rest_setOpening, hr', List.length_drop, List.length_cons]
      omega
    · split
      · next hd =>
        have hle := length_heredoc?_le hd
        split <;> simp only [skipTo, rest_token, rest_skip, rest_meet, rest_operator, hr', List.length_drop,
          List.length_cons] <;> omega
      · simp only [rest_operator, hr', List.length_drop, List.length_cons]
        omega
  · simp [hr]

theorem length_colon_lt : r.colon.rest.length < r.rest.length := by
  have h0 : 0 < r.rest.length := by simp [hr]
  unfold colon
  dsimp only
  split
  · simp only [rest_token, rest_skip, rest_meet, List.length_drop]
    omega
  · next hr' => exact length_openQuote_lt (by simp only [hr', List.length_cons]; omega)
  · next hr' => exact length_openQuote_lt (by simp only [hr', List.length_cons]; omega)
  · (repeat' split) <;> simp only [rest_token, rest_skip, rest_meet, rest_operator, List.length_drop] <;> omega
  · simp only [rest_next, List.length_tail]
    omega

theorem length_question_lt : r.question.rest.length < r.rest.length := by
  unfold question
  (repeat' split) <;> simp only [rest_token, rest_skip, rest_meet, rest_operator, List.length_drop, hr,
    List.length_cons] <;> omega

theorem length_dots_lt : r.dots.rest.length < r.rest.length := by
  unfold dots
  split
  · next rest hr' =>
    have hle := length_dropWhile_le (· == '.') rest
    simp [hr'] at hle ⊢
    omega
  · simp [hr]

theorem length_number_lt (hc : c.isDigit) : r.number.rest.length < r.rest.length := by
  have hle : ((r.meet .number).skipWhile fun c => c.isDigit || c == '_').rest.length < r.rest.length := by
    have hle := length_dropWhile_le (fun c => c.isDigit || c == '_') t
    simp [hr, hc]
    omega
  unfold number
  dsimp only
  (repeat' split)
  · refine Nat.lt_of_le_of_lt ?_ hle
    have hle := length_dropWhile_le (fun c => c.isDigit || c == '_')
      ((r.meet .number).skipWhile fun c => c.isDigit || c == '_').rest.tail
    simp at hle ⊢
    omega
  · exact hle
  · exact hle

end

theorem length_sigilled_lt {t : Text} (h : r.rest = '@' :: t ∨ r.rest = '$' :: t) :
    r.sigilled.rest.length < r.rest.length := by
  unfold sigilled
  dsimp only
  split
  · next hr =>
    simp only [rest_token, rest_skip, rest_meet, hr, List.length_drop, List.length_cons]
    omega
  · next hr => simp [hr]
  · next h₁ h₂ =>
    obtain hr : r.rest = '@' :: t := h.resolve_right fun hr => by
      cases t with
      | nil => exact h₂ hr
      | cons c t => exact h₁ _ _ hr
    split <;> simp only [rest_fault, rest_token, rest_skip, rest_meet, List.length_drop, hr, List.length_cons,
      List.takeWhile_cons, beq_self_eq_true, if_true] <;> omega

theorem length_sign_lt {c : Char} {t : Text} (hr : r.rest = c :: t) : (r.sign c t).rest.length < r.rest.length := by
  have hlen : r.rest.length = t.length + 1 := by simp [hr]
  have htail : r.rest.tail.length < r.rest.length := by simp [hr]
  have hquote (q : Quote) : (r.openQuote q t).rest.length < r.rest.length := length_openQuote_lt (by omega)
  have hoperator (n : Nat) (p : NamePart) (hn : 0 < n) : (r.operator n p).rest.length < r.rest.length := by
    rw [rest_operator, List.length_drop]
    omega
  unfold sign
  dsimp only
  split
  case h_2 | h_3 | h_4 => exact hquote _
  case h_5 => exact length_sigilled_lt (.inl hr)
  case h_6 => exact length_sigilled_lt (.inr hr)
  case h_15 => exact length_dots_lt hr
  case h_17 => exact length_colon_lt hr
  case h_18 => exact length_question_lt hr
  case h_19 => exact length_lessThan_lt hr
  case h_20 => exact length_equals_lt hr
  case h_14 => split <;> exact hoperator 1 _ Nat.one_pos
  case h_16 =>
    split
    · exact hoperator 2 _ Nat.two_pos
    · exact hoperator 1 _ Nat.one_pos
  case h_21 =>
    split
    · exact hquote _
    · exact hoperator 1 _ Nat.one_pos
  case h_22 =>
    split
    · next hq =>
      have hle := length_percentQuote?_le hq
      split
      · exact length_openQuote_lt (by omega)
      · exact hoperator 1 _ Nat.one_pos
    · exact hoperator 1 _ Nat.one_pos
  case h_23 =>
    split
    · simpa using htail
    · exact hoperator 1 _ Nat.one_pos
  all_goals simpa [endStatement] using htail

theorem length_afterEndMark?_lt {t after : Text} (h : afterEndMark? t = some after) : after.length < t.length := by
  fun_induction afterEndMark? t with
  | case1 rest =>
    cases h
    have hle := length_dropWhile_le (· != '\n') rest
    simp
    omega
  | case2 | case3 | case4 | case5 =>
    have hle := ‹_ → _› h
    simp
    omega
  | case6 => cases h

theorem length_afterBlockComment?_lt {t after : Text} (h : afterBlockComment? t = some after) :
    after.length < t.length := by
  unfold afterBlockComment? at h
  split at h
  · next rest hb =>
    split at h
    · next hr =>
      have h₁ := length_afterEndMark?_lt h
      have h₂ := congrArg List.length (Text.after?_eq hb)
      have h₃ := length_dropWhile_le (· != '\n') rest
      simp [hr] at h₂ h₃
      omega
    · cases h
  · cases h

theorem length_operatorName?_pos {op : Text} (h : r.operatorName? = some op) : 0 < op.length := by
  have hnames : ∀ op ∈ operatorNames.map String.toList, 0 < op.length := by decide
  unfold operatorName? at h
  split at h
  · exact hnames op (List.mem_of_find?_eq_some h)
  · cases h

theorem advances_codeStep (hr : r.rest ≠ []) : Advances r r.codeStep := by
  unfold codeStep
  split
  · next hc => exact absurd hc hr
  · next c t hc =>
    have hlen : r.rest.length = t.length + 1 := by simp [hc]
    split
    · exact .of_lt (by simp [hc])
    split
    · exact .of_lt (by simp [hc])
    split
    · next hs =>
      subst hs
      have hle := length_dropWhile_le (· != '\n') t
      exact .of_lt (by simp [hc]; omega)
    split
    · next hb =>
      have hlt := length_afterBlockComment?_lt hb
      exact .of_lt (by simp [skipTo]; omega)
    split
    · exact .of_degraded rfl
    split
    · exact .of_lt (by simp [hc])
    split
    · next hs =>
      obtain ⟨rfl, -⟩ := hs
      have hle := length_dropWhile_le (· != '\n') t
      exact .of_lt (by simp [hc]; omega)
    split
    · next hd => exact .of_lt (length_number_lt hc hd)
    split
    · next hn => exact advances_word hc hn.1
    split
    · next op hop =>
      have hpos := length_operatorName?_pos hop
      exact .of_lt (by simp [hc]; omega)
    · exact .of_lt (length_sign_lt hc)

theorem length_quotedStep_lt (hr : r.rest ≠ []) (q : Quote) (depth : Nat) :
    (r.quotedStep q depth).rest.length < r.rest.length := by
  have hpos := List.length_pos_iff.2 hr
  have htail : r.rest.tail.length < r.rest.length := by
    rw [List.length_tail]
    omega
  have htwo : (r.rest.drop 2).length < r.rest.length := by
    rw [List.length_drop]
    omega
  unfold quotedStep
  split
  · next hc => exact absurd hc hr
  · simpa using htwo
  · split
    · simpa using htwo
    · simpa using htail
  · split
    · split
      · exact Nat.lt_of_le_of_lt (length_endQuote_le r _) htail
      · simpa using htail
    · split <;> simpa using htail

theorem length_heredocStep_lt (hr : r.rest ≠ []) (doc : Heredoc) :
    (r.heredocStep doc).rest.length < r.rest.length := by
  have hpos := List.length_pos_iff.2 hr
  have htail : r.rest.tail.length < r.rest.length := by
    rw [List.length_tail]
    omega
  have htwo : (r.rest.drop 2).length < r.rest.length := by
    rw [List.length_drop]
    omega
  unfold heredocStep
  dsimp only
  split
  · have hle := length_dropWhile_le (· != '\n') r.rest
    simp
    omega
  · split
    · split
      · simpa using htwo
      · simpa using htail
    · split
      · simpa using htwo
      · simpa using htail
    · simpa using htail

end Reader

variable {r s : Reader} {fuel : Nat}

/-- No step forgets a fault. -/
theorem degraded_step (h : r.degraded = true) : (step r).degraded = true := by
  unfold step
  split <;> simp [h]

/-- A step takes a character, unless it meets a fault. -/
theorem advances_step (hr : r.rest ≠ []) : r.Advances (step r) := by
  unfold step
  split
  · exact .of_lt (Reader.length_quotedStep_lt hr _ _)
  · exact .of_lt (Reader.length_heredocStep_lt hr _)
  · exact Reader.advances_codeStep hr

/-! ### Reading on -/

/-- Some steps of reading lead from one state to another. -/
def Reads : Reader → Reader → Prop := Relation.ReflTransGen fun r s => r.rest ≠ [] ∧ s = step r

/-- Whatever is read, no fault is forgotten. -/
theorem Reads.degraded_eq_false (h : Reads r s) (hs : s.degraded = false) : r.degraded = false := by
  induction h using Relation.ReflTransGen.head_induction_on with
  | refl => exact hs
  | @head r _ hstep _ ih =>
    obtain ⟨-, rfl⟩ := hstep
    cases hr : r.degraded with
    | false => rfl
    | true =>
      rw [degraded_step hr] at ih
      cases ih

theorem Reads.length_le (h : Reads r s) (hs : s.degraded = false) : s.rest.length ≤ r.rest.length := by
  induction h using Relation.ReflTransGen.head_induction_on with
  | refl => exact Nat.le_refl _
  | head hstep hrest ih =>
    obtain ⟨hr, rfl⟩ := hstep
    exact Nat.le_trans ih (Nat.le_of_lt (advances_step hr (Reads.degraded_eq_false hrest hs)))

/-- A reader comes to the end of a source, or meets a fault. -/
theorem reads_readAll : ∀ (fuel : Nat) {r : Reader}, Reads r (readAll fuel r)
  | 0, _ => .refl
  | fuel + 1, r => by
    rw [readAll]
    split
    · exact .refl
    · next hr => exact .head ⟨hr, rfl⟩ (reads_readAll fuel)

theorem rest_readAll : ∀ (fuel : Nat) {r : Reader}, r.rest.length ≤ fuel → (readAll fuel r).degraded = false →
    (readAll fuel r).rest = []
  | 0, _, h, _ => List.length_eq_zero_iff.1 (Nat.le_zero.1 h)
  | fuel + 1, r, h, hd => by
    rw [readAll] at hd ⊢
    split
    · next hr => exact hr
    · next hr =>
      rw [if_neg hr] at hd
      have hlt := advances_step hr ((reads_readAll fuel).degraded_eq_false hd)
      exact rest_readAll fuel (by omega) hd

/-- What is read to the end is what a reader of the whole source reads. -/
theorem readAll_eq : ∀ (fuel : Nat) {r : Reader}, r.rest.length ≤ fuel → Reads r s → s.rest = [] →
    s.degraded = false → readAll fuel r = s
  | fuel, r, h, hr, hs, hd => by
    induction hr using Relation.ReflTransGen.head_induction_on generalizing fuel with
    | refl =>
      cases fuel with
      | zero => rfl
      | succ fuel => rw [readAll, if_pos hs]
    | head hstep hrest ih =>
      obtain ⟨hne, rfl⟩ := hstep
      have hlt := advances_step hne (Reads.degraded_eq_false hrest hd)
      cases fuel with
      | zero => omega
      | succ fuel =>
        rw [readAll, if_neg hne]
        exact ih fuel (by omega)

end Ruby
end Marginalia
