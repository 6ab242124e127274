/-
# Steps of two readers

A step that crosses no cut keeps two readers alike (`Ruby.Like.step`). Beyond
the line at hand it looks at what is remembered (`Ruby.Reader.crosses`) and, for
the end of a block comment, at all that is left: so notes that hold an `=end`
have to be silent, or no `=begin` may wait for one (`Ruby.Reader.beginsLoosely`).
A last line that no newline ends has to end as sources do
(`Ruby.Reader.Rounded`).

Key definitions: `Ruby.Cut.Silent`, `Ruby.Reader.beginsLoosely`, `Ruby.Reader.Rounded`.
Key theorems: `Ruby.Like.sign`, `Ruby.Like.codeStep`, `Ruby.Like.step`.
-/
import Marginalia.Proofs.Ruby.Lockstep

namespace Marginalia
namespace Ruby

/-- Whether a quoted stretch or the body of a here document was opened. -/
def Opening.isText : Opening → Bool
  | .quoted .. | .heredoc _ => true
  | _ => false

theorem Opening.text_cases (o : Opening) :
    (∃ q depth, o = .quoted q depth) ∨ (∃ doc, o = .heredoc doc) ∨ o.isText = false := by
  cases o with
  | quoted q depth => exact .inl ⟨q, depth, rfl⟩
  | heredoc doc => exact .inr (.inl ⟨doc, rfl⟩)
  | _ => exact .inr (.inr rfl)

/-- The notes are whole lines, and no block comment ends in them. -/
structure Cut.Silent (c : Cut) : Prop where
  /-- The notes are whole lines. -/
  terminated : Text.Terminated c.notes
  /-- No block comment ends in them. -/
  noEnd : Reader.afterEndMark? c.notes = none

/-- A `=begin` in code, with no `=end` below that would make it a block comment. -/
def Reader.beginsLoosely (r : Reader) : Bool :=
  !r.opening.isText && (Text.after? "=begin".toList r.rest).isSome && (Reader.afterBlockComment? r.rest).isNone

/-- What the last line of a source has to be like, if no newline ends it, so that lines below do not change it. -/
structure Reader.Rounded (r : Reader) : Prop where
  /-- It does not end with a backslash. -/
  noBackslash : r.rest.getLast? ≠ some '\\'
  /-- It does not end with the mark that ends a source. -/
  noEnd : Text.after? "__END__".toList r.rest ≠ some []
  /-- Nothing is open at its end, and no here document ends there. -/
  closed : (step r).rest = [] → (step r).opening = .source ∧ ∀ doc, r.opening ≠ .heredoc doc

/-- What follows the last character of a source is not looked at by passing over another one. -/
theorem Reader.getLast?_next {r : Reader} (hn : r.next.rest ≠ []) : r.next.rest.getLast? = r.rest.getLast? := by
  rw [rest_next] at hn ⊢
  cases hr : r.rest with
  | nil => rfl
  | cons d t =>
    rw [hr] at hn
    exact (List.getLast?_cons_of_ne_nil hn).symm

theorem Reader.opening_setOpening {r : Reader} (h : r.opening ≠ .source) (o : Opening) : (r.setOpening o).opening = o := by
  unfold setOpening
  unfold opening at h ⊢
  cases hf : r.frames with
  | nil =>
    rw [hf] at h
    exact absurd rfl h
  | cons f fs => rfl

/-- An operator ends the head of a method definition. -/
theorem Reader.opening_operator {r : Reader} (h : r.opening = .method .named ∨ r.opening = .method .listed) (n : Nat) :
    (r.operator n .other).opening = .method .complete := by
  have hs : r.opening ≠ .source := by rcases h with h | h <;> rw [h] <;> simp
  have hfollow : r.follow .other = r := by
    unfold follow
    rcases h with h | h <;> rw [h]
  have hhead : r.endHead = r.setOpening (.method .complete) := by
    unfold endHead
    rcases h with h | h <;> rw [h]
  show ((r.meet .other).skip n).opening = _
  rw [opening_skip, meet, hfollow, hhead, opening_setOpening hs]

variable {c : Cut} {A : Text → Place → Text → Place → Prop} {r r' : Reader} {n : Nat}

theorem Cut.LikeOpening.isText_eq {o o' : Opening} (h : c.LikeOpening o o') : o'.isText = o.isText := by
  cases h <;> rfl

/-- A quoted stretch is not ended by a line. -/
theorem Cut.LikeOpening.close_ne {o o' : Opening} {q : Quote} {depth : Nat} (h : c.LikeOpening o o')
    (ho : o = .quoted q depth) : q.close ≠ '\n' := by
  cases h with
  | definition => cases ho
  | other o hd hq => exact hq q depth ho

theorem lineLength_pos_of {t : Text} {p : Char → Bool} (h : p (ahead t) = true) (hp : p '\n' = false) :
    0 < lineLength t := lineLength_pos fun hn => by rw [hn, hp] at h; cases h

theorem lineLength_tail {t : Text} (h : ahead t ≠ '\n') : lineLength t = lineLength t.tail + 1 := by
  conv => lhs; rw [eq_cons_of_ahead rfl h, lineLength_cons h]

theorem close_delimited {c : Char} (hc : c ≠ '\n') (interpolates flagged : Bool) :
    (delimited c interpolates flagged).close ≠ '\n' := by
  unfold delimited
  split
  · next close hclose =>
    unfold closing? at hclose
    split at hclose <;> cases hclose <;> simp
  · exact hc

theorem close_delimiter? {t after : Text} {q : Quote} {interpolates flagged : Bool}
    (h : delimiter? interpolates flagged t = some (q, after)) : q.close ≠ '\n' := by
  unfold delimiter? at h
  split at h
  · split at h <;> cases h
    exact close_delimited (by rintro rfl; revert ‹isDelimiter _ = true›; decide) _ _
  · cases h

/-- No quoted stretch ends with a line. -/
theorem close_percentQuote? {t after : Text} {q : Quote} (h : percentQuote? t = some (q, after)) :
    q.close ≠ '\n' := by
  unfold percentQuote? at h
  split at h
  · split at h
    · exact close_delimiter? h
    · split at h <;> exact close_delimiter? h
  · cases h

theorem step_of_quoted {q : Quote} {depth : Nat} (h : r.opening = .quoted q depth) : step r = r.quotedStep q depth := by
  rw [step, h]

theorem step_of_heredoc {doc : Heredoc} (h : r.opening = .heredoc doc) : step r = r.heredocStep doc := by
  rw [step, h]

theorem step_of_code (h : r.opening.isText = false) : step r = r.codeStep := by
  unfold step
  split
  · next ho =>
    rw [ho] at h
    cases h
  · next ho =>
    rw [ho] at h
    cases h
  · rfl

/-- No operator begins with a backslash. -/
theorem operatorNameAt?_backslash (t : Text) : operatorNameAt? ('\\' :: t) = none := by
  have hnames : ∀ op ∈ operatorNames.map String.toList, op.head? ≠ some '\\' ∧ op ≠ [] := by decide
  refine List.find?_eq_none.2 fun op hop hpre => ?_
  obtain ⟨hno, hne⟩ := hnames op hop
  obtain ⟨d, op, rfl⟩ := List.exists_cons_of_ne_nil hne
  rw [List.isPrefixOf_cons_cons, Bool.and_eq_true, beq_iff_eq] at hpre
  exact hno (by rw [hpre.1]; rfl)

/-- A line that goes on in the next one does not end the text. -/
theorem dropWhile_ne_nil_of_continues {d : Char} {t : Text}
    (h : d = '\\' ∧ (t.head? = some '\n' ∨ t.take 2 = ['\x0d', '\n'])) : (d :: t).dropWhile (· != '\n') ≠ [] := by
  have hmem : '\n' ∈ t := by
    rcases h.2 with ht | ht
    · exact List.mem_of_head? ht
    · exact List.mem_of_mem_take (by rw [ht]; simp : '\n' ∈ t.take 2)
  intro hnil
  exact absurd (List.dropWhile_eq_nil_iff.1 hnil '\n' (List.mem_cons_of_mem d hmem)) (by decide)

namespace Like

/-! ### Punctuation -/

section

variable (h : Like c c.Inside r r') (hu : r.Uncrossed c.tail) (hr : Ruby.ahead r.rest ≠ '\n')

include h hu hr

theorem openBracket {o : Opening} (ho : c.LikeOpening o o) : Like c c.Inside (r.openBracket o) (r'.openBracket o) := by
  simp only [Reader.openBracket_eq, h.opening.eq_iff (x := .method .named) rfl]
  have hplace (_ : o.isDefinition) : r'.place = c.move r.place := h.ahead.place_eq
  split
  · have hlist : Like c c.Inside (r.setOpening (.method .listed)) (r'.setOpening (.method .listed)) :=
      h.setOpening (.other _ rfl (by simp)) fun h => by cases h
    exact ((hlist.next (by rwa [Reader.rest_setOpening])).token .operand).push ho hplace
  split
  · exact ((h.meetNext hu .other hr).token .operand).push ho hplace
  · exact ((h.meetNext hu .bracket hr).token .operand).push ho hplace

theorem closeBracket {o : Opening} (ho : o.isDefinition = false) :
    Like c c.Inside (r.closeBracket o) (r'.closeBracket o) := by
  simp only [Reader.closeBracket, h.opening.eq_iff ho]
  split
  · exact (h.next hr).popHere.token .operator
  · exact (h.meetNext hu .other hr).fault

theorem closeBrace : Like c c.Inside r.closeBrace r'.closeBrace := by
  simp only [Reader.closeBrace, h.opening.eq_iff (x := .code) rfl]
  split
  · exact (h.next hr).popHere
  · exact h.closeBracket hu hr rfl

end

section

variable (h : Like c c.Inside r r') (hu : r.Uncrossed c.tail)

include h hu

theorem equals (hr : Ruby.ahead r.rest = '=') (hend : c.Ends → r.equals.rest = [] → r.equals.opening = .source) :
    Like c c.Inside r.equals r'.equals := by
  have hline : Ruby.ahead r.rest ≠ '\n' := by rw [hr]; decide
  have hlen := lineLength_tail hline
  have hone := h.operator hu (n := 1) .other (by omega)
  by_cases hm : r.opening = .method .named ∨ r.opening = .method .listed
  · have hiff : r'.rest.tail ≠ [] ↔ r.rest.tail ≠ [] := by
      by_cases hc : c.Ends
      · have hne : r.rest.tail ≠ [] := fun h0 => by
          have heq : r.equals = r.operator 1 .other := by rw [Reader.equals_eq, if_neg fun hcond => hcond.2.2 h0]
          have hopen := hend hc (by rw [heq, Reader.rest_operator, List.drop_one, h0])
          rw [heq, Reader.opening_operator hm] at hopen
          cases hopen
        exact iff_of_true ((h.next_sameLine hline).ne_nil hne) hne
      · exact (h.tail_eq_nil_iff hline hc).not
    simp only [Reader.equals_eq, h.opening.eq_iff (x := .method .named) rfl, h.opening.eq_iff (x := .method .listed) rfl,
      h.ahead.sameLine.ahead_eq, h.second_eq hline, hiff]
    split
    · split
      · next hsecond =>
        have hpos := lineLength_pos_of hsecond (by decide)
        exact h.operator hu .other (by omega)
      · exact ((h.next hline).token .operand).pop fun _ => h.ahead.place_eq
    · exact hone
  · simp only [Reader.equals_eq, h.opening.eq_iff (x := .method .named) rfl, h.opening.eq_iff (x := .method .listed) rfl,
      hm, false_and, if_false]
    exact hone

theorem shovel (hn : 2 ≤ lineLength r.rest) : Like c c.Inside r.shovel r'.shovel := by
  have hdrop := h.ahead.sameLine.drop hn
  have htwo := h.operator hu .other hn
  unfold Reader.shovel
  rcases hdrop.sameCut_heredoc? with ⟨h₁, h₂⟩ | ⟨doc, n, hle, h₁, h₂⟩
  · rw [h₁, h₂]
    exact htwo
  · rw [h₁, h₂]
    dsimp only
    rw [h.opensArgument_eq hdrop]
    split
    · rw [lineLength_drop hn] at hle
      have hskip := ((h.meet hu .operand).skipTo (n := n + 2) (by rw [Reader.rest_meet]; omega)).token .operator
      rw [Reader.rest_meet, Reader.rest_meet] at hskip
      rw [List.drop_drop, List.drop_drop, Nat.add_comm 2]
      exact hskip.await doc
    · exact htwo

theorem lessThan (hr : Ruby.ahead r.rest = '<') : Like c c.Inside r.lessThan r'.lessThan := by
  have hline : Ruby.ahead r.rest ≠ '\n' := by rw [hr]; decide
  have hlen := lineLength_tail hline
  rw [Reader.lessThan_eq, Reader.lessThan_eq, h.ahead.sameLine.ahead_eq, h.second_eq hline]
  split
  · next hmark =>
    have hpos := lineLength_pos_of (p := (· == '<')) (by rw [hmark.2]; rfl) (by decide)
    have hshovel := h.shovel hu (by omega)
    have hop := h.opening
    generalize r.opening = o, r'.opening = o' at hop
    cases hop with
    | other o hd hq => cases o <;> first | exact hshovel | cases hd
    | definition kind phase name hs =>
      have hbody : Like c c.Inside (r.setOpening .body) (r'.setOpening .body) :=
        h.setOpening (.other _ rfl (by simp)) fun h => by cases h
      cases kind <;> cases phase <;>
        first | exact hshovel | exact (hbody.skip (by rw [Reader.rest_setOpening]; omega)).token .operand
  · exact h.operator hu .superclass (by omega)

theorem colon {t : Text} (hr : r.rest = ':' :: t) : Like c c.Inside r.colon r'.colon := by
  have hlen : lineLength r.rest = lineLength t + 1 := by rw [hr, lineLength_cons (by decide)]
  obtain ⟨t', hr', ht⟩ := h.rest_cons hr (by decide)
  rw [Reader.colon_cons hr, Reader.colon_cons hr', ht.ahead_eq, ht.nameAt_eq, ht.operatorNameAt?_eq]
  have hone := h.operator hu (n := 1) .other (by omega)
  have hpos {d : Char} (hd : Ruby.ahead t = d) (hne : d ≠ '\n') : 0 < lineLength t := lineLength_pos (by rwa [hd])
  have hquote {d : Char} (hd : Ruby.ahead t = d) (hne : d ≠ '\n') (q : Quote) (hq : q.close ≠ '\n') :
      Like c c.Inside (r.openQuote q (r.rest.drop 2)) (r'.openQuote q (r'.rest.drop 2)) := by
    have hpos := hpos hd hne
    exact h.openQuote hu hq (by omega)
  have hnamed {n : Nat} (hn : n ≤ lineLength t) := (h.meetSkip hu .operand (n := 1 + n) (by omega)).tokenName .operator
  split
  · next hd =>
    have hpos := hpos hd (by decide)
    exact { (h.meetSkip hu .scope (n := 2) (by omega)).token .operand with called := congrArg (!·) h.spaced }
  split
  · next hd => exact hquote hd (by decide) _ (by decide)
  split
  · next hd => exact hquote hd (by decide) _ (by decide)
  split
  · exact hnamed (length_nameAt_le t)
  split
  · next op hop => exact hnamed (length_operatorNameAt?_le hop)
  · exact hone

theorem question {t : Text} (hr : r.rest = '?' :: t) (hlast : c.Ends → r.rest.getLast? ≠ some '\\') :
    Like c c.Near r.question r'.question := by
  have hlen : lineLength r.rest = lineLength t + 1 := by rw [hr, lineLength_cons (by decide)]
  obtain ⟨t', hr', ht⟩ := h.rest_cons hr (by decide)
  have hone := (h.operator hu (n := 1) .other (by omega)).near
  rw [Reader.question_cons hr, Reader.question_cons hr', h.due, ht.ahead_eq]
  by_cases hline : Ruby.ahead t = '\n'
  · simpa [hline, show Text.isBlank '\n' = true by decide] using hone
  · have hmark : Ruby.ahead r.rest ≠ '\n' := by rw [hr, ahead_cons]; decide
    have hnext := h.next hmark
    have hrest : r.next.rest = Ruby.ahead t :: t.tail := by
      rw [Reader.rest_next, hr, List.tail_cons]
      exact eq_cons_of_ahead rfl hline
    have hrest' : r'.next.rest = Ruby.ahead t :: t'.tail := by
      rw [Reader.rest_next, hr', List.tail_cons]
      exact eq_cons_of_ahead ht.ahead_eq hline
    have hsecond : Ruby.ahead t'.tail = Ruby.ahead t.tail := by
      have hsecond := hnext.second_eq (by rwa [hrest])
      rwa [hrest, hrest'] at hsecond
    have hescape := hnext.escape_iff hrest hrest' hline fun hc => by
      rw [Reader.getLast?_next (by rw [hrest]; exact List.cons_ne_nil _ _)]
      exact hlast hc
    simp only [hescape, hsecond]
    split
    · next hescaped =>
      have htwo := (h.meetNext hu .operand hmark).next (by rwa [Reader.rest_next, Reader.rest_meet, hr])
      refine (htwo.nextNear fun h0 => absurd ?_ hescaped.2.2).tokenNear .operator
      rwa [Reader.rest_next, Reader.rest_next, Reader.rest_meet, hr] at h0
    split
    · have hpos := lineLength_pos hline
      exact ((h.meetSkip hu .operand (n := 2) (by omega)).token .operator).near
    · exact hone

theorem sigilled (hr : Ruby.ahead r.rest ≠ '\n') (hd : r.sigilled.degraded = false) :
    Like c c.Near r.sigilled r'.sigilled := by
  rw [Reader.sigilled_eq] at hd
  rw [Reader.sigilled_eq, Reader.sigilled_eq, h.ahead.sameLine.ahead_eq, h.second_eq hr,
    h.ahead.sameLine.takeWhile_eq (p := (· == '@')) rfl]
  have hlen := lineLength_tail hr
  split
  · next hmark =>
    have hne : r.rest.tail ≠ [] := fun h0 => by
      rw [if_pos hmark, if_neg (not_not.2 h0)] at hd
      cases hd
    have htail := h.next_sameLine hr
    rw [if_pos hne, if_pos (htail.ne_nil hne)]
    have hname := length_takeWhile_le_lineLength (p := isNameChar) (by decide) r.rest.tail
    rw [htail.takeWhile_eq (p := isNameChar) (by decide)]
    have hm := h.meetNext hu .operand hr
    have hskip : Like c c.Near
        ((r.meet .operand).skip
          (1 + if isNameStart (Ruby.ahead r.rest.tail) then (r.rest.tail.takeWhile isNameChar).length else 1))
        ((r'.meet .operand).skip
          (1 + if isNameStart (Ruby.ahead r.rest.tail) then (r.rest.tail.takeWhile isNameChar).length else 1)) := by
      split
      · exact (h.meetSkip hu .operand (by omega)).near
      · exact hm.nextNear fun h0 => absurd (by rwa [Reader.rest_next, Reader.rest_meet] at h0) hne
    exact { hskip.tokenNear .operator with names := congrArg (· - 1) h.names }
  · have hn := length_takeWhile_le_lineLength (p := (· == '@')) rfl r.rest
    have hname := length_takeWhile_le_lineLength (p := isNameChar) (by decide)
      (r.rest.drop (r.rest.takeWhile (· == '@')).length)
    rw [lineLength_drop hn] at hname
    dsimp only
    rw [(h.ahead.sameLine.drop hn).takeWhile_eq (p := isNameChar) (by decide)]
    have hskip := (h.meetSkip hu .operand (n := (r.rest.takeWhile (· == '@')).length +
      ((r.rest.drop (r.rest.takeWhile (· == '@')).length).takeWhile isNameChar).length) (by omega)).token .operator
    split
    · exact hskip.fault.near
    · exact hskip.near

theorem number : Like c c.Inside r.number r'.number := by
  rw [Reader.number_eq, Reader.number_eq]
  have hdigits := (h.meet hu .number).skipWhile (p := fun c => c.isDigit || c == '_') (by decide)
  dsimp only
  generalize (r.meet .number).skipWhile _ = s, (r'.meet .number).skipWhile _ = s' at hdigits
  rw [hdigits.ahead.sameLine.ahead_eq]
  by_cases hline : Ruby.ahead s.rest = '.'
  · have hne : Ruby.ahead s.rest ≠ '\n' := by rw [hline]; decide
    rw [hdigits.second_eq hne]
    split
    · exact ((hdigits.next hne).skipWhile (p := fun c => c.isDigit || c == '_') (by decide)).token .operator
    · exact hdigits.token .operator
  · simp only [hline, false_and, if_false]
    exact hdigits.token .operator

theorem dots (hr : Ruby.ahead r.rest ≠ '\n') : Like c c.Inside r.dots r'.dots := by
  rw [Reader.dots_eq, Reader.dots_eq, h.ahead.sameLine.ahead_eq, h.second_eq hr]
  split
  · exact ((h.meet hu .other).skipWhile (p := (· == '.')) rfl).token .operand
  · exact ((h.meetNext hu .dot hr).token .operand).setCalled true

theorem sign {d : Char} {t t' : Text} (hr : r.rest = d :: t) (hr' : r'.rest = d :: t') (ht : SameLine t t') (hd : d ≠ '\n')
    (hlast : c.Ends → r.rest.getLast? ≠ some '\\') (hfault : (r.sign d t).degraded = false)
    (hend : c.Ends → (r.sign d t).rest = [] → (r.sign d t).opening = .source) :
    Like c c.Near (r.sign d t) (r'.sign d t') := by
  have hline : Ruby.ahead r.rest ≠ '\n' := by rwa [hr]
  have hsigil (h : d = '@' ∨ d = '$') : r.sigilled.degraded = false := by rcases h with rfl | rfl <;> exact hfault
  have hequals (h : d = '=') : c.Ends → r.equals.rest = [] → r.equals.opening = .source := by subst h; exact hend
  have hlen : lineLength r.rest = lineLength t + 1 := by rw [hr, lineLength_cons hd]
  have hone (part : Reader.NamePart) := h.operator hu (n := 1) part (by omega)
  have hquote {q : Quote} (hq : q.close ≠ '\n') {n : Nat} (hn : n ≤ lineLength t) :
      Like c c.Inside (r.openQuote q (t.drop n)) (r'.openQuote q (t'.drop n)) := by
    have hopen := h.openQuote hu hq (n := n + 1) (by omega)
    rwa [hr, hr'] at hopen
  have hplain {q : Quote} (hq : q.close ≠ '\n') : Like c c.Inside (r.openQuote q t) (r'.openQuote q t') :=
    hquote hq (Nat.zero_le _)
  unfold Reader.sign
  dsimp only
  split
  case h_1 => exact h.nextNear fun h0 => absurd h0 hu.ne_nil
  case h_2 | h_3 | h_4 => exact (hplain (by decide)).near
  case h_5 => exact h.sigilled hu hline (hsigil (.inl rfl))
  case h_6 => exact h.sigilled hu hline (hsigil (.inr rfl))
  case h_7 | h_8 | h_9 => exact (h.openBracket hu hline (.other _ rfl (by simp))).near
  case h_10 | h_11 => exact (h.closeBracket hu hline rfl).near
  case h_12 => exact (h.closeBrace hu hline).near
  case h_13 =>
    have hnext := (h.meet hu .other).endLoopHead.endStatement.next (by simpa [Reader.endStatement] using hline)
    exact (hnext.token .operand).setSpaced.near
  case h_14 =>
    have hcomma : (r'.operator 1 .other).listing = (r.operator 1 .other).listing := (hone .other).listing
    by_cases hlist : (r.operator 1 .other).listing = true
    · rw [if_pos hlist, if_pos (hcomma.trans hlist)]
      exact ((hone .other).setNames 1).near
    · rw [if_neg hlist, if_neg (mt hcomma.symm.trans hlist)]
      exact (hone .other).near
  case h_15 => exact (h.dots hu hline).near
  case h_16 =>
    simp only [head?_eq_some_iff (c := '.') (by decide), ht.ahead_eq]
    split
    · next hdot =>
      have hpos := lineLength_pos_of (p := (· == '.')) (by rw [hdot]; rfl) (by decide)
      exact ((h.operator hu (n := 2) .dot (by omega)).setCalled true).near
    · exact (hone .other).near
  case h_17 => exact (h.colon hu hr).near
  case h_18 => exact h.question hu hr hlast
  case h_19 => exact (h.lessThan hu (by rw [hr]; rfl)).near
  case h_20 => exact (h.equals hu (by rw [hr]; rfl) (hequals rfl)).near
  case h_21 =>
    rw [h.opensArgument_eq ht]
    split
    · exact (hplain (by decide)).near
    · exact (hone .other).near
  case h_22 =>
    rw [h.opensArgument_eq ht]
    rcases ht.sameCut_percentQuote? with ⟨h₁, h₂⟩ | ⟨q, n, hn, h₁, h₂⟩
    · rw [h₁, h₂]
      exact (hone .other).near
    · rw [h₁, h₂]
      dsimp only
      split
      · exact (hquote (close_percentQuote? h₁) hn).near
      · exact (hone .other).near
  case h_23 =>
    split
    · exact (h.next hline).fault.near
    · exact (hone .other).near

end

/-! ### Steps -/

/-- The block comment at hand in one text is the block comment at hand in the other, unless it goes on across
the cut. -/
theorem blockComment_cases {s s' : Text} {p p' : Place} (h : c.Inside s p s' p')
    (hnotes : c.tail.length < s.length → c.Silent ∨
      (Reader.afterBlockComment? s = none → Text.after? "=begin".toList s = none))
    (hcross : ∀ after, Reader.afterBlockComment? s = some after → c.tail.length < s.length →
      c.tail.length ≤ after.length) :
    Reader.afterBlockComment? s = none ∧ Reader.afterBlockComment? s' = none ∨
      ∃ after after', Reader.afterBlockComment? s = some after ∧ Reader.afterBlockComment? s' = some after' ∧
        s'.length - after'.length = s.length - after.length ∧
        (c.tail.length + (s.length - after.length) < s.length ∨ s.length ≤ c.tail.length ∧ ¬ c.Ends ∨
          s.length - after.length ≤ s.length ∧ c.Ends) := by
  have hmark {x : Text} (hx : Text.after? "=begin".toList x = none) : Reader.afterBlockComment? x = none := by
    rw [Reader.afterBlockComment?, hx]
  rcases h.sameLine.after?_cases (x := "=begin".toList) (by decide) with ⟨h₁, h₂⟩ | ⟨y, -, hy, -⟩
  · exact .inl ⟨hmark h₁, hmark h₂⟩
  have hsilent (hlt : c.tail.length < s.length) (h0 : Reader.afterBlockComment? s = none) : c.Silent :=
    (hnotes hlt).resolve_right fun hn => by rw [hn h0] at hy; cases hy
  cases h with
  | below _ p hs hp =>
    by_cases hc : c.Ends
    · have h0 : s = [] := List.length_eq_zero_iff.1 (by rw [hc.1] at hs; exact Nat.le_zero.1 hs)
      subst h0
      cases hy
    cases hb : Reader.afterBlockComment? s with
    | none => exact .inl ⟨rfl, rfl⟩
    | some after => exact .inr ⟨after, after, rfl, rfl, rfl, .inr (.inl ⟨hs, hc⟩)⟩
  | above x p hle hc hx hp =>
    have hne : x ≠ [] := by rintro rfl; cases hx
    have hwhole : Text.Terminated x := .inr hx
    have hlt : c.tail.length < (x ++ c.tail).length := by
      have hpos := List.length_pos_iff.2 hne
      rw [List.length_append]
      omega
    rcases Reader.afterBlockComment?_append hwhole hne c.tail with ⟨a, ha, hb, h₁⟩ | ⟨hb, h₁⟩
    · rcases Reader.afterBlockComment?_append hwhole hne (c.notes ++ c.tail) with ⟨a', -, hb', h₂⟩ | ⟨hb', -⟩
      · rw [hb] at hb'
        cases hb'
        have hpos := List.length_pos_iff.2 ha
        have hsub := Reader.length_afterBlockComment?_lt hb
        refine .inr ⟨_, _, h₁, h₂, ?_, .inl ?_⟩ <;> simp only [List.length_append] <;> omega
      · rw [hb] at hb'
        cases hb'
    · rcases Reader.afterBlockComment?_append hwhole hne (c.notes ++ c.tail) with ⟨a', -, hb', -⟩ | ⟨-, h₂⟩
      · rw [hb] at hb'
        cases hb'
      · cases he : Reader.afterBlockComment? (x ++ c.tail) with
        | none =>
          obtain ⟨hnw, hnone⟩ := hsilent hlt he
          rw [Reader.afterEndMark?_append hnw, hnone, Option.elim_none] at h₂
          exact .inl ⟨rfl, by rw [h₂, ← h₁, he]⟩
        | some after =>
          have hend : Reader.afterEndMark? c.tail = some after := by
            rw [he] at h₁
            split at h₁
            · exact h₁.symm
            · cases h₁
          exact absurd (hcross after he hlt) (Nat.not_le_of_lt (Reader.length_afterEndMark?_lt hend))
  | ending _ p hle hc hp =>
    have hpos : 0 < s.length := by
      cases s with
      | nil => cases hy
      | cons d s => exact Nat.succ_pos _
    obtain ⟨u, hu⟩ := List.head?_eq_some_iff.1 hc.2
    have hsplit : s ++ c.notes = (s ++ ['\n']) ++ u := by rw [hu, List.append_assoc, List.singleton_append]
    have hwhole : Text.Terminated (s ++ ['\n']) := .inr (List.getLast?_concat)
    rw [hsplit]
    rcases Reader.afterBlockComment?_append hwhole (by simp) u with ⟨a, -, hb, h₂⟩ | ⟨hb, h₂⟩
    · rw [Reader.afterBlockComment?_append_newline, Option.map_eq_some_iff] at hb
      obtain ⟨after, hb, rfl⟩ := hb
      have hlt := Reader.length_afterBlockComment?_lt hb
      refine .inr ⟨after, _, hb, h₂, ?_, .inr (.inr ⟨Nat.sub_le _ _, hc⟩)⟩
      simp only [List.length_append, List.length_singleton]
      omega
    · rw [Reader.afterBlockComment?_append_newline, Option.map_eq_none_iff] at hb
      obtain ⟨-, hnone⟩ := hsilent (by rw [hc.1]; exact hpos) hb
      have hrest : Reader.afterEndMark? u = none := by rwa [hu, Reader.afterEndMark?_newline] at hnone
      refine .inl ⟨hb, ?_⟩
      rw [h₂, hrest, ite_self]

theorem opensComment_eq (h : Like c c.Inside r r') : r'.opensComment = r.opensComment := by
  have hcolumn : r'.place.column = r.place.column := by
    rw [h.ahead.place_eq]
    rfl
  unfold Reader.opensComment
  rw [hcolumn]
  rcases h.ahead.sameLine.after?_cases (x := "=begin".toList) (by decide) with ⟨h₁, h₂⟩ | ⟨u, u', h₁, h₂, hu⟩
  · rw [h₁, h₂]
  · rw [h₁, h₂]
    rcases hu.head_cases with ⟨rfl | ⟨v, rfl⟩, rfl | ⟨v', rfl⟩⟩ | ⟨d, v, v', -, rfl, rfl, -⟩ <;> rfl

theorem endsSource_eq (h : Like c c.Inside r r')
    (hend : c.Ends → Text.after? "__END__".toList r.rest ≠ some []) : r'.endsSource = r.endsSource := by
  unfold Reader.endsSource
  simp only [h.opening.eq_iff (x := .source) rfl, h.called, h.names]
  rcases h.ahead.sameLine.after?_cases (x := "__END__".toList) (by decide) with ⟨h₁, h₂⟩ | ⟨u, u', h₁, h₂, hu⟩
  · rw [h₁, h₂]
  · rw [h₁, h₂]
    have hnil : u = [] → u' = [] := by
      rintro rfl
      have hs := Text.after?_eq h₁
      have hs' := Text.after?_eq h₂
      rcases h.ahead.eq_or_newline fun hc => hend hc h₁ with he | hn
      · rw [← hs', ← hs] at he
        exact List.append_cancel_left he
      · rw [← hs] at hn
        exact absurd hn (by decide)
    rcases hu.head_cases with ⟨rfl | ⟨v, rfl⟩, rfl | ⟨v', rfl⟩⟩ | ⟨d, v, v', -, rfl, rfl, -⟩
    · rfl
    · cases hnil rfl
    · exact absurd rfl (hu.ne_nil (List.cons_ne_nil _ _))
    · rfl
    · rfl

theorem operatorName?_eq (h : Like c c.Inside r r') : r'.operatorName? = r.operatorName? := by
  unfold Reader.operatorName?
  rw [h.called, h.names, h.ahead.sameLine.operatorNameAt?_eq]

/-- A step in code keeps readers alike, unless it meets a fault or goes on across the cut. -/
theorem codeStep (h : Like c c.Inside r r') (hu : r.Uncrossed c.tail) (hd : r.codeStep.degraded = false)
    (habove : c.tail.length < r.rest.length →
      (c.Silent ∨ (Reader.afterBlockComment? r.rest = none → Text.after? "=begin".toList r.rest = none)) ∧
      c.tail.length ≤ r.codeStep.rest.length ∧ r.endsSource = false)
    (hlast : c.Ends → r.rest.getLast? ≠ some '\\')
    (hend : c.Ends → Text.after? "__END__".toList r.rest ≠ some [] ∧
      (r.codeStep.rest = [] → r.codeStep.opening = .source)) : Like c c.Near r.codeStep r'.codeStep := by
  obtain ⟨d, t, t', hrest, hrest', hline⟩ := h.rest_cases hu.ne_nil
  rcases hline with rfl | ⟨hne, ht⟩
  · have hstep {r : Reader} {t : Text} (hr : r.rest = '\n' :: t) : r.codeStep = r.lineEnd := by
      rw [Reader.codeStep_cons hr, if_pos rfl]
    rw [hstep hrest, hstep hrest']
    exact h.lineEnd hu.ne_nil
  have hlen : lineLength r.rest = lineLength t + 1 := by rw [hrest, lineLength_cons hne]
  have hends := h.endsSource_eq fun hc => (hend hc).1
  revert hd habove hend
  rw [Reader.codeStep_cons hrest, Reader.codeStep_cons hrest', if_neg hne, if_neg hne]
  split
  · exact fun _ _ _ => (h.nextNear fun h0 => absurd h0 hu.ne_nil).setSpaced
  split
  · exact fun _ _ _ => (h.skipWhile rfl).setSpaced.near
  intro hd habove hend
  have hcross : ∀ after, Reader.afterBlockComment? r.rest = some after → c.tail.length < r.rest.length →
      c.tail.length ≤ after.length := by
    intro after hafter hlt
    obtain ⟨-, hle, -⟩ := habove hlt
    have hshort := Reader.length_afterBlockComment?_lt hafter
    rw [hafter] at hle
    simp only [Reader.skipTo, Reader.rest_skip, List.length_drop] at hle
    omega
  rcases blockComment_cases h.ahead (fun hlt => (habove hlt).1) hcross with
    ⟨h₁, h₂⟩ | ⟨after, after', h₁, h₂, hlen, hfar⟩
  · rw [h₁, h₂]
    rw [h₁] at hd habove hend
    revert hd habove hend
    dsimp only
    simp only [h.opensComment_eq, hends, h.operatorName?_eq]
    split
    · intro hd
      cases hd
    split
    · next hends =>
      intro _ habove _
      have hbelow : r.rest.length ≤ c.tail.length := Nat.le_of_not_lt fun hlt => by
        rw [hends] at habove
        cases (habove hlt).2.2
      rw [h.ahead.eq_of_length_le hu.ne_nil hbelow]
      refine (h.skipFar (.inr (.inl ⟨hbelow, fun hc => ?_⟩))).near
      rw [hc.1] at hbelow
      exact hu.ne_nil (List.length_eq_zero_iff.1 (Nat.le_zero.1 hbelow))
    intro hd _ hend
    by_cases hgoes : d = '\\' ∧ (t.head? = some '\n' ∨ t.take 2 = ['\x0d', '\n'])
    · rw [if_pos hgoes, if_pos ⟨hgoes.1, ht.continues hgoes.2⟩]
      refine ((h.skipWhile (p := (· != '\n')) rfl).nextNear fun h0 => ?_).setSpaced
      rw [Reader.rest_skipWhile, hrest] at h0
      exact absurd h0 (dropWhile_ne_nil_of_continues hgoes)
    rw [if_neg hgoes] at hd hend
    have hb : d ≠ '\\' := by
      rintro rfl
      have hop : r.operatorName? = none := by
        unfold Reader.operatorName?
        rw [hrest, operatorNameAt?_backslash, ite_self]
      rw [hop] at hd
      cases hd
    have hgoes' : ¬ (d = '\\' ∧ (t'.head? = some '\n' ∨ t'.take 2 = ['\x0d', '\n'])) := fun hg => hb hg.1
    rw [if_neg hgoes, if_neg hgoes']
    revert hd hend
    split
    · exact fun _ _ => (h.number hu).near
    split
    · exact fun hd _ => (h.word hu hd).near
    split
    · next op hop =>
      have hop : op.length ≤ lineLength r.rest := by
        unfold Reader.operatorName? at hop
        split at hop
        · exact length_operatorNameAt?_le hop
        · cases hop
      exact fun _ _ => Like.near { (h.meetSkip hu .operand hop).token .either with names := congrArg (· - 1) h.names }
    · exact fun hd hend => h.sign hu hrest hrest' ht hne hlast hd fun hc => (hend hc).2
  · rw [h₁, h₂]
    refine Like.near (Like.setSpaced ?_)
    rw [Reader.skipTo, Reader.skipTo, hlen]
    exact h.skipFar hfar

/-- A step keeps readers alike, unless it meets a fault or goes on across the cut. -/
theorem step (h : Like c c.Inside r r') (hu : r.Uncrossed c.tail) (hd : (step r).degraded = false)
    (habove : c.tail.length < r.rest.length → (c.Silent ∨ r.beginsLoosely = false) ∧
      c.tail.length ≤ (Ruby.step r).rest.length ∧ r.endsSource = false)
    (hend : c.Ends → r.Rounded) : Like c c.Near (Ruby.step r) (Ruby.step r') := by
  have hlast (hc : c.Ends) := (hend hc).noBackslash
  rcases r.opening.text_cases with ⟨q, depth, ho⟩ | ⟨doc, ho⟩ | ho
  · have ho' : r'.opening = .quoted q depth := (h.opening.eq_iff rfl).2 ho
    have hclose : q.close ≠ '\n' := h.opening.close_ne ho
    rw [step_of_quoted ho, step_of_quoted ho']
    exact h.quotedStep hclose depth hu.ne_nil hlast
  · have ho' : r'.opening = .heredoc doc := (h.opening.eq_iff rfl).2 ho
    have hclosed (hc : c.Ends) := (hend hc).closed
    rw [step_of_heredoc ho] at hclosed
    rw [step_of_heredoc ho, step_of_heredoc ho']
    refine h.heredocStep ho hu.ne_nil hlast fun hc hcolumn hends hnil => (hclosed hc ?_).2 doc ho
    rw [Reader.heredocStep, if_pos ⟨hcolumn, hends⟩]
    simp [hnil]
  · have ho' : r'.opening.isText = false := h.opening.isText_eq.trans ho
    have hclosed (hc : c.Ends) := (hend hc).closed
    have hbegin (hb : r.beginsLoosely = false) (h0 : Reader.afterBlockComment? r.rest = none) :
        Text.after? "=begin".toList r.rest = none := by
      rw [Reader.beginsLoosely, ho, h0] at hb
      simpa using hb
    rw [step_of_code ho] at hd habove hclosed
    rw [step_of_code ho, step_of_code ho']
    exact h.codeStep hu hd (fun hlt => ⟨(habove hlt).1.imp_right hbegin, (habove hlt).2⟩) hlast
      fun hc => ⟨(hend hc).noEnd, fun h0 => (hclosed hc h0).1⟩

end Like
end Ruby
end Marginalia
