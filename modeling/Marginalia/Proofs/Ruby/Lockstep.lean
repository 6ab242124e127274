/-
# Readers keep pace

Whatever two readers that are alike look at is the same in both texts, because
they look at no more than the line at hand and at what they remember. Of what is
remembered only the name at hand can go on from above the cut to below it
(`Ruby.Reader.crosses`). So each part of a step keeps readers alike; here are
those that follow names, lines, quoted stretches and words.

Key definitions: `Ruby.Reader.crosses`, `Ruby.Reader.Uncrossed`.
Key theorems: `Ruby.Like.follow`, `Ruby.Like.quotedStep`, `Ruby.Like.word`.
-/
import Marginalia.Proofs.Ruby.Cut
import Marginalia.Proofs.Ruby.Deciding

namespace Marginalia
namespace Ruby

/-- The name at hand began above a tail, and was read on in it. -/
def Reader.crosses (tail : Text) (r : Reader) : Bool :=
  match r.opening with
  | .definition _ (.constant _) written _ => tail.length < written.length && r.lastRest.length ≤ tail.length
  | _ => false

/-- There is something to read, and the name at hand does not cross the cut. -/
structure Reader.Uncrossed (tail : Text) (r : Reader) : Prop where
  /-- Something is left. -/
  ne_nil : r.rest ≠ []
  /-- No name crosses the cut. -/
  crosses : r.crosses tail = false

theorem Reader.opening_next (r : Reader) : r.next.opening = r.opening := by
  unfold Reader.next
  split <;> rfl

theorem Reader.opening_skip : ∀ (n : Nat) (r : Reader), (r.skip n).opening = r.opening
  | 0, _ => rfl
  | n + 1, r => by rw [Reader.skip, opening_skip n, opening_next]

/-- A superclass that is refused leaves no name at hand. -/
theorem Reader.Uncrossed.refuseSuperclass {tail : Text} {r : Reader} (h : r.Uncrossed tail) :
    r.refuseSuperclass.Uncrossed tail := by
  refine ⟨by rw [rest_refuseSuperclass]; exact h.ne_nil, ?_⟩
  unfold Reader.refuseSuperclass
  split
  · next kind written name ho =>
    unfold setOpening
    cases hf : r.frames with
    | nil =>
      rw [opening, hf] at ho
      cases ho
    | cons f fs => rfl
  · exact h.crosses

variable {c : Cut} {A : Text → Place → Text → Place → Prop} {r r' : Reader} {n : Nat}

theorem Cut.LikeOpening.endsWithEnd_eq {o o' : Opening} (h : c.LikeOpening o o') :
    o'.endsWithEnd = o.endsWithEnd := by
  cases h <;> rfl

/-- Whether something other than a definition was opened is the same in both texts. -/
theorem Cut.LikeOpening.eq_iff {o o' x : Opening} (h : c.LikeOpening o o') (hx : x.isDefinition = false) :
    o' = x ↔ o = x := by
  cases h with
  | definition kind phase name hs =>
    constructor <;> (rintro rfl; cases hx)
  | other o hd hq => exact .rfl

theorem lineLength_pos {t : Text} (h : ahead t ≠ '\n') : 0 < lineLength t := by
  rw [eq_cons_of_ahead rfl h, lineLength_cons h]
  exact Nat.succ_pos _

theorem length_tail_lt {t : Text} {n fuel : Nat} (h : ahead t ≠ '\n') (hn : t.length ≤ n) (hf : n < fuel + 1) :
    t.tail.length < fuel := by
  rw [eq_cons_of_ahead rfl h, List.length_cons] at hn
  omega

/-- A name that was not read on in the tail is the same in both texts. -/
theorem Cut.Begun.take_eq {s s' l l' : Text} (hs : c.Begun s s') (hl : c.Kept l l')
    (h : c.tail.length < s.length → c.tail.length < l.length) :
    s'.take (s'.length - l'.length) = s.take (s.length - l.length) := by
  obtain ⟨hk, hs⟩ := hs
  rcases hl with ⟨rfl, hl⟩ | ⟨z, rfl, rfl⟩
  · rw [hs.resolve_right fun hlt => Nat.not_lt_of_le hl (h hlt)]
  · rcases hk with ⟨rfl, hle⟩ | ⟨y, rfl, rfl⟩
    · simp only [List.length_append]
      congr 1
      omega
    · simp only [List.length_append]
      rw [List.take_append_of_le_length (by omega), List.take_append_of_le_length (by omega)]
      congr 1
      omega

namespace Like

/-! ### What the openings of stretches say -/

theorem endHead (h : Like c A r r') : Like c A r.endHead r'.endHead := by
  unfold Reader.endHead
  have hop := h.opening
  generalize r.opening = o, r'.opening = o' at hop
  cases hop with
  | definition kind phase name hs => exact h
  | other o hd hq =>
    split
    · exact h
    · exact h.setOpening (.other _ rfl fun _ _ h => by cases h) (fun h => by cases h)
    · exact h

theorem endLoopHead (h : Like c A r r') : Like c A r.endLoopHead r'.endLoopHead := by
  unfold Reader.endLoopHead
  have hop := h.opening
  generalize r.opening = o, r'.opening = o' at hop
  cases hop with
  | definition kind phase name hs => exact h
  | other o hd hq =>
    split
    · exact h.setOpening (.other _ rfl fun _ _ h => by cases h) (fun h => by cases h)
    · exact h

theorem refuseSuperclass (h : Like c A r r') : Like c A r.refuseSuperclass r'.refuseSuperclass := by
  unfold Reader.refuseSuperclass
  have hop := h.opening
  generalize ho : r.opening = o, r'.opening = o' at hop
  cases hop with
  | definition kind phase name hs =>
    cases phase with
    | superclassDue => exact (h.setOpening (.definition kind .complete none hs) fun _ => by rw [ho]; rfl).fault
    | _ => exact h
  | other o hd hq => cases o <;> first | exact h | cases hd

theorem nameFails_eq (h : Like c A r r') (name : Text) : r'.nameFails name = r.nameFails name := by
  unfold Reader.nameFails
  have hop := h.opening
  generalize r.opening = o, r'.opening = o' at hop
  cases hop with
  | definition kind phase name hs => cases phase <;> rfl
  | other o hd hq => rfl

theorem openBody (h : Like c A r r') : Like c A r.openBody r'.openBody := by
  unfold Reader.openBody
  rw [h.pending]
  split
  · next doc docs hp =>
    have hpush : Like c A (r.push (.heredoc doc) r.place) (r'.push (.heredoc doc) r'.place) :=
      h.push (.other _ rfl fun _ _ h => by cases h) fun h => by cases h
    exact { hpush with pending := rfl }
  · exact h

theorem opensArgument_eq (h : Like c A r r') {t t' : Text} (ht : SameLine t t') :
    r'.opensArgument t' = r.opensArgument t := by
  unfold Reader.opensArgument
  rw [h.due, h.spaced]
  rcases ht.head_cases with ⟨rfl | ⟨u, rfl⟩, rfl | ⟨u', rfl⟩⟩ | ⟨c, u, u', hc, rfl, rfl, hu⟩ <;> rfl

/-! ### Names of definitions -/

section

variable (h : Like c c.Inside r r') (hu : r.Uncrossed c.tail)

include h hu

theorem follow (part : Reader.NamePart) : Like c c.Inside (r.follow part) (r'.follow part) := by
  have hcross := hu.crosses
  unfold Reader.follow
  unfold Reader.crosses at hcross
  have hop := h.opening
  generalize ho : r.opening = o, r'.opening = o' at hop hcross
  cases hop with
  | other o hd hq => cases o <;> first | exact h | cases hd
  | @definition kind phase s s' name hs =>
    have hstart (phase : NamePhase) : Like c c.Inside (r.setOpening (.definition kind phase r.rest none))
        (r'.setOpening (.definition kind phase r'.rest none)) :=
      h.setOpening (.definition kind phase none (h.ahead.begun hu.ne_nil)) fun _ => by rw [ho]; rfl
    have hgo (phase : NamePhase) (name : Option DeclaredName) :
        Like c c.Inside (r.setOpening (.definition kind phase s name))
          (r'.setOpening (.definition kind phase s' name)) :=
      h.setOpening (.definition kind phase name hs) fun _ => by rw [ho]; rfl
    have hname (last : Text) (hp : phase = .constant last) : r'.writtenName s' last = r.writtenName s last := by
      subst hp
      unfold Reader.writtenName
      rw [hs.take_eq h.lastRest (by simpa using hcross)]
    cases phase <;> dsimp only
    case due => cases part <;> first | exact hstart _ | exact h.fault | exact h.dissolve.fault
    case partDue | methodDue => cases part <;> first | exact hgo _ _ | exact h.dissolve.fault
    case constant last =>
      rw [h.spaced, hname last rfl]
      cases part <;> dsimp only <;> (try split) <;> exact hgo _ _
    case operand =>
      rw [h.spaced]
      cases part <;> dsimp only <;> (try split) <;> first | exact hgo _ _ | exact h | exact h.dissolve.fault
    case superclassDue => exact hgo _ _
    case complete => exact h

theorem meet (part : Reader.NamePart) : Like c c.Inside (r.meet part) (r'.meet part) := (h.follow hu part).endHead

/-- Both readers meet a token on the line at hand and pass over it. -/
theorem meetSkip (part : Reader.NamePart) (hn : n ≤ lineLength r.rest) :
    Like c c.Inside ((r.meet part).skip n) ((r'.meet part).skip n) :=
  (h.meet hu part).skip (by rwa [Reader.rest_meet])

/-- Both readers meet a mark and pass over it. -/
theorem meetNext (part : Reader.NamePart) (hr : Ruby.ahead r.rest ≠ '\n') :
    Like c c.Inside (r.meet part).next (r'.meet part).next :=
  (h.meet hu part).next (by rwa [Reader.rest_meet])

theorem operator (part : Reader.NamePart) (hn : n ≤ lineLength r.rest) :
    Like c c.Inside (r.operator n part) (r'.operator n part) := (h.meetSkip hu part hn).token .operand

end

/-! ### Lines and quoted stretches -/

section

variable (h : Like c c.Inside r r')

include h

theorem popHere : Like c c.Inside (r.pop r.place) (r'.pop r'.place) := h.pop fun _ => h.ahead.place_eq

/-- Two characters are passed over, and the second may be a newline. -/
theorem skipTwo (hr : Ruby.ahead r.rest ≠ '\n') (hne : r.rest.tail ≠ []) : Like c c.Near (r.skip 2) (r'.skip 2) :=
  (h.next hr).nextNear fun h0 => absurd (by rwa [Reader.rest_next] at h0) hne

theorem skipTo (hn : n ≤ lineLength r.rest) :
    Like c c.Inside (r.skipTo (r.rest.drop n)) (r'.skipTo (r'.rest.drop n)) := by
  have hle := Nat.le_trans hn (lineLength_le _)
  have hle' : n ≤ r'.rest.length := Nat.le_trans (h.ahead.sameLine.lineLength_eq ▸ hn) (lineLength_le _)
  rw [Reader.skipTo, Reader.skipTo, List.length_drop, List.length_drop, Nat.sub_sub_self hle, Nat.sub_sub_self hle']
  exact h.skip hn

theorem lineEnd (hne : r.rest ≠ []) : Like c c.Near r.lineEnd r'.lineEnd := by
  have hend : Like c c.Inside (if r.due = .operand then r else r.endLoopHead.endStatement)
      (if r'.due = .operand then r' else r'.endLoopHead.endStatement) := by
    rw [h.due]
    split
    · exact h
    · exact h.endLoopHead.endStatement
  have hrest : (if r.due = .operand then r else r.endLoopHead.endStatement).rest = r.rest := by
    split <;> simp [Reader.endStatement]
  exact (hend.nextNear fun h0 => absurd (hrest ▸ h0) hne).setSpaced.openBody

theorem endQuote (flagged : Bool) (hr : Ruby.ahead r.rest ≠ '\n') :
    Like c c.Inside (r.endQuote flagged) (r'.endQuote flagged) := by
  unfold Reader.endQuote
  dsimp only
  split
  · exact ((h.next hr).skipWhile (p := Char.isLower) (by decide)).popHere.token _
  · exact (h.next hr).popHere.token _

/-- Code begins inside a quoted stretch. -/
theorem openCode (hr : Ruby.ahead r.rest ≠ '\n') (hne : r.rest.tail ≠ []) :
    Like c c.Near ({ r.skip 2 with due := .operand, spaced := true, called := false }.push .code r.place)
      ({ r'.skip 2 with due := .operand, spaced := true, called := false }.push .code r'.place) :=
  have hs := h.skipTwo hr hne
  have hopen : Like c c.Near { r.skip 2 with due := .operand, spaced := true, called := false }
      { r'.skip 2 with due := .operand, spaced := true, called := false } :=
    { hs with due := rfl, spaced := rfl, called := rfl }
  hopen.push (.other _ rfl fun _ _ h => by cases h) fun h => by cases h

/-- The readers see the same character, and the same line after it. -/
theorem rest_cases (hr : r.rest ≠ []) : ∃ d t t', r.rest = d :: t ∧ r'.rest = d :: t' ∧
    (d = '\n' ∨ d ≠ '\n' ∧ SameLine t t') := by
  have hs := h.ahead.sameLine
  rcases hs.head_cases with ⟨h₁ | ⟨u, h₁⟩, -⟩ | ⟨d, u, u', hd, h₁, h₂, hu⟩
  · exact absurd h₁ hr
  · rw [h₁] at hs
    obtain ⟨u', h₂⟩ := hs.eq_newline_cons
    exact ⟨_, u, u', h₁, h₂, .inl rfl⟩
  · exact ⟨d, u, u', h₁, h₂, .inr ⟨hd, hu⟩⟩

theorem rest_cons {d : Char} {t : Text} (hr : r.rest = d :: t) (hd : d ≠ '\n') :
    ∃ t', r'.rest = d :: t' ∧ SameLine t t' := by
  obtain ⟨e, u, u', h₁, h₂, hu⟩ := h.rest_cases (by simp [hr])
  obtain ⟨rfl, rfl⟩ := List.cons_eq_cons.1 (hr.symm.trans h₁)
  exact ⟨u', h₂, (hu.resolve_left hd).2⟩

/-- The last character of a line is the last one of both texts, unless the first text alone ends there. -/
theorem tail_eq_nil_iff (hr : Ruby.ahead r.rest ≠ '\n') (hc : ¬ c.Ends) : r'.rest.tail = [] ↔ r.rest.tail = [] := by
  have hnext := (h.next hr).ahead.eq_nil_iff hc
  rwa [Reader.rest_next, Reader.rest_next] at hnext

/-- A character that is no backslash is at hand, or more than that, or the first text does not end here. -/
theorem escape_iff {d : Char} {t t' : Text} (hr : r.rest = d :: t) (hr' : r'.rest = d :: t') (hd : d ≠ '\n')
    (hlast : c.Ends → r.rest.getLast? ≠ some '\\') : d = '\\' ∧ t' ≠ [] ↔ d = '\\' ∧ t ≠ [] := by
  refine and_congr_right ?_
  rintro rfl
  by_cases hc : c.Ends
  · have ht : t ≠ [] := by
      rintro rfl
      exact hlast hc (by rw [hr]; rfl)
    obtain ⟨u, hu, hs⟩ := h.rest_cons hr hd
    obtain rfl : u = t' := (List.cons.inj (hu.symm.trans hr')).2
    exact iff_of_true (hs.ne_nil ht) ht
  · have hiff := h.tail_eq_nil_iff (by rwa [hr]) hc
    rw [hr, hr'] at hiff
    exact hiff.not

theorem quotedStep {q : Quote} (hq : q.close ≠ '\n') (depth : Nat) (hr : r.rest ≠ [])
    (hlast : c.Ends → r.rest.getLast? ≠ some '\\') : Like c c.Near (r.quotedStep q depth) (r'.quotedStep q depth) := by
  obtain ⟨d, t, t', hrest, hrest', hd⟩ := h.rest_cases hr
  rw [Reader.quotedStep_cons hrest, Reader.quotedStep_cons hrest']
  have hne : r.rest = [] → ¬ c.Ends := fun h0 => absurd h0 hr
  have hquoted (depth : Nat) : Like c c.Near (r.next.setOpening (.quoted q depth)) (r'.next.setOpening (.quoted q depth)) :=
    (h.nextNear hne).setOpening (.other _ rfl fun _ _ h => by cases h; exact hq) fun h => by cases h
  rcases hd with rfl | ⟨hd, ht⟩
  · simp only [Ne.symm hq, if_false, show ¬ '\n' = '\\' by decide, show ¬ '\n' = '#' by decide, false_and]
    split
    · exact hquoted _
    · exact h.nextNear hne
  · have hr : Ruby.ahead r.rest ≠ '\n' := by rwa [hrest]
    rw [ht.ahead_eq]
    simp only [h.escape_iff hrest hrest' hd hlast]
    split
    · next hesc => exact h.skipTwo hr (by rw [hrest]; exact hesc.2)
    split
    · next hmark =>
      split
      · exact h.openCode hr (by rw [hrest, List.tail_cons, eq_cons_of_ahead hmark.2 (by decide)]; exact List.cons_ne_nil _ _)
      · exact h.nextNear hne
    split
    · cases depth with
      | zero => exact (h.endQuote _ hr).near
      | succ depth => exact hquoted depth
    split
    · exact hquoted _
    · exact h.nextNear hne

theorem heredocStep {doc : Heredoc} (ho : r.opening = .heredoc doc) (hr : r.rest ≠ [])
    (hlast : c.Ends → r.rest.getLast? ≠ some '\\')
    (hend : c.Ends → r.place.column = 0 → doc.endsAt r.rest → r.rest.dropWhile (· != '\n') ≠ []) :
    Like c c.Near (r.heredocStep doc) (r'.heredocStep doc) := by
  obtain ⟨d, t, t', hrest, hrest', hd⟩ := h.rest_cases hr
  have hne : r.rest = [] → ¬ c.Ends := fun h0 => absurd h0 hr
  have hopening : (r.skipWhile (· != '\n')).next.opening.isDefinition = false := by
    rw [Reader.opening_next, Reader.skipWhile, Reader.opening_skip, ho]
    rfl
  have hcolumn : r'.place.column = r.place.column := by
    rw [h.ahead.place_eq]
    rfl
  rw [Reader.heredocStep_cons hrest, Reader.heredocStep_cons hrest', hcolumn, h.ahead.sameLine.endsAt_eq]
  split
  · next hends =>
    have hline : Like c c.Near (r.skipWhile (· != '\n')).next (r'.skipWhile (· != '\n')).next :=
      (h.skipWhile rfl).nextNear fun h0 hc => hend hc hends.1 hends.2 (by rwa [Reader.rest_skipWhile] at h0)
    exact ((hline.pop fun hd => by rw [hopening] at hd; cases hd).setDue .operand).setSpaced.openBody
  rcases hd with rfl | ⟨hd, ht⟩
  · simp only [show ¬ '\n' = '\\' by decide, show ¬ '\n' = '#' by decide, false_and, and_false, if_false]
    exact h.nextNear hne
  · have hr : Ruby.ahead r.rest ≠ '\n' := by rwa [hrest]
    rw [ht.ahead_eq]
    simp only [h.escape_iff hrest hrest' hd hlast]
    split
    · next hesc => exact h.skipTwo hr (by rw [hrest]; exact hesc.2.2)
    split
    · next hmark =>
      exact h.openCode hr (by rw [hrest, List.tail_cons, eq_cons_of_ahead hmark.2.2 (by decide)]; exact List.cons_ne_nil _ _)
    · exact h.nextNear hne

theorem next_sameLine (hr : Ruby.ahead r.rest ≠ '\n') : SameLine r.rest.tail r'.rest.tail := by
  rw [← Reader.rest_next, ← Reader.rest_next]
  exact (h.next hr).ahead.sameLine

/-- The second character is the same, unless the first one ends the line. -/
theorem second_eq (hr : Ruby.ahead r.rest ≠ '\n') : Ruby.ahead r'.rest.tail = Ruby.ahead r.rest.tail :=
  (h.next_sameLine hr).ahead_eq

/-! ### Words -/

theorem methodName {fuel fuel' : Nat} (hf : r.rest.length < fuel) (hf' : r'.rest.length < fuel') :
    Like c c.Inside (r.methodName fuel) (r'.methodName fuel') := by
  induction fuel generalizing r r' fuel' with
  | zero => exact absurd hf (Nat.not_lt_zero _)
  | succ fuel ih =>
    obtain ⟨fuel', rfl⟩ := Nat.exists_eq_succ_of_ne_zero (Nat.ne_of_gt (Nat.zero_lt_of_lt hf'))
    rw [Reader.methodName_succ, Reader.methodName_succ, h.ahead.sameLine.operatorNameAt?_eq]
    split
    · next op hop => exact h.skip (length_operatorNameAt?_le hop)
    rw [h.ahead.sameLine.ahead_eq, h.ahead.sameLine.nameAt_eq]
    split
    · have hs := h.skip (length_nameAt_le r.rest)
      have hlen : (r.skip (nameAt r.rest).length).rest.length ≤ r.rest.length := by simp
      have hlen' : (r'.skip (nameAt r.rest).length).rest.length ≤ r'.rest.length := by simp
      dsimp only
      generalize r.skip (nameAt r.rest).length = s, r'.skip (nameAt r.rest).length = s' at hs hlen hlen'
      have hhead := hs.ahead.sameLine.ahead_eq
      rw [hhead]
      by_cases hline : Ruby.ahead s.rest = '\n'
      · simpa [hline] using hs
      · have hline' : Ruby.ahead s'.rest ≠ '\n' := by rwa [hhead]
        have hnext := hs.next hline
        rw [hs.second_eq hline]
        split
        · refine ih hnext ?_ ?_ <;> rw [Reader.rest_next]
          · exact length_tail_lt hline hlen hf
          · exact length_tail_lt hline' hlen' hf'
        split
        · next hmark =>
          refine ih (hnext.next ?_) ?_ ?_
          · rw [Reader.rest_next, hmark.2]
            decide
          · rw [Reader.rest_next, Reader.rest_next]
            exact Nat.lt_of_le_of_lt (List.tail_suffix _).length_le (length_tail_lt hline hlen hf)
          · rw [Reader.rest_next, Reader.rest_next]
            exact Nat.lt_of_le_of_lt (List.tail_suffix _).length_le (length_tail_lt hline' hlen' hf')
        split
        · exact hnext
        · exact hs
    · exact h

end

section

variable (h : Like c c.Inside r r') (hu : r.Uncrossed c.tail)

include h hu

theorem openQuote {q : Quote} (hq : q.close ≠ '\n') (hn : n ≤ lineLength r.rest) :
    Like c c.Inside (r.openQuote q (r.rest.drop n)) (r'.openQuote q (r'.rest.drop n)) := by
  have hm := (h.meet hu .operand).skipTo (n := n) (by rwa [Reader.rest_meet])
  rw [Reader.rest_meet, Reader.rest_meet] at hm
  exact hm.push (.other _ rfl fun _ _ h => by cases h; exact hq) fun h => by cases h

theorem plainName {name : Text} (hn : name.length ≤ lineLength r.rest) :
    Like c c.Inside (r.plainName name) (r'.plainName name) := by
  have hm := h.meet hu (if isConstant name then .constant name else .operand)
  have hnames : r'.names - 1 = r.names - 1 := by rw [h.names]
  unfold Reader.plainName
  dsimp only
  rw [hm.names]
  exact ((hm.setNames _).skip (n := name.length) (by simpa using hn)).token .either

theorem openWith {name : Text} {o : Opening} (ho : c.LikeOpening o o) (hn : name.length ≤ lineLength r.rest) :
    Like c c.Inside (r.openWith name o) (r'.openWith name o) :=
  ((h.meetSkip hu .other hn).token .operand).push ho fun _ => h.ahead.place_eq

theorem closeWithEnd {name : Text} (hn : name.length ≤ lineLength r.rest) :
    Like c c.Inside (r.closeWithEnd name) (r'.closeWithEnd name) := by
  have hs : Like c c.Inside ((r.refuseSuperclass.meet .other).skip name.length)
      ((r'.refuseSuperclass.meet .other).skip name.length) :=
    h.refuseSuperclass.meetSkip hu.refuseSuperclass .other (by rwa [Reader.rest_refuseSuperclass])
  unfold Reader.closeWithEnd
  dsimp only
  rw [hs.opening.endsWithEnd_eq, hs.frames.length_eq]
  split
  · exact hs.popHere.token .operator
  split
  · exact hs.token .operator
  · exact (hs.token .operator).fault

theorem keyword {name : Text} (hn : name.length ≤ lineLength r.rest) (k : Keyword) :
    Like c c.Inside (r.keyword name k) (r'.keyword name k) := by
  have hpass (due : Due) : Like c c.Inside (((r.meet .other).skip name.length).token due)
      (((r'.meet .other).skip name.length).token due) := (h.meetSkip hu .other hn).token due
  have hvalue := h.meetSkip hu .operand hn
  have hopen (o : Opening) (hd : o.isDefinition = false) (hq : ∀ q depth, o ≠ .quoted q depth) :
      Like c c.Inside (r.openWith name o) (r'.openWith name o) :=
    h.openWith hu (.other o hd fun q depth he => absurd he (hq q depth)) hn
  have hdef (kind : Declaration.Kind) : Like c c.Inside (r.openWith name (.definition kind .due [] none))
      (r'.openWith name (.definition kind .due [] none)) :=
    h.openWith hu (.definition kind .due none ⟨.inl ⟨rfl, Nat.zero_le _⟩, .inl rfl⟩) hn
  cases k with
  | klass | module => exact hdef _
  | definition =>
    have hname := (hopen (.method .named) rfl (by simp)).skipWhile (p := isGap) (by decide)
    exact (hname.methodName (Nat.lt_succ_self _) (Nat.lt_succ_self _)).token .either
  | body => exact hopen _ rfl (by simp)
  | counted => exact hopen _ rfl (by simp)
  | condition =>
    simp only [Reader.keyword, h.due]
    split
    · exact hopen _ rfl (by simp)
    · exact hpass _
  | loop =>
    simp only [Reader.keyword, h.due]
    split
    · exact hopen _ rfl (by simp)
    · exact hpass _
  | block =>
    have hiff := h.opening.eq_iff (x := .loop true) rfl
    by_cases ho : r.opening = .loop true
    · simp only [Reader.keyword, ho, hiff.2 ho]
      exact (hpass .operand).setOpening (.other _ rfl (by simp)) fun h => by cases h
    · have hblock (r : Reader) (ho : r.opening ≠ .loop true) : r.keyword name .block = r.openWith name .body := by
        unfold Reader.keyword
        dsimp only
        split
        · exact absurd ‹_› ho
        · rfl
      rw [hblock r ho, hblock r' (mt hiff.1 ho)]
      exact hopen _ rfl (by simp)
  | close => exact h.closeWithEnd hu hn
  | rename => exact { hpass .operand with names := rfl }
  | forget => exact { hpass .operand with names := rfl, listing := rfl }
  | link => exact hpass .operand
  | value => exact hvalue.token .operator
  | command => exact hvalue.token .either

theorem named {name : Text} (hn : name.length ≤ lineLength r.rest) :
    Like c c.Inside (r.named name) (r'.named name) := by
  unfold Reader.named
  split
  · exact h.keyword hu hn _
  · exact h.plainName hu hn

/-- Words that are no faults. -/
theorem nameOrKeyword {name : Text} (hn : name.length ≤ lineLength r.rest)
    (hd : (Reader.word.nameOrKeyword r name).degraded = false) :
    Like c c.Inside (Reader.word.nameOrKeyword r name) (Reader.word.nameOrKeyword r' name) := by
  unfold Reader.word.nameOrKeyword at hd ⊢
  rw [h.called, h.names, h.nameFails_eq]
  split
  · exact h.plainName hu hn
  split
  · next hcalled hfails =>
    rw [if_neg hcalled, if_pos hfails] at hd
    have hfault : (r.dissolve.fault.named name).degraded = true := Reader.degraded_named rfl name
    revert hd
    split <;> simp [hfault]
  · exact h.named hu hn

theorem word (hd : r.word.degraded = false) : Like c c.Inside r.word r'.word := by
  have hn := length_nameAt_le r.rest
  have hs := h.skip hn
  have hhead := hs.ahead.sameLine.ahead_eq
  rw [Reader.rest_skip, Reader.rest_skip] at hhead
  rw [Reader.word_eq] at hd
  rw [Reader.word_eq, Reader.word_eq, h.ahead.sameLine.nameAt_eq, h.called]
  dsimp only at hd ⊢
  rw [hhead]
  by_cases hmark : Ruby.ahead (r.rest.drop (nameAt r.rest).length) = ':'
  · have hline : Ruby.ahead (r.rest.drop (nameAt r.rest).length) ≠ '\n' := by
      rw [hmark]
      decide
    have hsecond := hs.second_eq (by rwa [Reader.rest_skip])
    rw [Reader.rest_skip, Reader.rest_skip] at hsecond
    rw [hsecond]
    split
    · split
      · exact h.plainName hu hn
      · refine (h.meetSkip hu .other ?_).token .operand
        have hpos := lineLength_pos hline
        rw [lineLength_drop hn] at hpos
        omega
    · next hlabel =>
      rw [if_neg hlabel] at hd
      exact h.nameOrKeyword hu hn hd
  · simp only [hmark, false_and, if_false] at hd ⊢
    exact h.nameOrKeyword hu hn hd

end

end Like
end Ruby
end Marginalia
