/-
# Declarations stand

Lines that are blank or comments may be put into a source without changing what
it declares: between two lines, if the source is in plain code there
(`Ruby.Seam`), below a last line that no newline ends, if that line ends as
sources do, and in place of such lines at the top, wherever they are. The lines
of the declarations move with the code (`Ruby.Cut.shift`).

Key definition: `Ruby.Seam`.
Key theorems: `Ruby.declarations_insert`, `Ruby.declarations_append`, `Ruby.declarations_top`.
-/
import Marginalia.Proofs.Ruby.Abreast

namespace Marginalia

open Text

namespace Ruby

/-- Lines of a source above a text are in plain code where they end, and so are what follows them. -/
structure Seam (x tail : Text) : Prop where
  /-- No declared name is read on across. -/
  crosses : ∀ s, Reads (.start (x ++ tail)) s → s.rest ≠ [] → s.crosses tail = false
  /-- The source does not end above. -/
  unended : ∀ s, Reads (.start (x ++ tail)) s → tail.length < s.rest.length → s.endsSource = false
  /-- Between two lines a reader is at rest. -/
  rests : Terminated x → ∃ q, Reads (.start (x ++ tail)) q ∧ q.rest = tail ∧ q.Rests
  /-- A last line that no newline ends leaves nothing open, and announces no here document. -/
  rounded : ¬ Terminated x → ∀ s, Reads (.start (x ++ tail)) s →
    (s.rest ≠ [] → s.Rounded) ∧ (s.rest = [] → s.pending = [])

/-- No `=begin` above the text lacks the `=end` that would make it a block comment. -/
def Settled (x tail : Text) : Prop :=
  ∀ s, Reads (.start (x ++ tail)) s → tail.length < s.rest.length → s.beginsLoosely = false

variable {c : Cut} {A : Text → Place → Text → Place → Prop} {r r' q q' e s : Reader} {x t u tail : Text} {ls hs hs' : List Text}

/-! ### The end mark of block comments -/

theorem Reader.infix_of_afterEndMark? {t after : Text} (h : Reader.afterEndMark? t = some after) :
    "=end".toList <:+: t := by
  fun_induction Reader.afterEndMark? t with
  | case1 rest => exact ⟨[], rest, rfl⟩
  | case2 _ _ _ ih => exact List.infix_cons (List.infix_cons (List.infix_cons (List.infix_cons (ih h))))
  | case3 _ _ _ _ ih => exact List.infix_cons (List.infix_cons (List.infix_cons (ih h)))
  | case4 _ _ _ _ _ ih => exact List.infix_cons (List.infix_cons (ih h))
  | case5 _ _ _ _ _ _ ih => exact List.infix_cons (ih h)
  | case6 => cases h

/-- No block comment ends in lines that hold no `=end`. -/
theorem Reader.afterEndMark?_paragraph (hn : ∀ l ∈ ls, '\n' ∉ l) (he : ∀ l ∈ ls, ¬ "=end".toList <:+: l) :
    Reader.afterEndMark? (paragraph ls) = none := by
  cases h : Reader.afterEndMark? (paragraph ls) with
  | none => rfl
  | some after =>
    obtain ⟨l, hl, hin⟩ := (infix_iff_solidLines (by decide) (by decide)).1 (Reader.infix_of_afterEndMark? h)
    rw [solidLines_paragraph hn] at hl
    exact absurd hin (he l (List.mem_filter.1 hl).1)

/-! ### Where two readings start -/

/-- Readers that have met nothing so far. -/
theorem like_goTo {t' u' : Text} {p p' : Place} (h : A t' p u' p') :
    Like c A ((Reader.start t).goTo t' p) ((Reader.start u).goTo u' p') where
  ahead := h
  frames := .cons ⟨.other .source rfl (fun _ _ h => by cases h), (fun h => by cases h), .nil⟩ .nil
  due := rfl
  spaced := rfl
  called := rfl
  names := rfl
  listing := rfl
  pending := rfl
  lastRest := .inl ⟨rfl, Nat.zero_le _⟩
  degraded := rfl
  bottom := ⟨_, rfl, rfl⟩

theorem like_start (h : A t ⟨1, 0⟩ u ⟨1, 0⟩) : Like c A (.start t) (.start u) := like_goTo (t := t) (u := u) h

theorem rests_start (t : Text) : (Reader.start t).Rests := ⟨rfl, rfl, rfl, rfl⟩

/-- The end of a source comes after everything else. -/
theorem Reads.end_after (h : Reads r e) (he : e.rest = []) (h' : Reads r s) : Reads s e := by
  rcases h'.total h with hs | hs
  · exact hs
  · rcases Relation.ReflTransGen.cases_head hs with rfl | ⟨_, ⟨hne, -⟩, -⟩
    · exact .refl
    · exact absurd he hne

/-! ### Notes are put in -/

/-- What a source has to be like above notes that are put in, and what the notes have to be like. -/
structure Takes (x tail : Text) (ls : List Text) : Prop where
  /-- The source is in plain code where they go. -/
  seam : Seam x tail
  /-- There are notes. -/
  ne_nil : ls ≠ []
  /-- They are blank or comments. -/
  notes : AreNotes ls
  /-- None is empty. -/
  solid : ∀ l ∈ ls, l ≠ []
  /-- They end no block comment that begins above. -/
  begins : (∀ l ∈ ls, ¬ "=end".toList <:+: l) ∨ Settled x tail

/-- Above the notes, every step is passed as it has to be. -/
theorem Takes.passed (h : Takes x c.tail ls) (hsilent : (∀ l ∈ ls, ¬ "=end".toList <:+: l) → c.Silent)
    (hends : c.Ends → ¬ Terminated x) (hs : Reads (.start (x ++ c.tail)) s) (hlt : c.tail.length < s.rest.length) :
    c.Passed s := by
  have hne : s.rest ≠ [] := List.ne_nil_of_length_pos (by omega)
  exact ⟨h.seam.crosses s hs hne, h.seam.unended s hs hlt, h.begins.imp hsilent fun hb => hb s hs hlt,
    fun hc => (h.seam.rounded (hends hc) s hs).1 hne⟩

/-- The cut at which notes are put in between two lines. -/
def insertion (x tail : Text) (ls : List Text) : Cut := ⟨tail, paragraph ls, x.count '\n', x.count '\n' + ls.length⟩

theorem not_ends_insertion (h : Takes x tail ls) : ¬ (insertion x tail ls).Ends := by
  rintro ⟨-, hhead⟩
  obtain ⟨l, ms, rfl⟩ := List.exists_cons_of_ne_nil h.ne_nil
  obtain ⟨d, m, rfl⟩ := List.exists_cons_of_ne_nil (h.solid l List.mem_cons_self)
  obtain rfl : d = '\n' := by simpa [insertion, paragraph_cons] using hhead
  exact h.notes.lines _ List.mem_cons_self List.mem_cons_self

/-- **Notes between two lines of plain code leave the declarations.** -/
theorem declarations_insert (hx : Terminated x) (h : Takes x tail ls) (ht : (outline (x ++ tail)).2 = false) :
    (outline (x ++ (paragraph ls ++ tail))).2 = false ∧
      (outline (x ++ (paragraph ls ++ tail))).1.declarations =
        (outline (x ++ tail)).1.declarations.map (insertion x tail ls).shift := by
  have hc := not_ends_insertion h
  have hstart : Like (insertion x tail ls) (insertion x tail ls).Near (.start (x ++ tail))
      (.start (x ++ (paragraph ls ++ tail))) := by
    refine like_start ?_
    rcases hx with rfl | hx
    · exact .between
    · have hpos : 1 ≤ x.count '\n' := List.count_pos_iff.2 (List.mem_of_getLast? hx)
      have hmove : (insertion x tail ls).move ⟨1, 0⟩ = ⟨1, 0⟩ := by
        rw [Cut.move, Cut.line_of_le hpos (Nat.le_add_right _ _)]
      have habove := Cut.Inside.above (c := insertion x tail ls) x ⟨1, 0⟩ (Nat.le_add_right _ _) hc hx (Nat.add_comm _ _)
      rw [hmove] at habove
      exact .inside habove
  refine declarations_eq_map_shift ht fun e hread hr hd => ?_
  obtain ⟨q, hq, hqr, hrest⟩ := h.seam.rests hx
  have hqe : Reads q e := hread.end_after hr hq
  obtain ⟨q', hq', hlike⟩ := hstart.reads_above hq hqr (hqe.degraded_eq_false hd) fun s =>
    h.passed (c := insertion x tail ls)
      (fun he => ⟨terminated_paragraph ls, Reader.afterEndMark?_paragraph h.notes.lines he⟩) fun h => absurd h hc
  obtain ⟨s', hs', hin⟩ := hlike.reads_notes hqr hrest rfl h.notes rfl
  obtain ⟨e', he', hend⟩ := hin.reads_below hc (Nat.le_of_eq (congrArg List.length hqr)) hqe hd
    fun s hs hne => h.seam.crosses s (hq.trans hs) hne
  exact ⟨hend.bottom, e', (hq'.trans hs').trans he', (hend.ahead.eq_nil_iff hc).2 hr, hend.degraded.trans hd, hend.frames⟩

/-! ### Notes below the last line -/

/-- The cut at which notes are put below a last line that no newline ends. -/
def addition (x : Text) (ls : List Text) : Cut :=
  ⟨[], '\n' :: paragraph ls, x.count '\n' + 1, x.count '\n' + 1 + ls.length⟩

/-- Where the first text ends, the second has notes. -/
theorem Like.rest_cases_of_ends (h : Like c c.Near q q') (hc : c.Ends) (hr : q.rest = []) :
    q'.rest = [] ∨ q'.rest = c.notes := by
  rcases h.ahead.inside_or_between with hin | ⟨-, hrest, -⟩
  · rw [hr] at hin
    generalize ht : q'.rest = t at hin
    generalize hs : ([] : Text) = s at hin
    generalize q'.place = p' at hin
    cases hin with
    | above _ _ _ hn => exact absurd hc hn
    | ending => exact .inr (by rw [← hs, List.nil_append])
    | below => exact .inl rfl
  · exact .inr (by rw [hrest, hc.1, List.append_nil])

/-- What comes last leaves nothing open. -/
theorem Seam.opening_eq (h : Seam x []) (hx : ¬ Terminated x) (hread : Reads (.start (x ++ [])) e) (hr : e.rest = []) :
    e.opening = .source := by
  rcases Relation.ReflTransGen.cases_tail hread with rfl | ⟨s, hs, hne, rfl⟩
  · exact absurd (.inl ((List.append_nil x).symm.trans hr)) hx
  · exact (((h.rounded hx s hs).1 hne).closed hr).1

/-- **Notes below the last line leave the declarations**, also if no newline ends it. -/
theorem declarations_append (hx : ¬ Terminated x) (h : Takes x [] ls) (ht : (outline x).2 = false) :
    (outline (x ++ '\n' :: paragraph ls)).2 = false ∧
      (outline (x ++ '\n' :: paragraph ls)).1.declarations =
        (outline x).1.declarations.map (addition x ls).shift := by
  have hc : (addition x ls).Ends := ⟨rfl, rfl⟩
  have hstart : Like (addition x ls) (addition x ls).Near (.start x) (.start (x ++ '\n' :: paragraph ls)) := by
    have hmove : (addition x ls).move ⟨1, 0⟩ = ⟨1, 0⟩ := by
      rw [Cut.move, Cut.line_of_le (Nat.le_add_left 1 _) (Nat.le_add_right _ _)]
    have hending := Cut.Inside.ending (c := addition x ls) x ⟨1, 0⟩ (Nat.le_add_right _ _) hc (Nat.add_comm _ _)
    rw [hmove] at hending
    exact like_start (.inside hending)
  refine declarations_eq_map_shift ht fun e hread hr hd => ?_
  have hnil : Reads (.start (x ++ [])) e := by rwa [List.append_nil]
  obtain ⟨e', he', hlike⟩ := hstart.reads_above hread hr hd fun s hs =>
    h.passed (c := addition x ls) (fun he => ⟨terminated_line_iff (r := []).2 (terminated_paragraph ls), by
      rw [addition, Reader.afterEndMark?_newline, Reader.afterEndMark?_paragraph h.notes.lines he]⟩) (fun _ => hx)
      (by rwa [addition, List.append_nil])
  refine ⟨hlike.bottom, ?_⟩
  rcases hlike.rest_cases_of_ends hc hr with hr' | hr'
  · exact ⟨e', he', hr', hlike.degraded.trans hd, hlike.frames⟩
  · have ho' : e'.opening = .source := (hlike.opening.eq_iff rfl).2 (h.seam.opening_eq hx hnil hr)
    have hp' : e'.pending = [] := hlike.pending.trans ((h.seam.rounded hx e hnil).2 hr)
    obtain ⟨s, hs, hrests, hsr, hcol, hframes, hdeg⟩ := Reader.exists_rests_newline ho' hp' hr'
    have hnotes := hrests.reads_notes (t := []) (by rw [hsr, List.append_nil]) hcol h.notes
    refine ⟨_, (he'.trans hs).trans hnotes, rfl, (hdeg.trans hlike.degraded).trans hd, ?_⟩
    show List.Forall₂ _ e.frames s.frames
    rw [hframes]
    exact hlike.frames

/-! ### Notes at the top -/

/-- The cut below `m` lines at the top of the first text and `n` lines at the top of the second. -/
def exchange (tail : Text) (m n : Nat) : Cut := ⟨tail, ['#'], m - n, n - m⟩

theorem exchange_below (tail : Text) (m n : Nat) :
    (exchange tail m n).Inside tail ⟨1 + m, 0⟩ tail ⟨1 + n, 0⟩ := by
  have hlt : (exchange tail m n).above < 1 + m := by
    show m - n < _
    omega
  have hmove : (exchange tail m n).move ⟨1 + m, 0⟩ = ⟨1 + n, 0⟩ := by
    rw [Cut.move, Cut.line_of_lt hlt]
    show (⟨1 + m - (m - n) + (n - m), 0⟩ : Place) = _
    congr 1
    omega
  rw [← hmove]
  exact .below _ _ (Nat.le_refl _) hlt

/-- **Notes at the top may be exchanged for others**, whatever stands below them. -/
theorem declarations_top (hl : AreNotes hs) (hl' : AreNotes hs') (ht : (outline (paragraph hs ++ tail)).2 = false) :
    (outline (paragraph hs' ++ tail)).2 = false ∧ (outline (paragraph hs' ++ tail)).1.declarations =
      (outline (paragraph hs ++ tail)).1.declarations.map (exchange tail hs.length hs'.length).shift := by
  refine declarations_eq_map_shift ht fun e hread hr hd => ?_
  have hq := (rests_start (paragraph hs ++ tail)).reads_notes rfl rfl hl
  have hq' := (rests_start (paragraph hs' ++ tail)).reads_notes rfl rfl hl'
  have hqe := hread.end_after hr hq
  have hc (m n : Nat) : ¬ (exchange tail m n).Ends := by
    rintro ⟨-, h⟩
    revert h
    simp [exchange]
  have hself := like_goTo (c := exchange tail hs.length hs.length) (t := paragraph hs ++ tail)
    (u := paragraph hs ++ tail) (exchange_below tail hs.length hs.length)
  obtain ⟨e', he', hend⟩ := (like_goTo (c := exchange tail hs.length hs'.length) (t := paragraph hs ++ tail)
    (u := paragraph hs' ++ tail) (exchange_below tail hs.length hs'.length)).reads_below (hc _ _) (Nat.le_refl _)
    hqe hd fun s hs _ => (hself.reads_self (List.cons_ne_nil _ _) (hc _ _) (Nat.le_refl _) hs
      ((hqe.end_after hr hs).degraded_eq_false hd)).crosses_self (List.cons_ne_nil _ _)
  exact ⟨hend.bottom, e', hq'.trans he', (hend.ahead.eq_nil_iff (hc _ _)).2 hr, hend.degraded.trans hd, hend.frames⟩

/-- Notes alone declare nothing. -/
theorem declarations_eq_nil {l : Text} (hl : AreNotes ls) (hn : '\n' ∉ l) (hl' : isNote l = true) :
    (outline (paragraph ls ++ l)).1.declarations = [] := by
  have hnotes := (rests_start (paragraph ls ++ l)).reads_notes rfl rfl hl
  obtain ⟨n, hline⟩ := ((rests_start (paragraph ls ++ l)).goTo l ⟨1 + ls.length, 0⟩).reads_line
    (List.append_nil l).symm hn hl' detached_nil
  rw [outline_eq (hnotes.trans hline) rfl rfl rfl]
  rfl

/-- Notes alone declare nothing, whether or not a newline ends the last of them. -/
theorem declarations_eq_nil_of_notes (hl : AreNotes ls) (ht : t = paragraph ls ∨ t ++ ['\n'] = paragraph ls) :
    (outline t).1.declarations = [] := by
  rcases ht with rfl | ht
  · have hnone := declarations_eq_nil hl List.not_mem_nil isNote_nil
    rwa [List.append_nil] at hnone
  · rcases List.eq_nil_or_concat ls with rfl | ⟨init, r, rfl⟩
    · simp at ht
    · rw [List.concat_eq_append, paragraph_append, paragraph_cons, paragraph_nil, ← List.append_assoc,
        List.append_cancel_right_eq] at ht
      have hlast := hl r (by simp)
      have hinit : AreNotes init := fun l hm => hl l (by simp [hm])
      rw [ht]
      exact declarations_eq_nil hinit hlast.1 hlast.2

end Ruby
end Marginalia
