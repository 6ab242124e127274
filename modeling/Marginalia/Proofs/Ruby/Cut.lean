/-
# Two readers side by side

Two texts end alike, below a line of each. A reader of the one and a reader of
the other are alike (`Ruby.Like`) if both are still above that line and what is
left to be read begins alike, or both are below it; what they have read then
differs by the numbers of lines alone. If nothing is below that line, the first
text may end without a newline (`Ruby.Cut.Ends`). This module says that the
parts of a step keep readers alike; `Ruby.Cut.Inside` says where the readers
are.

Key definitions: `Ruby.Cut`, `Ruby.Cut.Kept`, `Ruby.Cut.Inside`, `Ruby.Cut.Near`, `Ruby.Like`.
Key theorems: `Ruby.Like.pop`, `Ruby.Like.next`, `Ruby.Like.skip`.
-/
import Mathlib.Data.List.Forall2
import Mathlib.Order.Lattice
import Marginalia.Proofs.Ruby.Lookahead

namespace Marginalia

/-- The place past a character. -/
def Place.past (p : Place) (d : Char) : Place :=
  if d = '\n' then ⟨p.line + 1, 0⟩ else ⟨p.line, p.column + d.utf8Size⟩

namespace Ruby

/-- Whether a class or module definition was opened. -/
def Opening.isDefinition : Opening → Bool
  | .definition .. => true
  | _ => false

/-- What two texts end with, and where it begins. -/
structure Cut where
  /-- What both texts end with. -/
  tail : Text
  /-- What stands in front of it in the second text alone. -/
  notes : Text
  /-- The number of lines above the tail in the first text. -/
  above : Nat
  /-- The number of lines above the tail in the second text. -/
  above' : Nat

namespace Cut

variable {c : Cut} {s s' t : Text} {p p' : Place}

/-! ### Lines of the two texts -/

/-- The line of the second text for one of the first. -/
def line (c : Cut) (l : Nat) : Nat := if l ≤ c.above then min l c.above' else l - c.above + c.above'

/-- The place in the second text for one in the first. -/
def move (c : Cut) (p : Place) : Place := ⟨c.line p.line, p.column⟩

/-- The declaration as it stands in the second text. -/
def shift (c : Cut) (d : Declaration) : Declaration :=
  .spanning d.kind d.name d.scopes d.writtenPath (c.line d.line) d.column (c.line d.endLine)

/-- No line above the tail moves if none is taken away there. -/
theorem line_of_le {l : Nat} (h : l ≤ c.above) (hle : c.above ≤ c.above') : c.line l = l := by
  rw [line, if_pos h, Nat.min_eq_left (h.trans hle)]

theorem line_of_lt {l : Nat} (h : c.above < l) : c.line l = l - c.above + c.above' := by
  rw [line, if_neg (Nat.not_le_of_lt h)]

theorem line_mono (c : Cut) {k l : Nat} (h : k ≤ l) : c.line k ≤ c.line l := by
  unfold line
  split <;> split <;> omega

theorem line_max (c : Cut) (k l : Nat) : c.line (max k l) = max (c.line k) (c.line l) := by
  rcases Nat.le_total k l with h | h
  · rw [Nat.max_eq_right h, Nat.max_eq_right (c.line_mono h)]
  · rw [Nat.max_eq_left h, Nat.max_eq_left (c.line_mono h)]

theorem shift_spanning (c : Cut) (kind : Declaration.Kind) (name : String) (scopes : List String) (written : String)
    (line column last : Nat) : c.shift (.spanning kind name scopes written line column last) =
      .spanning kind name scopes written (c.line line) column (c.line last) := by
  simp [shift, Declaration.spanning, c.line_max]

/-! ### Texts that are remembered -/

/-- What was left at a place of the first text, and what was left at that place of the second. -/
def Kept (c : Cut) (s s' : Text) : Prop :=
  s' = s ∧ s.length ≤ c.tail.length ∨ ∃ y, s = y ++ c.tail ∧ s' = y ++ (c.notes ++ c.tail)

/-- The first text ends where the second one goes on with a newline. -/
def Ends (c : Cut) : Prop := c.tail = [] ∧ c.notes.head? = some '\n'

/-- What was left where a name began. -/
def Begun (c : Cut) (s s' : Text) : Prop := c.Kept s s' ∧ (s' = s ∨ c.tail.length < s.length)

/-! ### Openings, frames and outlines -/

/-- What opened a stretch in both texts. -/
inductive LikeOpening (c : Cut) : Opening → Opening → Prop
  /-- A definition. -/
  | definition (kind : Declaration.Kind) (phase : NamePhase) {s s' : Text} (name : Option DeclaredName)
      (h : c.Begun s s') : LikeOpening c (.definition kind phase s name) (.definition kind phase s' name)
  /-- Anything else. No quoted stretch ends with a line. -/
  | other (o : Opening) (hd : o.isDefinition = false) (hq : ∀ q depth, o = .quoted q depth → q.close ≠ '\n') :
      LikeOpening c o o

/-- The outlines declare the same. -/
def LikeOutline (c : Cut) (o o' : Outline) : Prop :=
  ∀ scopes, o'.declarationsIn scopes = (o.declarationsIn scopes).map c.shift

/-- The same stretch in both texts. -/
structure LikeFrame (c : Cut) (f f' : Frame) : Prop where
  /-- What opened it. -/
  opening : c.LikeOpening f.opening f'.opening
  /-- Where a definition starts. -/
  start : f.opening.isDefinition → f'.start = c.move f.start
  /-- What was closed inside. -/
  parts : List.Forall₂ c.LikeOutline f.parts f'.parts

theorem LikeOutline.declarationsOf {os os' : List Outline} (h : List.Forall₂ c.LikeOutline os os')
    (scopes : List String) :
    Outline.declarationsOf scopes os' = (Outline.declarationsOf scopes os).map c.shift := by
  induction h with
  | nil => rfl
  | cons ho _ ih => rw [Outline.declarationsOf, Outline.declarationsOf, List.map_append, ho, ih]

theorem outline_eq_group {f : Frame} (h : f.opening.isDefinition = false) (p : Place) :
    f.outline p = .group f.start p f.parts.reverse := by
  unfold Frame.outline
  split
  · next ho =>
    rw [ho] at h
    cases h
  · rfl

/-- A stretch that is closed at the same place in both texts. -/
theorem LikeFrame.outline {f f' : Frame} (h : c.LikeFrame f f') (hp : f.opening.isDefinition → p' = c.move p) :
    c.LikeOutline (f.outline p) (f'.outline p') := by
  intro scopes
  have hparts (scopes : List String) := LikeOutline.declarationsOf (List.rel_reverse h.parts) scopes
  obtain ⟨o, start, parts⟩ := f
  obtain ⟨o', start', parts'⟩ := f'
  obtain ⟨ho, hs, -⟩ := h
  cases ho with
  | definition kind phase name h =>
    cases name with
    | none => exact hparts scopes
    | some name =>
      obtain rfl : start' = c.move start := hs rfl
      obtain rfl : p' = c.move p := hp rfl
      simp only [Frame.outline, Outline.declarationsIn, List.map_cons, c.shift_spanning, hparts, move]
  | other o hd hq =>
    rw [outline_eq_group hd, outline_eq_group (f := ⟨o, start', parts'⟩) hd]
    exact hparts scopes

/-! ### Where the readers are -/

/-- The readers are inside of the texts: both have lines above the tail before them, or the same end of
the tail. -/
inductive Inside (c : Cut) : Text → Place → Text → Place → Prop
  /-- Above the tail. -/
  | above (x : Text) (p : Place) (hle : c.above ≤ c.above') (hc : ¬ c.Ends) (hx : x.getLast? = some '\n')
      (hp : p.line + x.count '\n' = c.above + 1) : Inside c (x ++ c.tail) p (x ++ (c.notes ++ c.tail)) (c.move p)
  /-- On a line that the end of the first text ends, or above it. -/
  | ending (x : Text) (p : Place) (hle : c.above ≤ c.above') (hc : c.Ends) (hp : p.line + x.count '\n' = c.above) :
      Inside c x p (x ++ c.notes) (c.move p)
  /-- In the tail. -/
  | below (s : Text) (p : Place) (hs : s.length ≤ c.tail.length) (hp : c.above < p.line) :
      Inside c s p s (c.move p)

/-- The readers are inside of the texts, or just above the tail. -/
inductive Near (c : Cut) : Text → Place → Text → Place → Prop
  /-- Inside. -/
  | inside {s s' : Text} {p p' : Place} (h : c.Inside s p s' p') : Near c s p s' p'
  /-- Just above the tail in the first text, and above the notes in the second. -/
  | between : Near c c.tail ⟨c.above + 1, 0⟩ (c.notes ++ c.tail) ⟨c.above + 1, 0⟩

theorem Inside.place_eq (h : c.Inside s p s' p') : p' = c.move p := by
  cases h <;> rfl

theorem Inside.sameLine (h : c.Inside s p s' p') : SameLine s s' := by
  cases h with
  | above x p hle hc hx hp => exact .of_append hx _ _
  | ending _ p hle hc hp =>
    obtain ⟨u, hu⟩ := List.head?_eq_some_iff.1 hc.2
    rw [hu]
    exact .append_newline s u
  | below s p hs hp => exact .same s

/-- In the tail nothing is different. -/
theorem Inside.eq_of_length_le (h : c.Inside s p s' p') (hne : s ≠ []) (hs : s.length ≤ c.tail.length) : s' = s := by
  cases h with
  | above x p hle hc hx hp =>
    have h0 : x = [] := List.length_eq_zero_iff.1 (by rw [List.length_append] at hs; omega)
    rw [h0] at hx
    cases hx
  | ending x p hle hc hp =>
    rw [hc.1] at hs
    exact absurd (List.length_eq_zero_iff.1 (Nat.le_zero.1 hs)) hne
  | below s p hs hp => rfl

/-- If the first text does not end on a line, there is a newline ahead as long as the texts differ. -/
theorem Inside.eq_or_newline (h : c.Inside s p s' p') (hc : ¬ c.Ends) : s' = s ∨ '\n' ∈ s := by
  cases h with
  | above x p hle hc hx hp => exact .inr (List.mem_append_left _ (List.mem_of_getLast? hx))
  | ending _ p hle hend hp => exact absurd hend hc
  | below s p hs hp => exact .inl rfl

theorem Inside.kept (h : c.Inside s p s' p') : c.Kept s s' := by
  cases h with
  | above x p hle hc hx hp => exact .inr ⟨x, rfl, rfl⟩
  | ending _ p hle hc hp => exact .inr ⟨s, by rw [hc.1, List.append_nil], by rw [hc.1, List.append_nil]⟩
  | below s p hs hp => exact .inl ⟨rfl, hs⟩

theorem Inside.begun (h : c.Inside s p s' p') (hne : s ≠ []) : c.Begun s s' := by
  refine ⟨h.kept, ?_⟩
  rcases Nat.lt_or_ge c.tail.length s.length with hlt | hle
  · exact .inr hlt
  · exact .inl (h.eq_of_length_le hne hle)

/-- If the first text does not end on a line, both texts end together. -/
theorem Inside.eq_nil_iff (h : c.Inside s p s' p') (hc : ¬ c.Ends) : s' = [] ↔ s = [] := by
  cases h with
  | above x p hle hc hx hp =>
    have hne : x ≠ [] := by rintro rfl; cases hx
    simp [hne]
  | ending x p hle hend hp => exact absurd hend hc
  | below s p hs hp => exact .rfl

/-- Both readers pass over the same character. They stay inside, or it is the newline above the tail. -/
theorem Inside.past {d : Char} {t : Text} (h : c.Inside (d :: t) p s' p') : ∃ t', s' = d :: t' ∧
    (c.Inside t (p.past d) t' (p'.past d) ∨
      ¬ c.Ends ∧ d = '\n' ∧ t = c.tail ∧ t' = c.notes ++ c.tail ∧ p.past d = ⟨c.above + 1, 0⟩ ∧
        p'.past d = ⟨c.above + 1, 0⟩) := by
  generalize hs : d :: t = s at h
  cases h with
  | above x p hle hc hx hp =>
    cases x with
    | nil => cases hx
    | cons d x =>
      obtain ⟨rfl, rfl⟩ := List.cons_eq_cons.1 hs
      refine ⟨_, rfl, ?_⟩
      by_cases hd : d = '\n'
      · subst hd
        rw [List.count_cons_self] at hp
        cases x with
        | nil =>
          rw [List.count_nil] at hp
          have hline : c.line p.line = p.line := by
            unfold line
            split <;> omega
          refine .inr ⟨hc, rfl, rfl, rfl, ?_, ?_⟩ <;> simp [Place.past, move] <;> omega
        | cons e x =>
          have hx' : (e :: x).getLast? = some '\n' := by simpa using hx
          have hpos : 0 < (e :: x).count '\n' := List.count_pos_iff.2 (List.mem_of_getLast? hx')
          have hpast : (c.move p).past '\n' = c.move (p.past '\n') := by
            simp only [Place.past, move, line, if_true]
            congr 1
            split <;> split <;> omega
          rw [hpast]
          exact .inl (.above _ _ hle hc hx' (by simp only [Place.past, if_true]; omega))
      · cases x with
        | nil => simp [hd] at hx
        | cons e x =>
          have hpast : (c.move p).past d = c.move (p.past d) := by simp only [Place.past, move, hd, if_false]
          rw [hpast]
          refine .inl (.above _ _ hle hc (by simpa using hx) ?_)
          rw [List.count_cons_of_ne hd] at hp
          simpa only [Place.past, hd, if_false] using hp
  | ending x p hle hc hp =>
    subst hs
    refine ⟨_, rfl, .inl ?_⟩
    have hpast : (c.move p).past d = c.move (p.past d) := by
      simp only [Place.past, move, line]
      by_cases hd : d = '\n'
      · subst hd
        rw [List.count_cons_self] at hp
        simp only [if_true]
        congr 1
        split <;> split <;> omega
      · simp only [hd, if_false]
    rw [hpast]
    refine .ending _ _ hle hc ?_
    simp only [Place.past]
    by_cases hd : d = '\n'
    · subst hd
      rw [List.count_cons_self] at hp
      simp only [if_true]
      omega
    · rw [List.count_cons_of_ne hd] at hp
      simpa only [hd, if_false] using hp
  | below s p hlen hp =>
    subst hs
    have hpast : (c.move p).past d = c.move (p.past d) := by
      simp only [Place.past, move, line]
      by_cases hd : d = '\n'
      · simp only [hd, if_true]
        congr 1
        split <;> split <;> omega
      · simp only [hd, if_false]
    refine ⟨t, rfl, .inl ?_⟩
    rw [hpast]
    refine .below _ _ (Nat.le_of_succ_le hlen) ?_
    simp only [Place.past]
    split <;> simp <;> omega

theorem Near.kept (h : c.Near s p s' p') : c.Kept s s' := by
  cases h with
  | inside h => exact h.kept
  | between => exact .inr ⟨[], rfl, rfl⟩

end Cut

/-! ### Readers -/

variable {c : Cut} {A : Text → Place → Text → Place → Prop} {r r' : Reader} {n : Nat}

/-- The outermost stretch is no definition. -/
def Reader.Grounded (r : Reader) : Prop := ∃ f ∈ r.frames.getLast?, f.opening.isDefinition = false

/-- The readers have read the same, and are where `A` says. -/
structure Like (c : Cut) (A : Text → Place → Text → Place → Prop) (r r' : Reader) : Prop where
  /-- What is left. -/
  ahead : A r.rest r.place r'.rest r'.place
  /-- What is open. -/
  frames : List.Forall₂ c.LikeFrame r.frames r'.frames
  /-- What is due. -/
  due : r'.due = r.due
  /-- Whether a gap stands before the rest. -/
  spaced : r'.spaced = r.spaced
  /-- Whether a method is called. -/
  called : r'.called = r.called
  /-- The number of names to come. -/
  names : r'.names = r.names
  /-- Whether a comma continues them. -/
  listing : r'.listing = r.listing
  /-- The here documents to come. -/
  pending : r'.pending = r.pending
  /-- What was left at the end of the last token. -/
  lastRest : c.Kept r.lastRest r'.lastRest
  /-- Whether a fault was met. -/
  degraded : r'.degraded = r.degraded
  /-- The outermost stretch is no definition. -/
  bottom : r.Grounded

namespace Like

/-- Other stretches may be open, as long as they are alike. -/
theorem withFrames (h : Like c A r r') {fs fs' : List Frame} (hf : List.Forall₂ c.LikeFrame fs fs')
    (hb : ∃ f ∈ fs.getLast?, f.opening.isDefinition = false) :
    Like c A { r with frames := fs } { r' with frames := fs' } := { h with frames := hf, bottom := hb }

/-- The innermost stretches are alike. -/
theorem opening (h : Like c A r r') : c.LikeOpening r.opening r'.opening := by
  unfold Reader.opening
  cases hr : r.frames with
  | nil =>
    have hr' : r'.frames = [] := List.forall₂_nil_left_iff.1 (hr ▸ h.frames)
    rw [hr']
    exact .other .source rfl fun _ _ h => by cases h
  | cons f fs =>
    obtain ⟨f', fs', hf, -, hr'⟩ := List.forall₂_cons_left_iff.1 (hr ▸ h.frames)
    rw [hr']
    exact hf.opening

theorem setOpening (h : Like c A r r') {o o' : Opening} (ho : c.LikeOpening o o')
    (hd : o.isDefinition → r.opening.isDefinition) : Like c A (r.setOpening o) (r'.setOpening o') := by
  unfold Reader.setOpening
  unfold Reader.opening at hd
  cases hr : r.frames with
  | nil =>
    have hr' : r'.frames = [] := List.forall₂_nil_left_iff.1 (hr ▸ h.frames)
    rw [hr']
    exact h
  | cons f fs =>
    obtain ⟨f', fs', hf, hfs, hr'⟩ := List.forall₂_cons_left_iff.1 (hr ▸ h.frames)
    have hb := h.bottom
    rw [Reader.Grounded, hr] at hb
    rw [hr] at hd
    rw [hr']
    refine h.withFrames (.cons ⟨ho, fun h => hf.start (hd h), hf.parts⟩ hfs) ?_
    cases fs with
    | nil =>
      obtain ⟨g, hg, hn⟩ := hb
      obtain rfl : f = g := by simpa using hg
      exact ⟨_, rfl, Bool.eq_false_iff.2 fun h => Bool.eq_false_iff.1 hn (hd h)⟩
    | cons g fs => simpa using hb

theorem push (h : Like c A r r') {o : Opening} (ho : c.LikeOpening o o) {p p' : Place}
    (hp : o.isDefinition → p' = c.move p) : Like c A (r.push o p) (r'.push o p') :=
  have hb := h.bottom
  h.withFrames (.cons ⟨ho, hp, .nil⟩ h.frames) (by
    obtain ⟨f, hf, hn⟩ := hb
    exact ⟨f, List.mem_getLast?_cons hf, hn⟩)

/-- An inner stretch may be dropped, and other parts put into the one around it. -/
theorem grounded_cons {f g : Frame} {fs : List Frame} {parts : List Outline}
    (h : ∃ e ∈ (f :: g :: fs).getLast?, e.opening.isDefinition = false) :
    ∃ e ∈ ({ g with parts } :: fs).getLast?, e.opening.isDefinition = false := by
  obtain ⟨e, he, hd⟩ := h
  cases fs with
  | nil =>
    obtain rfl : g = e := by simpa using he
    exact ⟨_, rfl, hd⟩
  | cons i fs => exact ⟨e, by simpa using he, hd⟩

/-- A stretch is closed. -/
theorem pop (h : Like c A r r') {p p' : Place} (hp : r.opening.isDefinition → p' = c.move p) :
    Like c A (r.pop p) (r'.pop p') := by
  unfold Reader.pop
  unfold Reader.opening at hp
  rcases hr : r.frames with _ | ⟨f, _ | ⟨g, fs⟩⟩
  · have hr' : r'.frames = [] := List.forall₂_nil_left_iff.1 (hr ▸ h.frames)
    rw [hr']
    exact h
  · obtain ⟨f', fs', hf, hfs, hr'⟩ := List.forall₂_cons_left_iff.1 (hr ▸ h.frames)
    rw [List.forall₂_nil_left_iff] at hfs
    rw [hr', hfs]
    exact h
  · obtain ⟨f', fs', hf, hfs, hr'⟩ := List.forall₂_cons_left_iff.1 (hr ▸ h.frames)
    obtain ⟨g', gs', hg, hgs, rfl⟩ := List.forall₂_cons_left_iff.1 hfs
    have hb := h.bottom
    rw [Reader.Grounded, hr] at hb
    rw [hr] at hp
    rw [hr']
    exact h.withFrames (.cons ⟨hg.opening, hg.start, .cons (hf.outline hp) hg.parts⟩ hgs) (grounded_cons hb)

/-- A stretch is dropped, and its parts are kept. -/
theorem dissolve (h : Like c A r r') : Like c A r.dissolve r'.dissolve := by
  unfold Reader.dissolve
  rcases hr : r.frames with _ | ⟨f, _ | ⟨g, fs⟩⟩
  · have hr' : r'.frames = [] := List.forall₂_nil_left_iff.1 (hr ▸ h.frames)
    rw [hr']
    exact h
  · obtain ⟨f', fs', hf, hfs, hr'⟩ := List.forall₂_cons_left_iff.1 (hr ▸ h.frames)
    rw [List.forall₂_nil_left_iff] at hfs
    rw [hr', hfs]
    exact h
  · obtain ⟨f', fs', hf, hfs, hr'⟩ := List.forall₂_cons_left_iff.1 (hr ▸ h.frames)
    obtain ⟨g', gs', hg, hgs, rfl⟩ := List.forall₂_cons_left_iff.1 hfs
    have hb := h.bottom
    rw [Reader.Grounded, hr] at hb
    rw [hr']
    exact h.withFrames (.cons ⟨hg.opening, hg.start, List.rel_append hf.parts hg.parts⟩ hgs) (grounded_cons hb)

theorem fault (h : Like c A r r') : Like c A r.fault r'.fault := { h with degraded := rfl }

theorem setDue (h : Like c A r r') (d : Due) : Like c A { r with due := d } { r' with due := d } :=
  { h with due := rfl }

theorem setSpaced (h : Like c A r r') : Like c A { r with spaced := true } { r' with spaced := true } :=
  { h with spaced := rfl }

theorem setNames (h : Like c A r r') (n : Nat) : Like c A { r with names := n } { r' with names := n } :=
  { h with names := rfl }

theorem setCalled (h : Like c A r r') (b : Bool) : Like c A { r with called := b } { r' with called := b } :=
  { h with called := rfl }

theorem endStatement (h : Like c A r r') : Like c A r.endStatement r'.endStatement :=
  { h with due := rfl, names := rfl, listing := rfl }

theorem token (h : Like c c.Inside r r') (d : Due) : Like c c.Inside (r.token d) (r'.token d) :=
  { h with due := rfl, spaced := rfl, called := rfl, lastRest := h.ahead.kept }

/-- A token that is one of the names to come. -/
theorem tokenName (h : Like c c.Inside r r') (d : Due) :
    Like c c.Inside { r.token d with names := r.names - 1 } { r'.token d with names := r'.names - 1 } :=
  { h.token d with names := congrArg (· - 1) h.names }

/-- One more here document is to come. -/
theorem await (h : Like c A r r') (doc : Heredoc) :
    Like c A { r with pending := r.pending ++ [doc] } { r' with pending := r'.pending ++ [doc] } :=
  { h with pending := congrArg (· ++ [doc]) h.pending }

theorem tokenNear (h : Like c c.Near r r') (d : Due) : Like c c.Near (r.token d) (r'.token d) :=
  { h with due := rfl, spaced := rfl, called := rfl, lastRest := h.ahead.kept }

theorem near (h : Like c c.Inside r r') : Like c c.Near r r' := { h with ahead := .inside h.ahead }

/-! ### Characters are passed over -/

/-- Both readers pass over the next character. They stay inside, or it is the newline above the tail. -/
theorem next_cases (h : Like c c.Inside r r') (hne : r.rest = [] → ¬ c.Ends) : Like c c.Inside r.next r'.next ∨
    Like c c.Near r.next r'.next ∧ ¬ c.Ends ∧ r.rest = '\n' :: c.tail := by
  have ha := h.ahead
  cases hr : r.rest with
  | nil =>
    have hr' : r'.rest = [] := (ha.eq_nil_iff (hne hr)).2 hr
    rw [Reader.next, Reader.next, hr, hr']
    exact .inl h
  | cons d t =>
    rw [hr] at ha
    obtain ⟨t', hr', hpast⟩ := ha.past
    have hnext : r.next = { r with rest := t, place := r.place.past d } := by rw [Reader.next, hr]; rfl
    have hnext' : r'.next = { r' with rest := t', place := r'.place.past d } := by rw [Reader.next, hr']; rfl
    rw [hnext, hnext']
    rcases hpast with hin | ⟨hc, rfl, rfl, rfl, hp, hp'⟩
    · exact .inl { h with ahead := hin }
    · refine .inr ⟨{ h with ahead := ?_ }, hc, rfl⟩
      rw [hp, hp']
      exact .between

theorem nextNear (h : Like c c.Inside r r') (hne : r.rest = [] → ¬ c.Ends) : Like c c.Near r.next r'.next :=
  (h.next_cases hne).elim near And.left

/-- They stay inside as long as they stay on the line. -/
theorem next (h : Like c c.Inside r r') (hr : Ruby.ahead r.rest ≠ '\n') : Like c c.Inside r.next r'.next :=
  (h.next_cases fun hn => absurd (by rw [hn]; rfl) hr).resolve_right fun hn => hr (by rw [hn.2.2]; rfl)

theorem skip {n : Nat} (h : Like c c.Inside r r') (hn : n ≤ lineLength r.rest) :
    Like c c.Inside (r.skip n) (r'.skip n) := by
  induction n generalizing r r' with
  | zero => exact h
  | succ n ih =>
    cases hr : r.rest with
    | nil => simp [hr, lineLength] at hn
    | cons d t =>
      have hd : d ≠ '\n' := by
        rintro rfl
        simp [hr, lineLength] at hn
      rw [hr, lineLength_cons hd] at hn
      exact ih (h.next (by rwa [hr, ahead_cons])) (by rw [Reader.rest_next, hr]; exact Nat.le_of_succ_le_succ hn)

/-- They stay inside as well if they do not come to the tail, or are in it, or the first text ends there. -/
theorem skipFar {n : Nat} (h : Like c c.Inside r r') (hn : c.tail.length + n < r.rest.length ∨
    r.rest.length ≤ c.tail.length ∧ ¬ c.Ends ∨ n ≤ r.rest.length ∧ c.Ends) :
    Like c c.Inside (r.skip n) (r'.skip n) := by
  induction n generalizing r r' with
  | zero => exact h
  | succ n ih =>
    have hne : r.rest = [] → ¬ c.Ends := fun h0 hc => by
      rw [h0] at hn
      rcases hn with hn | hn | hn
      · exact Nat.not_lt_zero _ hn
      · exact hn.2 hc
      · exact Nat.not_succ_le_zero _ hn.1
    rcases h.next_cases hne with hin | ⟨-, hc, hr⟩
    · refine ih hin ?_
      rw [Reader.rest_next, List.length_tail]
      rcases hn with hn | ⟨hn, hc⟩ | ⟨hn, hc⟩
      · exact .inl (by omega)
      · exact .inr (.inl ⟨by omega, hc⟩)
      · exact .inr (.inr ⟨by omega, hc⟩)
    · rw [hr, List.length_cons] at hn
      rcases hn with hn | ⟨hn, -⟩ | ⟨-, hends⟩
      · omega
      · omega
      · exact absurd hends hc

theorem skipWhile (h : Like c c.Inside r r') {p : Char → Bool} (hp : p '\n' = false) :
    Like c c.Inside (r.skipWhile p) (r'.skipWhile p) := by
  rw [Reader.skipWhile, Reader.skipWhile, h.ahead.sameLine.takeWhile_eq hp]
  exact h.skip (length_takeWhile_le_lineLength hp _)

end Like
end Ruby
end Marginalia
