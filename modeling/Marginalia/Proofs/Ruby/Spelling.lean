/-
# Names as they are written

The name that a definition declares is known by its last part and by what is
written from the start of the name to its end. While the name is read, the
part read last stands in the text from the start of the name on, and what is still to
be read stands below it (`Ruby.Opening.Sound`). No step of the reader changes that, so each
name in the outline of a source has its last part in what is written
(`Ruby.sound_outline`). White space apart, that is: what is written is kept
without it.

Key definitions: `DeclaredName.Sound`, `Outline.Sound`, `Ruby.Opening.Sound`, `Ruby.Reader.Sound`.
Key theorems: `Ruby.Reader.sound_writtenName`, `Ruby.Reader.sound_follow`, `Ruby.Reader.Reaches.sound`,
`Ruby.sound_outline`.
-/
import Marginalia.Proofs.Ruby.Moving

namespace Marginalia

open Text

/-- The last part of the name stands in what is written, white space apart, and what is written holds none. -/
structure DeclaredName.Sound (n : DeclaredName) : Prop where
  /-- What is written holds no white space. -/
  solid : ∀ c ∈ n.written.toList, isBlank c = false
  /-- The last part stands in it. -/
  holds_last : n.last.toList.filter (!isBlank ·) <:+: n.written.toList

namespace Outline

mutual

/-- All names in the outline are sound. -/
def Sound : Outline → Prop
  | group _ _ parts => AllSound parts
  | definition _ name _ _ parts => (∀ n ∈ name, n.Sound) ∧ AllSound parts

/-- All names in the outlines are sound. -/
def AllSound : List Outline → Prop
  | [] => True
  | o :: os => Sound o ∧ AllSound os

end

theorem allSound_iff : ∀ {os : List Outline}, AllSound os ↔ ∀ o ∈ os, o.Sound
  | [] => by simp [AllSound]
  | o :: os => by rw [AllSound, allSound_iff, List.forall_mem_cons]

end Outline

namespace Ruby

/-! ### Constants and scope marks -/

theorem not_isBlank_of_isUpper {c : Char} (h : c.isUpper) : isBlank c = false := by
  have hval : c.val ≥ 'A'.val ∧ c.val ≤ 'Z'.val := of_decide_eq_true h
  have h₁ : 65 ≤ c.toNat := hval.1
  have h₂ : c.toNat ≤ 90 := hval.2
  simp only [isBlank, Bool.or_eq_false_iff, Bool.and_eq_false_iff, decide_eq_false_iff_not, beq_eq_false_iff_ne]
  omega

/-- A constant begins with a letter, which is neither white space nor a colon. -/
theorem exists_of_isConstant {c : Text} (h : isConstant c) :
    ∃ d w, c.filter (!isBlank ·) = d :: w ∧ d ≠ ':' := by
  cases c with
  | nil => cases h
  | cons d c =>
    have hd : d.isUpper = true := h
    refine ⟨d, c.filter (!isBlank ·), ?_, ?_⟩
    · rw [List.filter_cons_of_pos (by rw [not_isBlank_of_isUpper hd]; rfl)]
    · rintro rfl
      exact absurd hd (by decide)

namespace Reader

open writtenName (dropMarks)

theorem dropMarks_suffix : ∀ t : Text, dropMarks t <:+ t := by
  intro t
  fun_induction dropMarks t with
  | case1 rest ih => exact ih.trans ⟨[':', ':'], rfl⟩
  | case2 t _ => exact List.suffix_refl t

/-- A word that starts with no colon stays when scope marks are dropped. -/
theorem isInfix_dropMarks {d : Char} {w t : Text} (hd : d ≠ ':') (h : d :: w <:+: t) : d :: w <:+: dropMarks t := by
  fun_induction dropMarks t with
  | case1 rest ih =>
    have hskip {t : Text} (h : d :: w <:+: ':' :: t) : d :: w <:+: t :=
      (List.infix_cons_iff.1 h).resolve_left fun hp => hd (List.cons_prefix_cons.1 hp).1
    exact ih (hskip (hskip h))
  | case2 t _ => exact h

/-- A name is sound whose last part was read before the last token ended. -/
theorem sound_writtenName {r : Reader} {pre c more : Text} (hc : isConstant c) (hl : r.lastRest.length ≤ more.length) :
    (r.writtenName (pre ++ (c ++ more)) c).Sound := by
  obtain ⟨d, w, hw, hd⟩ := exists_of_isConstant hc
  have htake : ∃ k, (pre ++ (c ++ more)).take ((pre ++ (c ++ more)).length - r.lastRest.length) =
      pre ++ (c ++ more.take k) := by
    refine ⟨more.length - r.lastRest.length, ?_⟩
    have hlen : (pre ++ (c ++ more)).length - r.lastRest.length =
        pre.length + (c.length + (more.length - r.lastRest.length)) := by
      simp only [List.length_append]
      omega
    rw [hlen, List.take_length_add_append, List.take_length_add_append]
  obtain ⟨k, hk⟩ := htake
  constructor
  · intro x hx
    rw [writtenName, String.toList_ofList] at hx
    have hx := (dropMarks_suffix _).subset hx
    simpa using (List.mem_filter.1 hx).2
  · rw [writtenName, String.toList_ofList, String.toList_ofList, hk, hw]
    refine isInfix_dropMarks hd ?_
    rw [List.filter_append, List.filter_append, hw]
    exact ⟨_, _, (List.append_assoc _ _ _)⟩

end Reader

/-! ### What is known of the open stretches -/

/-- As far as the name of a definition has been read, its parts stand in `written` above `rest`, which is still to
be read; and a part that was read last stands above `lastRest` as well, what there was to read when the last token
ended. -/
def NamePhase.Sound (written rest lastRest : Text) : NamePhase → Prop
  | .constant c => isConstant c ∧ ∃ pre more, written = pre ++ (c ++ more) ∧ rest <:+ more ∧ lastRest <:+ more
  | .partDue | .operand | .methodDue => rest <:+ written
  | .due | .superclassDue | .complete => True

/-- What is known of a definition that is open: its name is sound if there is one. -/
def Opening.Sound (rest lastRest : Text) : Opening → Prop
  | .definition _ phase written name => (∀ n ∈ name, n.Sound) ∧ phase.Sound written rest lastRest
  | _ => True

/-- What is known of an open stretch. -/
def Frame.Sound (rest lastRest : Text) (f : Frame) : Prop := f.opening.Sound rest lastRest ∧ ∀ o ∈ f.parts, o.Sound

variable {rest rest' lastRest : Text}

theorem Opening.Sound.of_isSuffix {o : Opening} (h : o.Sound rest lastRest) (hs : rest' <:+ rest) :
    o.Sound rest' lastRest := by
  cases o with
  | definition kind phase written name =>
    refine ⟨h.1, ?_⟩
    cases phase with
    | constant c =>
      obtain ⟨hc, pre, more, hw, hr, hl⟩ := h.2
      exact ⟨hc, pre, more, hw, hs.trans hr, hl⟩
    | partDue => exact hs.trans h.2
    | operand => exact hs.trans h.2
    | methodDue => exact hs.trans h.2
    | _ => trivial
  | _ => trivial

/-- When a token ends. -/
theorem Opening.Sound.token {o : Opening} (h : o.Sound rest lastRest) : o.Sound rest rest := by
  cases o with
  | definition kind phase written name =>
    refine ⟨h.1, ?_⟩
    cases phase with
    | constant c =>
      obtain ⟨hc, pre, more, hw, hr, -⟩ := h.2
      exact ⟨hc, pre, more, hw, hr, hr⟩
    | partDue => exact h.2
    | operand => exact h.2
    | methodDue => exact h.2
    | _ => trivial
  | _ => trivial

theorem Frame.Sound.of_isSuffix {f : Frame} (h : f.Sound rest lastRest) (hs : rest' <:+ rest) :
    f.Sound rest' lastRest := ⟨h.1.of_isSuffix hs, h.2⟩

theorem Frame.Sound.token {f : Frame} (h : f.Sound rest lastRest) : f.Sound rest rest := ⟨h.1.token, h.2⟩

theorem Frame.Sound.outline {f : Frame} (h : f.Sound rest lastRest) (stop : Place) : (f.outline stop).Sound := by
  obtain ⟨opening, start, parts⟩ := f
  have hparts : Outline.AllSound parts.reverse :=
    Outline.allSound_iff.2 fun o ho => h.2 o (List.mem_reverse.1 ho)
  cases opening with
  | definition kind phase written name => exact ⟨h.1.1, hparts⟩
  | _ => exact hparts

namespace Reader

/-- Open stretches of which all is known. -/
def SoundFrames (frames : List Frame) (rest lastRest : Text) : Prop := ∀ f ∈ frames, f.Sound rest lastRest

/-- Of each stretch that is open it is known what its name has come to. -/
def Sound (r : Reader) : Prop := SoundFrames r.frames r.rest r.lastRest

variable {r : Reader} {part : NamePart} {name : Text}

theorem sound_opening (h : r.Sound) : r.opening.Sound r.rest r.lastRest := by
  unfold opening
  cases hf : r.frames with
  | nil => trivial
  | cons f fs => exact (h f (hf ▸ List.mem_cons_self)).1

theorem soundFrames_setOpening (h : SoundFrames r.frames rest lastRest) {o : Opening} (ho : o.Sound rest lastRest) :
    SoundFrames (r.setOpening o).frames rest lastRest := by
  unfold setOpening
  split
  · next f fs hf =>
    rw [SoundFrames, hf] at h
    obtain ⟨hhead, htail⟩ := List.forall_mem_cons.1 h
    exact List.forall_mem_cons.2 ⟨⟨ho, hhead.2⟩, htail⟩
  · exact h

theorem soundFrames_endHead (h : SoundFrames r.frames rest lastRest) : SoundFrames r.endHead.frames rest lastRest := by
  unfold endHead
  split
  · exact h
  · exact soundFrames_setOpening h trivial
  · exact h

@[simp] theorem lastRest_setOpening (r : Reader) (o : Opening) : (r.setOpening o).lastRest = r.lastRest := by
  unfold setOpening
  split <;> rfl

theorem sound_setOpening (h : r.Sound) {o : Opening} (ho : o.Sound r.rest r.lastRest) : (r.setOpening o).Sound := by
  rw [Sound, rest_setOpening, lastRest_setOpening]
  exact soundFrames_setOpening h ho

theorem sound_push (h : r.Sound) {o : Opening} (ho : o.Sound r.rest r.lastRest) (p : Place) : (r.push o p).Sound :=
  List.forall_mem_cons.2 ⟨⟨ho, by simp⟩, h⟩

section

variable (h : r.Sound)

include h

theorem sound_next : r.next.Sound := by
  have hlast : r.next.lastRest = r.lastRest := by
    unfold next
    split <;> rfl
  rw [Sound, frames_next, rest_next, hlast]
  exact fun f hf => (h f hf).of_isSuffix (List.tail_suffix r.rest)

theorem sound_pop (p : Place) : (r.pop p).Sound := by
  unfold pop
  split
  · next f g fs hf =>
    rw [Sound, hf] at h
    obtain ⟨hinner, hrest⟩ := List.forall_mem_cons.1 h
    obtain ⟨houter, htail⟩ := List.forall_mem_cons.1 hrest
    exact List.forall_mem_cons.2 ⟨⟨houter.1, List.forall_mem_cons.2 ⟨hinner.outline p, houter.2⟩⟩, htail⟩
  · exact h

theorem sound_dissolve : r.dissolve.Sound := by
  unfold dissolve
  split
  · next f g fs hf =>
    rw [Sound, hf] at h
    obtain ⟨hinner, hrest⟩ := List.forall_mem_cons.1 h
    obtain ⟨houter, htail⟩ := List.forall_mem_cons.1 hrest
    exact List.forall_mem_cons.2 ⟨⟨houter.1, List.forall_mem_append.2 ⟨hinner.2, houter.2⟩⟩, htail⟩
  · exact h

theorem sound_token (d : Due) : (r.token d).Sound := fun f hf => (h f hf).token

end

theorem sound_skip : ∀ (n : Nat) {r : Reader}, r.Sound → (r.skip n).Sound
  | 0, _, h => h
  | n + 1, _, h => sound_skip n (sound_next h)

/-- Following a name keeps what is known, unless the next part is a constant. -/
theorem sound_follow (h : r.Sound) (hp : ∀ c, part ≠ .constant c) : (r.follow part).Sound := by
  have hopening := sound_opening h
  unfold follow
  split
  · next kind phase written name ho =>
    rw [ho] at hopening
    obtain ⟨hname, hphase⟩ := hopening
    -- the name goes on, or it has ended with the constant read last
    have hgoOn {q : NamePhase} (hq : q.Sound written r.rest r.lastRest) :
        (r.setOpening (.definition kind q written name)).Sound := sound_setOpening h ⟨hname, hq⟩
    have hstop {c : Text} {q : NamePhase} (hc : (NamePhase.constant c).Sound written r.rest r.lastRest)
        (hq : q.Sound written r.rest r.lastRest) :
        (r.setOpening (.definition kind q written (some (r.writtenName written c)))).Sound := by
      obtain ⟨hc, pre, more, hw, -, hl⟩ := hc
      refine sound_setOpening h ⟨fun n hn => ?_, hq⟩
      obtain rfl : r.writtenName written c = n := Option.some.inj hn
      rw [hw]
      exact sound_writtenName hc hl.length_le
    have hstart {q : NamePhase} (hq : q.Sound r.rest r.rest r.lastRest) :
        (r.setOpening (.definition kind q r.rest none)).Sound := sound_setOpening h ⟨by simp, hq⟩
    have hdrop : r.dissolve.fault.Sound := sound_dissolve h
    cases phase with
    | due =>
      cases part with
      | constant c => exact absurd rfl (hp c)
      | operand => exact hstart (List.suffix_refl _)
      | scope => exact hstart (List.suffix_refl _)
      | bracket => exact hstart (List.suffix_refl _)
      | number => exact h
      | _ => exact hdrop
    | partDue =>
      cases part with
      | constant c => exact absurd rfl (hp c)
      | operand => exact hgoOn hphase
      | _ => exact hdrop
    | constant c =>
      have hbelow : r.rest <:+ written := by
        obtain ⟨-, pre, more, rfl, hr, -⟩ := hphase
        exact hr.trans ⟨pre ++ c, List.append_assoc _ _ _⟩
      cases part with
      | scope =>
        dsimp only
        split
        · exact hstop hphase trivial
        · exact hgoOn hbelow
      | bracket =>
        dsimp only
        split
        · exact hstop hphase trivial
        · exact hgoOn hbelow
      | dot => exact hgoOn hbelow
      | _ => exact hstop hphase trivial
    | operand =>
      cases part with
      | scope =>
        dsimp only
        split
        · exact hdrop
        · exact hgoOn hphase
      | bracket =>
        dsimp only
        split
        · exact hdrop
        · exact h
      | dot => exact hgoOn hphase
      | _ => exact hdrop
    | methodDue =>
      cases part with
      | constant c => exact hgoOn hphase
      | operand => exact hgoOn hphase
      | bracket => exact hgoOn hphase
      | _ => exact hdrop
    | superclassDue => exact hgoOn trivial
    | complete => exact h
  · exact h

/-- When a token of `n` characters ends. -/
theorem sound_take {n : Nat} (h : SoundFrames r.frames (r.rest.drop n) (r.rest.drop n)) (d : Due) :
    ((r.skip n).token d).Sound := by
  show SoundFrames (r.skip n).frames (r.skip n).rest (r.skip n).rest
  rwa [frames_skip, rest_skip]

/-- A constant is the next part of the name if one is due. -/
theorem soundFrames_follow_constant {more : Text} (h : r.Sound) (hc : isConstant name) (hmore : name ++ more = r.rest) :
    SoundFrames (r.follow (.constant name)).frames more more := by
  have hbelow : more <:+ r.rest := ⟨name, hmore⟩
  have hframes : SoundFrames r.frames more more := fun f hf => ((h f hf).of_isSuffix hbelow).token
  -- elsewhere it is like any other operand
  have hother (he : r.follow (.constant name) = r.follow .operand) :
      SoundFrames (r.follow (.constant name)).frames more more := by
    rw [he]
    intro f hf
    have hp : ∀ c, NamePart.operand ≠ .constant c := by simp
    have hfollow := sound_follow h hp f hf
    rw [rest_follow] at hfollow
    exact (hfollow.of_isSuffix hbelow).token
  cases ho : r.opening with
  | definition kind phase written m =>
    have hopening := sound_opening h
    rw [ho] at hopening
    obtain ⟨hname, hphase⟩ := hopening
    cases phase with
    | due =>
      have he : r.follow (.constant name) = r.setOpening (.definition kind (.constant name) r.rest none) := by
        rw [follow, ho]
      rw [he]
      exact soundFrames_setOpening hframes
        ⟨by simp, hc, [], more, hmore.symm, List.suffix_refl _, List.suffix_refl _⟩
    | partDue =>
      have he : r.follow (.constant name) = r.setOpening (.definition kind (.constant name) written m) := by
        rw [follow, ho]
      obtain ⟨pre, hpre⟩ := hphase
      rw [he]
      refine soundFrames_setOpening hframes ⟨hname, hc, pre, more, ?_, List.suffix_refl _, List.suffix_refl _⟩
      rw [hmore, hpre]
    | _ => exact hother (by rw [follow, follow, ho])
  | _ => exact hother (by rw [follow, follow, ho])

/-- A constant is read. -/
theorem sound_plainName (h : r.Sound) (hc : isConstant name) (hn : name <+: r.rest) : (r.plainName name).Sound := by
  obtain ⟨more, hmore⟩ := hn
  have hrest : (r.meet (.constant name)).rest.drop name.length = more := by
    rw [rest_meet, ← hmore, List.drop_left]
  rw [plainName, if_pos hc]
  refine sound_take ?_ _
  rw [hrest]
  exact soundFrames_endHead (soundFrames_follow_constant h hc hmore)

theorem sound_of_isDefinition {o : Opening} (ho : o.isDefinition = false) (rest lastRest : Text) :
    o.Sound rest lastRest := by
  cases o with
  | definition => cases ho
  | _ => trivial

/-- What is known stays known. -/
theorem Reaches.sound {s : Reader} (h : Reaches s r) (hs : s.Sound) : r.Sound := by
  have hdue {kind : Declaration.Kind} {phase : NamePhase} {written rest lastRest : Text}
      (hp : phase = .due ∨ phase = .complete) : (Opening.definition kind phase written none).Sound rest lastRest := by
    rcases hp with rfl | rfl <;> exact ⟨by simp, trivial⟩
  induction h with
  | refl => exact hs
  | note _ _ _ _ _ _ _ _ ih => exact ih
  | next _ ih => exact sound_next ih
  | token _ d ih => exact sound_token ih d
  | setOpening _ ho ih => exact sound_setOpening ih (sound_of_isDefinition ho _ _)
  | push _ ho p ih => exact sound_push ih (sound_of_isDefinition ho _ _) p
  | pop _ p ih => exact sound_pop ih p
  | dissolve _ ih => exact sound_dissolve ih
  | define _ _ _ kind d ih => exact sound_push (sound_token (sound_skip _ ih) d) (hdue (.inl rfl)) _
  | follow _ hp ih => exact sound_follow ih hp
  | constant _ hc hn ih => exact sound_plainName ih hc hn
  | unname _ _ hp ih => exact sound_setOpening ih (hdue hp)

theorem sound_start (t : Text) : (start t).Sound := by
  intro f hf
  obtain rfl := List.mem_singleton.1 hf
  exact ⟨trivial, by simp⟩

end Reader

/-- **Names are sound.** In the outline of a source each name has its last part in what is written. -/
theorem sound_outline (t : Text) : (outline t).1.Sound := by
  obtain ⟨r, hr, he⟩ := exists_reaches_outline t
  have h : r.Sound := hr.sound (Reader.sound_start t)
  rw [he]
  cases hf : r.frames.getLast? with
  | none => trivial
  | some f => exact (h f (List.mem_of_getLast? hf)).outline r.place

end Ruby
end Marginalia
