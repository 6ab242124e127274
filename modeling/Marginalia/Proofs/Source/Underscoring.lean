/-
# Names of classes as paths

By convention the path of a class is made from its name in passes: scope marks
become separators, two passes put underscores where words begin, and hyphens and
capitals are replaced at the end. A cut of either pass uses characters up, so
that the next cut is looked for behind it, and the second pass reads a text in
which the first one has left underscores.

Neither matters. Whether an underscore goes in front of a character depends on
the two characters next to it (`cutWords_acronymEnd?`, `cutWords_wordEnd?`), and
an underscore of the first pass keeps the second one from adding another
(`mark_mark`). So the name can be spelled in one go (`underscore_spells`). What
is spelled has nothing in it that a second go would replace
(`spelled_eq_self`).

Key definitions: `Naming.mark`, `Naming.spelled`.
Key theorems: `Naming.cutWords_acronymEnd?`, `Naming.cutWords_wordEnd?`, `Naming.mark_mark`,
`Naming.underscore_spells`.
-/
import Mathlib
import Marginalia.Source.Naming

namespace Marginalia
namespace Naming

variable {c : Char} {t x y rest : Text} {before : Option Char} {fuel : Nat}

/-! ### Letters and digits -/

theorem isSmall_iff : isSmall c ↔ 97 ≤ c.toNat ∧ c.toNat ≤ 122 := by
  simp [isSmall, Char.le_def, UInt32.le_iff_toNat_le]

theorem isCapital_iff : isCapital c ↔ 65 ≤ c.toNat ∧ c.toNat ≤ 90 := by
  simp [isCapital, Char.le_def, UInt32.le_iff_toNat_le]

theorem isDigit_iff (h : c.toNat < 128) : Unicode.isDigit c ↔ 48 ≤ c.toNat ∧ c.toNat ≤ 57 := by
  simp [Unicode.isDigit, h, Char.isDigit, UInt32.le_iff_toNat_le]

/-- A small letter does not continue a run of capitals and digits. -/
theorem isCapitalOrDigit_of_isSmall (h : isSmall c) : isCapitalOrDigit c = false := by
  have hc := isSmall_iff.1 h
  have hd := isDigit_iff (c := c) (by omega)
  have hu := isCapital_iff (c := c)
  grind [isCapitalOrDigit]

/-- A capital is no small letter and no digit. -/
theorem isSmallOrDigit_of_isCapital (h : isCapital c) : isSmallOrDigit c = false := by
  have hc := isCapital_iff.1 h
  have hd := isDigit_iff (c := c) (by omega)
  have hs := isSmall_iff (c := c)
  grind [isSmallOrDigit]

theorem isSmall_of_isCapitalOrDigit (h : isCapitalOrDigit c) : isSmall c = false := by
  rw [Bool.eq_false_iff]
  intro hs
  rw [isCapitalOrDigit_of_isSmall hs] at h
  cases h

theorem isCapital_of_isSmall (h : isSmall c) : isCapital c = false := by
  have := isCapitalOrDigit_of_isSmall h
  simp_all [isCapitalOrDigit]

/-! ### Underscores by the characters next to them -/

/-- Puts an underscore before each character at which the rule says so, given the characters before
and after it. -/
def mark (rule : Option Char → Char → Option Char → Bool) : Option Char → Text → Text
  | _, [] => []
  | before, c :: r => (if rule before c r.head? then ['_'] else []) ++ c :: mark rule (some c) r

/-- A capital between a capital or digit and a small letter. -/
def afterAcronym (before : Option Char) (c : Char) (next : Option Char) : Bool :=
  isCapital c && before.any isCapitalOrDigit && next.any isSmall

/-- A capital after a small letter or a digit. -/
def afterSmall (before : Option Char) (c : Char) (_next : Option Char) : Bool :=
  isCapital c && before.any isSmallOrDigit

variable {rule : Option Char → Char → Option Char → Bool}

theorem mark_cons_of_rule (h : rule before c t.head?) :
    mark rule before (c :: t) = '_' :: c :: mark rule (some c) t := by
  simp [mark, h]

theorem mark_cons_of_not_rule (h : rule before c t.head? = false) :
    mark rule before (c :: t) = c :: mark rule (some c) t := by
  simp [mark, h]

/-! ### The first pass -/

/-- The text starts with capitals and digits of which the last one is a capital before a small letter. -/
def RunEnds (t : Text) : Prop :=
  ∃ x last next rest, t = x ++ last :: next :: rest ∧ (∀ d ∈ x, isCapitalOrDigit d) ∧ isCapital last ∧ isSmall next

/-- A run of two or more capitals and digits is cut before the last one, if that is a capital before a
small letter. -/
theorem acronymEnd?_eq_some_iff : acronymEnd? t = some (x, y, rest) ↔
    ∃ last next, y = [last, next] ∧ t = x ++ last :: next :: rest ∧ x ≠ [] ∧ (∀ d ∈ x, isCapitalOrDigit d) ∧
      isCapital last ∧ isSmall next := by
  have hsplit := List.takeWhile_append_dropWhile (p := isCapitalOrDigit) (l := t)
  have hdrop : t.drop (t.takeWhile isCapitalOrDigit).length = t.dropWhile isCapitalOrDigit := by
    calc t.drop (t.takeWhile isCapitalOrDigit).length
        = (t.takeWhile isCapitalOrDigit ++ t.dropWhile isCapitalOrDigit).drop
            (t.takeWhile isCapitalOrDigit).length := by rw [hsplit]
      _ = t.dropWhile isCapitalOrDigit := List.drop_left
  simp only [acronymEnd?, hdrop]
  constructor
  · intro h
    split at h
    · next last d ds next r hrun hrest =>
      split at h
      · next hc =>
        cases h
        rw [Bool.and_eq_true] at hc
        have hrun' : t.takeWhile isCapitalOrDigit = (d :: ds).reverse ++ [last] := by
          rw [← List.reverse_reverse (t.takeWhile isCapitalOrDigit), hrun]
          simp
        have ht : t = (d :: ds).reverse ++ last :: next :: rest := by
          rw [← hsplit, hrun', hrest]
          simp
        refine ⟨last, next, rfl, ht, by simp, fun e he => ?_, hc.1, hc.2⟩
        have hall := List.all_takeWhile (p := isCapitalOrDigit) (l := t)
        rw [hrun', List.all_append, Bool.and_eq_true] at hall
        exact List.all_eq_true.1 hall.1 e he
      · cases h
    · cases h
  · rintro ⟨last, next, rfl, rfl, h0, hx, hlast, hnext⟩
    have hlast' : isCapitalOrDigit last := by simp [isCapitalOrDigit, hlast]
    have hnext' : ¬ isCapitalOrDigit next := by simp [isCapitalOrDigit_of_isSmall hnext]
    have hrun : (x ++ last :: next :: rest).takeWhile isCapitalOrDigit = x ++ [last] := by
      rw [List.takeWhile_append_of_pos hx, List.takeWhile_cons_of_pos hlast', List.takeWhile_cons_of_neg hnext']
    have hrest : (x ++ last :: next :: rest).dropWhile isCapitalOrDigit = next :: rest := by
      rw [List.dropWhile_append_of_pos hx, List.dropWhile_cons_of_pos hlast', List.dropWhile_cons_of_neg hnext']
    obtain ⟨d, ds, hd⟩ := List.exists_cons_of_ne_nil (List.reverse_ne_nil_iff.2 h0)
    have hrev : x = (d :: ds).reverse := by rw [← hd, List.reverse_reverse]
    rw [hrun, hrest, List.reverse_append, hd]
    simp [hlast, hnext, hrev]

/-- A text of capitals and digits is cut if what follows its first one ends the run. -/
theorem acronymEnd?_cons_eq_none (hc : isCapitalOrDigit c) (h : acronymEnd? (c :: t) = none) : ¬ RunEnds t := by
  rintro ⟨x, last, next, rest, rfl, hx, hlast, hnext⟩
  have hcut : acronymEnd? (c :: (x ++ last :: next :: rest)) = some (c :: x, [last, next], rest) :=
    acronymEnd?_eq_some_iff.2 ⟨last, next, rfl, rfl, by simp, by simpa [hc] using hx, hlast, hnext⟩
  rw [h] at hcut
  cases hcut

/-- Up to the end of a run no underscore is put in. -/
theorem mark_run (before : Option Char) (hx : ∀ d ∈ x, isCapitalOrDigit d) (hlast : isCapitalOrDigit c) (h0 : x ≠ []) :
    ∃ b, isCapitalOrDigit b ∧
      mark afterAcronym before (x ++ c :: t) = x ++ mark afterAcronym (some b) (c :: t) := by
  induction x generalizing before with
  | nil => exact absurd rfl h0
  | cons d x ih =>
    have hd : isCapitalOrDigit d := hx d List.mem_cons_self
    have hx' : ∀ e ∈ x, isCapitalOrDigit e := fun e he => hx e (List.mem_cons_of_mem _ he)
    cases x with
    | nil =>
      refine ⟨d, hd, ?_⟩
      simp [mark, afterAcronym, isSmall_of_isCapitalOrDigit hlast]
    | cons e x =>
      obtain ⟨b, hb, hmark⟩ := ih (some d) hx' (by simp)
      refine ⟨b, hb, ?_⟩
      have hrule : afterAcronym before d (e :: x ++ c :: t).head? = false := by
        simp [afterAcronym, isSmall_of_isCapitalOrDigit (hx' e List.mem_cons_self)]
      rw [List.cons_append, mark_cons_of_not_rule hrule, hmark]
      rfl

/-- **The first pass.** An underscore goes in front of each capital between a capital or digit and a small
letter. Up to here a run that could be cut has not been entered. -/
theorem cutWords_acronymEnd? (hf : t.length ≤ fuel) (hb : before.any isCapitalOrDigit → ¬ RunEnds t) :
    cutWords acronymEnd? fuel t = mark afterAcronym before t := by
  induction fuel generalizing t before with
  | zero =>
    obtain rfl : t = [] := List.length_eq_zero_iff.1 (by omega)
    rfl
  | succ fuel ih =>
    cases t with
    | nil => rfl
    | cons c t =>
      rw [cutWords]
      cases hcut : acronymEnd? (c :: t) with
      | some cut =>
        obtain ⟨x, y, rest⟩ := cut
        obtain ⟨last, next, rfl, ht, h0, hx, hlast, hnext⟩ := acronymEnd?_eq_some_iff.1 hcut
        have hlen := congrArg List.length ht
        simp only [List.length_append, List.length_cons] at hlen hf
        obtain ⟨b, hb', hmark⟩ := mark_run before (c := last) (t := next :: rest) hx
          (by simp [isCapitalOrDigit, hlast]) h0
        have hrule : afterAcronym (some b) last (next :: rest).head? := by
          simp [afterAcronym, hlast, hb', hnext]
        have hrule' : afterAcronym (some last) next rest.head? = false := by
          simp [afterAcronym, isCapital_of_isSmall hnext]
        have hrest : cutWords acronymEnd? fuel rest = mark afterAcronym (some next) rest :=
          ih (by omega) (by simp [isCapitalOrDigit_of_isSmall hnext])
        rw [ht, hmark, mark_cons_of_rule hrule, mark_cons_of_not_rule hrule', ← hrest]
        simp
      | none =>
        have hrule : afterAcronym before c t.head? = false := by
          rw [Bool.eq_false_iff]
          intro hr
          rw [afterAcronym, Bool.and_eq_true, Bool.and_eq_true] at hr
          obtain ⟨⟨hc, hbefore⟩, hnext⟩ := hr
          obtain ⟨next, hnext, hsmall⟩ := (Option.any_eq_true _ _).1 hnext
          obtain ⟨rest, rfl⟩ := List.head?_eq_some_iff.1 hnext
          exact hb hbefore ⟨[], c, next, rest, rfl, by simp, hc, hsmall⟩
        have hrest : cutWords acronymEnd? fuel t = mark afterAcronym (some c) t :=
          ih (by simpa using hf) fun hc => acronymEnd?_cons_eq_none (by simpa using hc) hcut
        rw [mark_cons_of_not_rule hrule, ← hrest]

/-! ### The second pass -/

theorem wordEnd?_eq_some_iff : wordEnd? t = some (x, y, rest) ↔
    ∃ a b, x = [a] ∧ y = [b] ∧ t = a :: b :: rest ∧ isSmallOrDigit a ∧ isCapital b := by
  unfold wordEnd?
  split <;> grind

/-- **The second pass.** An underscore goes in front of each capital after a small letter or a digit. No
such capital comes first. -/
theorem cutWords_wordEnd? (hf : t.length ≤ fuel) (hb : before.any isSmallOrDigit → ¬ t.head?.any isCapital) :
    cutWords wordEnd? fuel t = mark afterSmall before t := by
  induction fuel generalizing t before with
  | zero =>
    obtain rfl : t = [] := List.length_eq_zero_iff.1 (by omega)
    rfl
  | succ fuel ih =>
    cases t with
    | nil => rfl
    | cons c t =>
      rw [cutWords]
      cases hcut : wordEnd? (c :: t) with
      | some cut =>
        obtain ⟨x, y, rest⟩ := cut
        obtain ⟨a, b, rfl, rfl, ht, ha, hcap⟩ := wordEnd?_eq_some_iff.1 hcut
        have hlen := congrArg List.length ht
        simp only [List.length_cons] at hlen hf
        have hrule : afterSmall before a (b :: rest).head? = false := by
          rw [Bool.eq_false_iff]
          intro hr
          rw [afterSmall, Bool.and_eq_true] at hr
          rw [isSmallOrDigit_of_isCapital hr.1] at ha
          cases ha
        have hrule' : afterSmall (some a) b rest.head? := by simp [afterSmall, ha, hcap]
        have hrest : cutWords wordEnd? fuel rest = mark afterSmall (some b) rest :=
          ih (by omega) (by simp [isSmallOrDigit_of_isCapital hcap])
        rw [ht, mark_cons_of_not_rule hrule, mark_cons_of_rule hrule', ← hrest]
        rfl
      | none =>
        have hrule : afterSmall before c t.head? = false := by
          rw [Bool.eq_false_iff]
          intro hr
          rw [afterSmall, Bool.and_eq_true] at hr
          exact hb hr.2 hr.1
        have hnone : (some c).any isSmallOrDigit → ¬ t.head?.any isCapital := by
          intro hc hcap
          obtain ⟨d, hd, hcap⟩ := (Option.any_eq_true _ _).1 hcap
          obtain ⟨rest, rfl⟩ := List.head?_eq_some_iff.1 hd
          have hsome : wordEnd? (c :: d :: rest) = some ([c], [d], rest) :=
            wordEnd?_eq_some_iff.2 ⟨c, d, rfl, rfl, rfl, hc, hcap⟩
          rw [hcut] at hsome
          cases hsome
        have hrest : cutWords wordEnd? fuel t = mark afterSmall (some c) t := ih (by simpa using hf) hnone
        rw [mark_cons_of_not_rule hrule, ← hrest]

/-! ### Both passes -/

/-- A capital at which a word begins: it ends a run of capitals and digits, or it is after a small letter
or a digit. -/
def beginsWord (before : Option Char) (c : Char) (next : Option Char) : Bool :=
  afterAcronym before c next || afterSmall before c next

/-- The underscores of the first pass keep the second one from adding another at their place, and have no
other effect on it. -/
theorem mark_mark (before : Option Char) (t : Text) :
    mark afterSmall before (mark afterAcronym before t) = mark beginsWord before t := by
  induction t generalizing before with
  | nil => rfl
  | cons c t ih =>
    cases h : afterAcronym before c t.head? with
    | true =>
      have hword : beginsWord before c t.head? := by simp [beginsWord, h]
      have hunder (next : Option Char) : afterSmall before '_' next = false := rfl
      have hletter (next : Option Char) : afterSmall (some '_') c next = false := Bool.and_false _
      rw [mark_cons_of_rule h, mark_cons_of_rule hword, mark_cons_of_not_rule (hunder _),
        mark_cons_of_not_rule (hletter _), ih]
    | false =>
      rw [mark_cons_of_not_rule h]
      cases h' : afterSmall before c t.head? with
      | true =>
        have hword : beginsWord before c t.head? := by simp [beginsWord, h']
        rw [mark_cons_of_rule (t := mark _ _ _) h', mark_cons_of_rule hword, ih]
      | false =>
        have hword : beginsWord before c t.head? = false := by simp [beginsWord, h, h']
        rw [mark_cons_of_not_rule (t := mark _ _ _) h', mark_cons_of_not_rule hword, ih]

theorem underscore_eq_mark (name : Text) :
    underscore name = Unicode.lowerText ((mark beginsWord none (separateScopes name)).map joinHyphen) := by
  have hfirst (t : Text) : cutWords acronymEnd? t.length t = mark afterAcronym none t :=
    cutWords_acronymEnd? (Nat.le_refl _) (by simp)
  have hsecond (t : Text) : cutWords wordEnd? t.length t = mark afterSmall none t :=
    cutWords_wordEnd? (Nat.le_refl _) (by simp)
  rw [underscore]
  simp only [hfirst, hsecond, mark_mark]

/-! ### The name in one go -/

/-- Whether a word begins at a character between two others: it is a capital after a small letter or a digit,
or a capital after a capital and before a small letter. -/
def startsWord (before : Option Char) (c : Char) (next : Option Char) : Bool :=
  c.isUpper && (before.any (fun b => b.isLower || b.isDigit) || before.any Char.isUpper && next.any Char.isLower)

/-- The path of a name of which `before` was read last: a separator for each scope mark, an underscore where a
word begins and for each hyphen, and small letters throughout. -/
def spelled (before : Option Char) : Text → Text
  | ':' :: ':' :: r => '/' :: spelled (some '/') r
  | c :: r =>
    (if startsWord before c r.head? then ['_'] else []) ++
      (if c = '-' then '_' else c.toLower) :: spelled (some c) r
  | [] => []

theorem isUpper_iff : c.isUpper ↔ 65 ≤ c.toNat ∧ c.toNat ≤ 90 := by
  simp [Char.isUpper, UInt32.le_iff_toNat_le]

theorem isCapital_eq (c : Char) : isCapital c = c.isUpper := by
  rw [Bool.eq_iff_iff, isCapital_iff, isUpper_iff]

theorem isSmall_eq (c : Char) : isSmall c = c.isLower := by
  rw [Bool.eq_iff_iff, isSmall_iff]
  simp [Char.isLower, UInt32.le_iff_toNat_le]

/-- The small letter of a capital. -/
theorem toNat_toLower_of_isUpper (h : c.isUpper) : c.toLower.toNat = c.toNat + 32 := by
  have hc := isUpper_iff.1 h
  have hvalid : (c.toNat + 32).isValidChar := .inl (by omega)
  rw [Char.toLower_eq_of_isUpper h, Char.toNat_ofNat, if_pos hvalid]

theorem toNat_toLower_lt (h : c.toNat < 128) : c.toLower.toNat < 128 := by
  by_cases hc : c.isUpper
  · have := isUpper_iff.1 hc
    rw [toNat_toLower_of_isUpper hc]
    omega
  · rwa [Char.toLower_eq_of_not_isUpper hc]

theorem toLower_eq_iff {d : Char} (hd : d.toNat < 65) : c.toLower = d ↔ c = d := by
  by_cases hc : c.isUpper
  · have h₁ := isUpper_iff.1 hc
    have h₂ := toNat_toLower_of_isUpper hc
    constructor
    · intro h
      rw [h] at h₂
      omega
    · intro h
      rw [h] at h₁
      omega
  · rw [Char.toLower_eq_of_not_isUpper hc]

theorem lowerAfter_of_ascii (h : ∀ c ∈ t, c.toNat < 128) (before : Text) :
    Unicode.lowerAfter before t = t.map Char.toLower := by
  induction t generalizing before with
  | nil => rfl
  | cons c t ih =>
    have hc : c.toNat < 128 := h c List.mem_cons_self
    have hsigma : c ≠ '\u03A3' := fun he => absurd hc (by rw [he]; decide)
    rw [Unicode.lowerAfter, if_neg hsigma, Unicode.lower, if_pos hc,
      ih fun d hd => h d (List.mem_cons_of_mem _ hd)]
    rfl

/-- Among letters and digits of ASCII the two tests for the start of a word agree. -/
theorem beginsWord_eq (hb : ∀ b ∈ before, b.toNat < 128) (c : Char) (next : Option Char) :
    beginsWord before c next = startsWord before c next := by
  have hsmall : isSmall = Char.isLower := funext isSmall_eq
  simp only [beginsWord, afterAcronym, afterSmall, startsWord, isCapital_eq, hsmall]
  cases before with
  | none => simp
  | some b =>
    have hdigit : Unicode.isDigit b = b.isDigit := if_pos (hb b rfl)
    simp only [Option.any_some, isCapitalOrDigit, isSmallOrDigit, isCapital_eq, isSmall_eq, hdigit]
    cases c.isUpper <;> cases b.isUpper <;> cases b.isDigit <;> cases b.isLower <;> simp

theorem any_isLower_separateScopes (t : Text) :
    (separateScopes t).head?.any Char.isLower = t.head?.any Char.isLower := by
  fun_cases separateScopes t <;> simp

theorem spelled_cons (hne : ∀ r, c = ':' → t = ':' :: r → False) : spelled before (c :: t) =
    (if startsWord before c t.head? then ['_'] else []) ++
      (if c = '-' then '_' else c.toLower) :: spelled (some c) t := by
  rw [spelled]
  simpa using hne

/-- The passes put one after the other spell the name. -/
theorem map_mark_separateScopes (h : ∀ c ∈ t, c.toNat < 128) (hb : ∀ b ∈ before, b.toNat < 128) :
    ((mark beginsWord before (separateScopes t)).map joinHyphen).map Char.toLower = spelled before t := by
  fun_induction separateScopes t generalizing before with
  | case1 r ih =>
    have hslash (next : Option Char) : beginsWord before '/' next = false := rfl
    have hr : ((mark beginsWord (some '/') (separateScopes r)).map joinHyphen).map Char.toLower =
        spelled (some '/') r := ih (fun d hd => h d (by simp [hd])) (by simp)
    rw [mark_cons_of_not_rule (hslash _), List.map_cons, List.map_cons, hr, spelled]
    rfl
  | case2 c r hne ih =>
    have hc : c.toNat < 128 := h c List.mem_cons_self
    have hr : ((mark beginsWord (some c) (separateScopes r)).map joinHyphen).map Char.toLower =
        spelled (some c) r := ih (fun d hd => h d (List.mem_cons_of_mem _ hd)) (by simpa using hc)
    have hnext : startsWord before c (separateScopes r).head? = startsWord before c r.head? := by
      rw [startsWord, startsWord, any_isLower_separateScopes]
    have hletter : (joinHyphen c).toLower = if c = '-' then '_' else c.toLower := by
      unfold joinHyphen
      split <;> rfl
    rw [mark, beginsWord_eq hb, hnext, List.map_append, List.map_append, List.map_cons, List.map_cons, hr,
      hletter, spelled_cons hne]
    split <;> rfl
  | case3 => rfl

theorem mem_mark {rule : Option Char → Char → Option Char → Bool} (h : c ∈ mark rule before t) : c = '_' ∨ c ∈ t := by
  induction t generalizing before with
  | nil => cases h
  | cons d t ih =>
    rw [mark, List.mem_append, List.mem_cons] at h
    rcases h with h | rfl | h
    · split at h <;> simp_all
    · exact .inr List.mem_cons_self
    · exact (ih h).imp_right (List.mem_cons_of_mem _)

theorem mem_separateScopes (h : c ∈ separateScopes t) : c = '/' ∨ c ∈ t := by
  fun_induction separateScopes t with
  | case1 r ih => grind
  | case2 d r hne ih => grind
  | case3 => cases h

/-- A name of ASCII is spelled in one go. -/
theorem underscore_eq_spelled {name : Text} (h : ∀ c ∈ name, c.toNat < 128) : underscore name = spelled none name := by
  rw [underscore_eq_mark, Unicode.lowerText, lowerAfter_of_ascii, map_mark_separateScopes h (by simp)]
  intro c hc
  obtain ⟨d, hd, rfl⟩ := List.mem_map.1 hc
  have hd' : d.toNat < 128 := by
    rcases mem_mark hd with rfl | hd
    · decide
    · rcases mem_separateScopes hd with rfl | hd
      · decide
      · exact h d hd
  unfold joinHyphen
  split
  · decide
  · exact hd'

/-! ### A second go -/

/-- What is spelled are separators, underscores and small letters of the name. -/
theorem of_mem_spelled (h : c ∈ spelled before t) : c = '/' ∨ c = '_' ∨ ∃ d ∈ t, d ≠ '-' ∧ c = d.toLower := by
  fun_induction spelled before t with
  | case1 before r ih =>
    rcases List.mem_cons.1 h with h | h
    · exact .inl h
    · obtain h | h | ⟨d, hd, he⟩ := ih h
      · exact .inl h
      · exact .inr (.inl h)
      · exact .inr (.inr ⟨d, by simp [hd], he⟩)
  | case2 before e r hne ih =>
    rw [List.mem_append, List.mem_cons] at h
    rcases h with h | h | h
    · split at h <;> simp_all
    · by_cases he : e = '-'
      · rw [if_pos he] at h
        exact .inr (.inl h)
      · rw [if_neg he] at h
        exact .inr (.inr ⟨e, List.mem_cons_self, he, h⟩)
    · obtain h | h | ⟨d, hd, he⟩ := ih h
      · exact .inl h
      · exact .inr (.inl h)
      · exact .inr (.inr ⟨d, List.mem_cons_of_mem _ hd, he⟩)
  | case3 => cases h

theorem plain_of_mem_spelled (h : c ∈ spelled before t) : ¬ c.isUpper ∧ c ≠ '-' := by
  obtain rfl | rfl | ⟨d, -, hd, rfl⟩ := of_mem_spelled h
  · decide
  · decide
  · refine ⟨by simp, fun he => hd ?_⟩
    exact (toLower_eq_iff (by decide)).1 he

/-- A colon that comes first came first in the name. -/
theorem head?_spelled (h : (spelled before t).head? = some ':') : t.head? = some ':' := by
  fun_cases spelled before t with
  | case1 r => rfl
  | case2 c r hne =>
    rw [spelled_cons hne] at h
    split at h
    · cases h
    · split at h
      · cases h
      · have hc : c.toLower = ':' := Option.some.inj h
        rw [(toLower_eq_iff (by decide)).1 hc]
        rfl
  | case3 => cases h

/-- What is spelled has no scope mark. -/
theorem not_infix_spelled (before : Option Char) (t : Text) : ¬ [':', ':'] <:+: spelled before t := by
  fun_induction spelled before t with
  | case1 before r ih =>
    rw [List.infix_cons_iff, not_or]
    exact ⟨by simp, ih⟩
  | case2 before c r hne ih =>
    have hrest : ¬ [':', ':'] <:+: (if c = '-' then '_' else c.toLower) :: spelled (some c) r := by
      rw [List.infix_cons_iff, not_or]
      refine ⟨fun hpre => ?_, ih⟩
      obtain ⟨hc, hr⟩ := List.cons_prefix_cons.1 hpre
      have hcolon : c = ':' := by
        split at hc
        · cases hc
        · exact (toLower_eq_iff (by decide)).1 hc.symm
      obtain ⟨u, hu⟩ := hr
      have hhead : (spelled (some c) r).head? = some ':' := by
        rw [← hu]
        rfl
      obtain ⟨r', rfl⟩ := List.head?_eq_some_iff.1 (head?_spelled hhead)
      exact hne r' hcolon rfl
    split
    · rw [List.singleton_append, List.infix_cons_iff, not_or]
      exact ⟨by simp, hrest⟩
    · exact hrest
  | case3 => simp

/-- A text with nothing to replace is spelled as it is. -/
theorem spelled_eq_self (h : ∀ c ∈ t, ¬ c.isUpper ∧ c ≠ '-') (hs : ¬ [':', ':'] <:+: t) : spelled before t = t := by
  fun_induction spelled before t with
  | case1 before r ih => exact absurd (List.prefix_append [':', ':'] r).isInfix hs
  | case2 before c r hne ih =>
    obtain ⟨⟨hc, hyphen⟩, hr⟩ := List.forall_mem_cons.1 h
    rw [List.infix_cons_iff, not_or] at hs
    have hstart : startsWord before c r.head? = false := by simp [startsWord, hc]
    rw [ih hr hs.2, if_neg hyphen, Char.toLower_eq_of_not_isUpper hc, hstart]
    rfl
  | case3 => rfl

/-- **The path of a name.** For a name of ASCII the passes give the spelling in one go: a separator for each
scope mark, an underscore before each capital that is after a small letter or a digit or between a capital and a
small letter, one for each hyphen, and small letters throughout. The path of the path is the path. -/
theorem underscore_spells {name : Text} (h : ∀ c ∈ name, c.toNat < 128) :
    underscore name = spelled none name ∧ underscore (underscore name) = underscore name := by
  have hname := underscore_eq_spelled h
  have hascii : ∀ c ∈ spelled none name, c.toNat < 128 := by
    intro c hc
    obtain rfl | rfl | ⟨d, hd, -, rfl⟩ := of_mem_spelled hc
    · decide
    · decide
    · exact toNat_toLower_lt (h d hd)
  refine ⟨hname, ?_⟩
  calc underscore (underscore name) = spelled none (spelled none name) := by rw [hname, underscore_eq_spelled hascii]
    _ = spelled none name := spelled_eq_self (fun c => plain_of_mem_spelled) (not_infix_spelled none name)
    _ = underscore name := hname.symm

/-- A run of capitals, three colons, and a hyphen before a capital. -/
theorem underscore_spells_htmlPage :
    let name := "Admin:::HTMLPage2GoV8-API".toList
    (∀ c ∈ name, c.toNat < 128) ∧ (underscore name = spelled none name ∧ underscore (underscore name) = underscore name) ∧
      spelled none name = "admin/:html_page2_go_v8_api".toList := by
  intro name
  have hascii : ∀ c ∈ name, c.toNat < 128 := by simp [name]
  exact ⟨hascii, underscore_spells hascii, by decide⟩

end Naming
end Marginalia
