/-
# Scalars of one line read back

A text that stands plain in a YAML document is read up to its end, since none of its signs structures the
line and the sign behind it does (`Yaml.plainChunk_append`). In quotes each character is read from what
is written for it (`Yaml.Quoted.Spells`), and a text that is spelled without line ends has no gaps to fold.
Whatever the form, only characters are written that a document may hold.

Key definitions: `Yaml.Quoted.Spells`, `Yaml.Stops`.
Key theorems: `Yaml.plainChunk_append`, `Yaml.singleQuoted?_spells`, `Yaml.doubleQuoted?_spells`,
`Yaml.foldGaps_spells`.
-/
import Mathlib.Algebra.Group.Nat.Defs
import Marginalia.Data.Yaml.Printer
import Marginalia.Data.Yaml.Reader
import Marginalia.Proofs.Data.Numerals
import Marginalia.Proofs.Text.Lines

namespace Marginalia
namespace Yaml

/-! ### Plain texts -/

/-- No plain scalar goes on into the text. -/
def Stops (u : Text) : Prop := ∀ afterBlank, plainRun false afterBlank u = []

theorem stops_newline (u : Text) : Stops ('\n' :: u) := fun _ => rfl

theorem stops_colon {u : Text} (hu : endsToken u = true) : Stops (':' :: u) := fun _ => by
  simp [plainRun, endsKey, hu]

/-- Where a token ends there is a gap. -/
theorem isGap_of_endsToken {cs u : Text} (h : endsToken (cs ++ u) = true) :
    (cs.head?.all fun d => isBlank d || isLineEnd d) = true := by
  cases cs with
  | nil => rfl
  | cons c cs =>
    simp only [endsToken, List.cons_append, List.head?_cons, Option.all_some, Bool.or_eq_true, beq_iff_eq] at h ⊢
    exact h.imp_right fun hn => by rw [hn]; rfl

/-- A colon before a gap separates a key from its value. -/
theorem structures_colon (before : Option Char) {cs u : Text} (h : endsToken (cs ++ u) = true) :
    structures before cs.head? ':' = true := by
  have hgap := isGap_of_endsToken h
  cases before <;> simp [structures, hgap]

/-- A number sign behind a blank begins a remark. -/
theorem structures_hash {before : Option Char} (after : Option Char) (h : before.any isBlank = true) :
    structures before after '#' = true := by
  cases before with
  | none => cases h
  | some b => simp_all [structures]

/-- A text in which nothing structures the line is read up to where it stops. -/
theorem plainRun_append {u : Text} (hu : Stops u) : ∀ {s : Text} {before : Option Char} {afterBlank : Bool},
    hasStructure before s = false → '\n' ∉ s → (afterBlank = true → before.any isBlank = true) →
    plainRun false afterBlank (s ++ u) = s
  | [], _, afterBlank, _, _, _ => hu afterBlank
  | c :: cs, before, afterBlank, hs, hn, hb => by
    rw [hasStructure, Bool.or_eq_false_iff] at hs
    rw [List.mem_cons, not_or] at hn
    have hrest : plainRun false (isBlank c) (cs ++ u) = cs := plainRun_append hu hs.2 hn.2 fun h => h
    have hcolon : ¬ (c = ':' ∧ endsToken (cs ++ u) = true) := by
      rintro ⟨rfl, h⟩
      rw [structures_colon before h] at hs
      exact Bool.noConfusion hs.1
    have hhash : ¬ (c = '#' ∧ afterBlank = true) := by
      rintro ⟨rfl, h⟩
      rw [structures_hash _ (hb h)] at hs
      exact Bool.noConfusion hs.1
    rw [List.cons_append, plainRun, if_neg, hrest]
    simp [endsKey, Ne.symm hn.1, hcolon, hhash]

/-- The text can stand as it is, and is not empty. -/
structure IsPlain (s : Text) : Prop where
  /-- There is a first sign. -/
  ne_nil : s ≠ []
  /-- Each sign can be written. -/
  writable : ∀ c ∈ s, isWritable c = true
  /-- There is one line. -/
  oneLine : '\n' ∉ s
  /-- No blank stands first. -/
  head : s.head? ≠ some ' '
  /-- No blank stands last. -/
  last : s.getLast? ≠ some ' '
  /-- It is no mark between documents. -/
  unmarked : ∀ m ∈ ["---", "..."], Text.after? m.toList s = none
  /-- No sign structures the document. -/
  unstructured : hasStructure none s = false

/-- The text can be written in the form. -/
def Form.Fits (s : String) : Form → Prop
  | plain => canBePlain s.toList = true ∧ Word.isText s = true
  | single => '\n' ∉ s.toList ∧ canBeSingle s.toList = true
  | double => True
  | block => '\n' ∈ s.toList ∧ canBeBlock s.toList = true

theorem fits_quoted {s : String} (h : '\n' ∉ s.toList) :
    (if canBeSingle s.toList then Form.single else .double).Fits s := by
  split
  · next hs => exact ⟨h, hs⟩
  · trivial

/-- The form of a text fits it. -/
theorem fits_formOf (s : String) : (formOf s).Fits s := by
  have hwords : ∀ w ∈ truthWords, '\n' ∉ w.toList := by decide
  unfold formOf
  dsimp only
  split
  · next hw => exact fits_quoted (hwords s (List.contains_iff_mem.1 hw))
  · split
    · next hn =>
      rw [List.contains_iff_mem] at hn
      split
      · next hb => exact ⟨hn, hb⟩
      · trivial
    · next hn =>
      rw [List.contains_iff_mem] at hn
      split
      · next ht =>
        rw [Bool.and_eq_true] at ht
        split
        · next hp => exact ⟨hp, ht.1⟩
        · exact fits_quoted hn
      · exact fits_quoted hn

theorem isWritable_of_isRegular {t : Text} (h : isRegular t = true) : ∀ c ∈ t, isWritable c = true := by
  rw [isRegular, Bool.and_eq_true, List.all_eq_true] at h
  exact h.1

theorem isPlain_of_formOf {s : String} (h : formOf s = .plain) : IsPlain s.toList := by
  have hfits := fits_formOf s
  rw [h] at hfits
  obtain ⟨hp, ht⟩ := hfits
  simp only [canBePlain, Bool.and_eq_true, Bool.not_eq_true', bne_iff_ne, List.all_eq_true, List.any_eq_false,
    Option.isNone_iff_eq_none] at hp
  obtain ⟨⟨⟨⟨⟨hw, hl⟩, hh⟩, he⟩, hm⟩, hs⟩ := hp
  refine ⟨?_, isWritable_of_isRegular hw, fun hn => hl _ hn rfl, hh, he, hm, hs⟩
  intro hnil
  rw [String.toList_eq_nil_iff] at hnil
  subst hnil
  exact absurd ht (by decide)

namespace IsPlain

variable {s u : Text}

theorem isBlank_iff {c : Char} (h : isWritable c = true) : isBlank c = true ↔ c = ' ' := by
  refine ⟨fun hb => ?_, fun hc => by rw [hc]; rfl⟩
  rw [isBlank, Bool.or_eq_true, beq_iff_eq, beq_iff_eq] at hb
  refine hb.resolve_right ?_
  rintro rfl
  exact absurd h (by decide)

/-- A plain text is read up to its end. -/
theorem plainChunk_append (h : IsPlain s) (hu : Stops u) : plainChunk false (s ++ u) = s := by
  have hlast : ∀ c, s.getLast? = some c → ¬ isBlank c = true := fun c hc hb => by
    rw [(isBlank_iff (h.writable c (List.mem_of_getLast? hc))).1 hb] at hc
    exact h.last hc
  have hdrop := (Text.dropEndWhile_append (b := []) (by simp) hlast).1
  rw [List.append_nil] at hdrop
  rw [plainChunk, plainRun_append hu h.unstructured h.oneLine (fun hb => by cases hb), hdrop]

/-- The sign at its start structures nothing, also where more signs stand behind the text. -/
theorem exists_cons (h : IsPlain s) : ∃ c cs, s = c :: cs ∧ isBlank c = false ∧ c ≠ '\n' ∧ isIndicator c = false ∧
    (c = '?' ∨ c = ':' ∨ c = '-' → ∀ u, endsToken (cs ++ u) = false) := by
  obtain ⟨c, cs, rfl⟩ := List.exists_cons_of_ne_nil h.ne_nil
  have hs := h.unstructured
  rw [hasStructure, Bool.or_eq_false_iff, structures, Bool.or_eq_false_iff] at hs
  refine ⟨c, cs, rfl, ?_, fun hc => h.oneLine (hc ▸ List.mem_cons_self), hs.1.1, fun hc u => ?_⟩
  · rw [Bool.eq_false_iff, ne_eq, isBlank_iff (h.writable c List.mem_cons_self)]
    rintro rfl
    exact h.head rfl
  · rw [Bool.eq_false_iff]
    intro he
    have hgap := isGap_of_endsToken he
    simp_all

/-- A plain text is told by its first sign. -/
theorem startsPlain_append (h : IsPlain s) (u : Text) : startsPlain false (s ++ u) = true := by
  obtain ⟨c, cs, rfl, hb, hn, hi, hend⟩ := h.exists_cons
  have hgoes := fun hc => hend hc u
  rw [List.cons_append, startsPlain, hb, hi, beq_eq_false_iff_ne.2 hn]
  generalize cs ++ u = w at hgoes
  have hblank : endsToken w = false → w.head?.any isBlank = false := fun he => by
    cases w with
    | nil => rfl
    | cons d w => simp_all [endsToken]
  by_cases hd : c = '-'
  · have he := hgoes (.inr (.inr hd))
    simp [hd, he, hblank he]
  · by_cases hq : c = '?' ∨ c = ':'
    · simp [hd, hq, hgoes (hq.imp_right .inl)]
    · simp [hd, hq]

/-- A plain text before a colon is no mark between documents either. -/
theorem after?_eq_none (h : IsPlain s) {m : String} (hm : m ∈ ["---", "..."]) (u : Text) :
    Text.after? m.toList (s ++ ':' :: u) = none := by
  have hcolon : ∀ m ∈ ["---", "..."], ':' ∉ m.toList := by decide
  have hs := h.unmarked m hm
  rw [Text.after?_eq_none_iff] at hs ⊢
  intro hp
  rw [← List.singleton_append, ← List.append_assoc] at hp
  rcases List.prefix_or_prefix_of_prefix hp (List.prefix_append _ _) with h' | h'
  · rcases List.prefix_concat_iff.1 h' with h' | h'
    · exact hcolon m hm (h' ▸ List.mem_append_right _ (List.mem_singleton.2 rfl))
    · exact hs h'
  · exact hcolon m hm (h'.subset (List.mem_append_right _ (List.mem_singleton.2 rfl)))

end IsPlain

/-! ### Texts in quotes -/

/-- The character is spelled by itself, unless it ends the line, or by an escape. -/
def Quoted.Spells (c : Char) (q : Quoted) : Prop := q = .escaped c ∨ (q = .raw c ∧ c ≠ '\n')

/-- Where each character is spelled, there are no gaps with line ends. -/
theorem foldGaps_spells {s : Text} {qs : List Quoted} (h : List.Forall₂ Quoted.Spells s qs) (blanks : Text) :
    foldGaps blanks none false qs = blanks ++ s := by
  induction h generalizing blanks with
  | nil => rw [foldGaps, List.append_nil]
  | cons hc _ ih =>
    rcases hc with rfl | ⟨rfl, hc⟩
    · rw [foldGaps, ih, List.nil_append]
    · rw [foldGaps, if_neg (by simpa using hc)]
      split
      · rw [ih, List.append_assoc, List.singleton_append]
      · rw [ih, List.nil_append]

/-- A text of one line is read up to its closing quote. -/
theorem singleQuoted?_spells {s u : Text} (hs : '\n' ∉ s) (hu : u.head? ≠ some '\x27') :
    ∃ qs, List.Forall₂ Quoted.Spells s qs ∧ singleQuoted? (s.flatMap singleChar ++ '\x27' :: u) = some (qs, u) := by
  induction s with
  | nil =>
    refine ⟨[], .nil, ?_⟩
    cases u with
    | nil => rfl
    | cons c u =>
      rw [List.flatMap_nil, List.nil_append, singleQuoted?]
      rintro r ⟨⟩
      exact hu rfl
  | cons c s ih =>
    rw [List.mem_cons, not_or] at hs
    obtain ⟨qs, hqs, hread⟩ := ih hs.2
    rw [List.flatMap_cons, List.append_assoc]
    by_cases hc : c = '\x27'
    · exact ⟨.escaped c :: qs, .cons (.inl rfl) hqs, by simp [singleChar, hc, singleQuoted?, hread]⟩
    · exact ⟨.raw c :: qs, .cons (.inr ⟨rfl, Ne.symm hs.1⟩) hqs, by simp [singleChar, hc, singleQuoted?, hread]⟩

/-- The digits of a number in a given width. -/
def padded (width n : Nat) : Text :=
  List.replicate (width - ((Nat.toDigits 16 n).map Char.toUpper).length) '0' ++ (Nat.toDigits 16 n).map Char.toUpper

theorem length_padded {width n : Nat} (hw : 0 < width) (h : n < 16 ^ width) : (padded width n).length = width := by
  have hlength := (Nat.length_toDigits_le_iff (by decide) hw).2 h
  simp only [padded, List.length_append, List.length_replicate, List.length_map]
  omega

/-- A character that is spelled by its number. -/
theorem doubleQuoted?_number {e : Char} {width : Nat} (he : hexWidth? e = some width) {c : Char}
    (h : c.toNat < 16 ^ width) (fuel : Nat) (u : Text) :
    doubleQuoted? (fuel + 1) ('\\' :: e :: padded width c.toNat ++ u) =
      (doubleQuoted? fuel u).map fun p => (.escaped c :: p.1, p.2) := by
  have hwidth : 0 < width ∧ e ≠ '\n' := by
    unfold hexWidth? at he
    split at he <;> cases he <;> decide
  have hlength := length_padded hwidth.1 h
  have htake : (padded width c.toNat ++ u).take width = padded width c.toNat := by
    rw [List.take_append_of_le_length (Nat.le_of_eq hlength.symm), List.take_of_length_le (Nat.le_of_eq hlength)]
  have hdrop : (padded width c.toNat ++ u).drop width = u := by
    rw [List.drop_append_of_le_length (Nat.le_of_eq hlength.symm), List.drop_of_length_le (Nat.le_of_eq hlength),
      List.nil_append]
  have hdigits : Word.ofDigits? 16 (padded width c.toNat) = some c.toNat := Word.ofDigits?_padded _ _
  have hvalid : decide c.toNat.isValidChar = true := decide_eq_true c.valid
  rw [List.cons_append, List.cons_append, doubleQuoted?]
  · cases h : doubleQuoted? fuel u <;>
      simp only [he, htake, hdrop, hlength, hdigits, hvalid, h, Nat.lt_irrefl, if_false, Bool.not_true,
        Bool.false_eq_true, Char.ofNat_toNat, Option.bind_eq_bind, Option.bind_some, Option.bind_none, Option.map_some,
        Option.map_none]
  · simp [hwidth.2]

theorem doubleQuoted?_raw {c : Char} (hq : c ≠ '"') (hb : c ≠ '\\') (fuel : Nat) (u : Text) :
    doubleQuoted? (fuel + 1) (c :: u) = (doubleQuoted? fuel u).map fun p => (.raw c :: p.1, p.2) := by
  rw [doubleQuoted?]
  all_goals simp [hq, hb]

/-- A character is read from its spelling. -/
theorem doubleQuoted?_escaped (c : Char) (fuel : Nat) (u : Text) : ∃ q, Quoted.Spells c q ∧
    doubleQuoted? (fuel + 1) (escaped c ++ u) = (doubleQuoted? fuel u).map fun p => (q :: p.1, p.2) := by
  have hc : c.toNat < 16 ^ 8 := by
    have hvalid : c.toNat < 0xD800 ∨ 0xDFFF < c.toNat ∧ c.toNat < 0x110000 := c.valid
    omega
  unfold escaped
  split
  case h_16 =>
    dsimp only
    split
    · exact ⟨.raw c, .inr ⟨rfl, by assumption⟩, doubleQuoted?_raw (by assumption) (by assumption) fuel u⟩
    · refine ⟨.escaped c, .inl rfl, ?_⟩
      split
      · exact doubleQuoted?_number rfl (by omega) fuel u
      · split
        · exact doubleQuoted?_number rfl (by omega) fuel u
        · exact doubleQuoted?_number rfl hc fuel u
  all_goals
    refine ⟨.escaped _, .inl rfl, ?_⟩
    cases h : doubleQuoted? fuel u <;> simp [doubleQuoted?, hexWidth?, letterEscape?, h]

/-- A text is read up to its closing quote. -/
theorem doubleQuoted?_spells {s : Text} {fuel : Nat} (hfuel : s.length < fuel) (u : Text) :
    ∃ qs, List.Forall₂ Quoted.Spells s qs ∧ doubleQuoted? fuel (s.flatMap escaped ++ '"' :: u) = some (qs, u) := by
  induction s generalizing fuel with
  | nil =>
    obtain ⟨fuel, rfl⟩ : ∃ n, fuel = n + 1 := ⟨fuel - 1, by omega⟩
    exact ⟨[], .nil, rfl⟩
  | cons c s ih =>
    rw [List.length_cons] at hfuel
    obtain ⟨fuel, rfl⟩ : ∃ n, fuel = n + 1 := ⟨fuel - 1, by omega⟩
    obtain ⟨qs, hqs, hread⟩ := ih (Nat.lt_of_succ_lt_succ hfuel)
    obtain ⟨q, hq, hc⟩ := doubleQuoted?_escaped c fuel (s.flatMap escaped ++ '"' :: u)
    exact ⟨q :: qs, .cons hq hqs, by rw [List.flatMap_cons, List.append_assoc, hc, hread, Option.map_some]⟩

theorem escaped_ne_nil (c : Char) : escaped c ≠ [] := by
  obtain ⟨q, -, hread⟩ := doubleQuoted?_escaped c 1 ['"']
  intro h
  rw [h] at hread
  cases hread

theorem length_le_flatMap_escaped (s : Text) : s.length ≤ (s.flatMap escaped).length := by
  induction s with
  | nil => exact Nat.le_refl 0
  | cons c s ih =>
    have hc := List.length_pos_iff.2 (escaped_ne_nil c)
    rw [List.flatMap_cons, List.length_append, List.length_cons]
    omega

/-! ### What is written -/

theorem isWritable_singleChar {c : Char} (hc : isWritable c = true) : ∀ d ∈ singleChar c, isWritable d = true := by
  unfold singleChar
  split
  · exact List.all_eq_true.1 rfl
  · exact fun d hd => List.mem_singleton.1 hd ▸ hc

theorem isWritable_padded (width n : Nat) : ∀ d ∈ padded width n, isWritable d = true := by
  have hdigit : ∀ d : Nat, d < 16 → isWritable d.digitChar.toUpper = true := by decide
  intro c hc
  rcases List.mem_append.1 hc with hc | hc
  · rw [List.eq_of_mem_replicate hc]
    rfl
  · obtain ⟨d, hd, rfl⟩ := List.mem_map.1 hc
    obtain ⟨n, hn, rfl⟩ := Word.exists_of_mem_toDigits (by decide) hd
    exact hdigit n hn

/-- The spelling of a character holds none that a document may not hold. -/
theorem isWritable_escaped (c : Char) : ∀ d ∈ escaped c, isWritable d = true := by
  have hnumber : ∀ e width, isWritable e = true → ∀ d ∈ '\\' :: e :: padded width c.toNat, isWritable d = true :=
    fun e width he => List.forall_mem_cons.2 ⟨by decide, List.forall_mem_cons.2 ⟨he, isWritable_padded _ _⟩⟩
  unfold escaped
  split
  case h_16 =>
    dsimp only
    split
    · next hc => exact fun d hd => List.mem_singleton.1 hd ▸ hc
    · split
      · exact hnumber _ _ (by decide)
      · split <;> exact hnumber _ _ (by decide)
  all_goals exact List.all_eq_true.1 rfl

end Yaml
end Marginalia
