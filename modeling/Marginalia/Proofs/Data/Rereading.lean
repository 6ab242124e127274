/-
# JSON read back

What is written as JSON with one item a line is read as what it was written for: texts whatever their
characters, integers, truth values, nothing, and lists and records of them nested no deeper than the
reader goes (`Json.read?_pretty`). A value is read up to where it ends, whatever stands behind it as long as
that may stand there (`Json.Closes`); the induction is on the value, and the fuel of the reader is
measured by the written text.

Key definitions: `Json.Closes`, `Json.Holds`.
Key theorems: `Json.string?_quoted`, `Json.number?_intText`, `Json.read?_pretty`.
-/
import Marginalia.Data.Json.Printer
import Marginalia.Data.Json.Reader
import Marginalia.Proofs.Data.Numerals

namespace Marginalia
namespace Json

/-! ### Texts -/

theorem ofDigits?_control :
    ∀ n < 0x20, Word.ofDigits? 16 ['0', '0', hexDigit (n / 16), hexDigit (n % 16)] = some n := by
  decide

theorem unicodeEscape?_control {c : Char} (hc : c.toNat < 0x20) (t : Text) :
    unicodeEscape? ('0' :: '0' :: hexDigit (c.toNat / 16) :: hexDigit (c.toNat % 16) :: t) = some (c, t) := by
  have hlow : ¬ (0xD800 ≤ c.toNat ∧ c.toNat < 0xDC00) := by omega
  have hhigh : ¬ (0xDC00 ≤ c.toNat ∧ c.toNat < 0xE000) := by omega
  rw [unicodeEscape?, hex4?, ofDigits?_control c.toNat hc]
  simp [hlow, hhigh]

/-- A character that is written as it is. -/
theorem string?_cons {c : Char} (hq : c ≠ '"') (hb : c ≠ '\\') (hc : ¬ c.toNat < 0x20) (fuel : Nat) (t : Text) :
    string? (fuel + 1) (c :: t) = (string? fuel t).map fun p => (c :: p.1, p.2) := by
  rw [string?]
  · rw [if_neg (not_or.2 ⟨hc, hb⟩)]
  all_goals simp_all

/-- A character in its written form is read as the character. -/
theorem string?_escape (fuel : Nat) (c : Char) (t : Text) :
    string? (fuel + 1) (escape c ++ t) = (string? fuel t).map fun p => (c :: p.1, p.2) := by
  unfold escape
  split
  case h_8 hq hb _ _ _ _ _ =>
    split
    · next hc =>
      have hunicode := unicodeEscape?_control hc t
      cases h : string? fuel t <;> simp [string?, hunicode, h]
    · next hc => exact string?_cons hq hb hc fuel t
  all_goals
    cases h : string? fuel t <;> simp [string?, letterEscape?, h]

/-- A text is read up to its closing quote. -/
theorem string?_quoted {s : Text} {fuel : Nat} (hfuel : s.length < fuel) (t : Text) :
    string? fuel ((s.map escape).flatten ++ '"' :: t) = some (s, t) := by
  induction s generalizing fuel with
  | nil =>
    obtain ⟨n, rfl⟩ : ∃ n, fuel = n + 1 := ⟨fuel - 1, by omega⟩
    rfl
  | cons c s ih =>
    rw [List.length_cons] at hfuel
    obtain ⟨n, rfl⟩ : ∃ n, fuel = n + 1 := ⟨fuel - 1, by omega⟩
    rw [List.map_cons, List.flatten_cons, List.append_assoc, string?_escape, ih (by omega), Option.map_some]

/-! ### Numbers -/

/-- What may stand behind a value: nothing, a sign that separates or closes, or a line end. -/
def Closes (t : Text) : Prop := ∀ c, t.head? = some c → c = ',' ∨ c = ']' ∨ c = '\x7d' ∨ c = '\n'

theorem closes_nil : Closes [] := fun _ h => by cases h

theorem closes_cons {c : Char} (h : c = ',' ∨ c = ']' ∨ c = '\x7d' ∨ c = '\n') (t : Text) : Closes (c :: t) := by
  intro d hd
  cases hd
  exact h

theorem digits?_append {ds t : Text} (hne : ds ≠ []) (hd : ∀ c ∈ ds, c.isDigit) (ht : Closes t) :
    digits? (ds ++ t) = some (ds, t) := by
  have hstop : t.takeWhile Char.isDigit = [] ∧ t.dropWhile Char.isDigit = t := by
    cases t with
    | nil => exact ⟨rfl, rfl⟩
    | cons c t =>
      have hc : c.isDigit = false := by
        rcases ht c rfl with rfl | rfl | rfl | rfl <;> decide
      simp [hc]
  rw [digits?, List.takeWhile_append_of_pos hd, List.dropWhile_append_of_pos hd, hstop.1, hstop.2, List.append_nil]
  cases ds with
  | nil => exact absurd rfl hne
  | cons d ds => rfl

theorem fraction?_of_closes {t : Text} (ht : Closes t) : fraction? t = some ([], t) := by
  cases t with
  | nil => rfl
  | cons c t => rcases ht c rfl with rfl | rfl | rfl | rfl <;> rfl

theorem exponent?_of_closes {t : Text} (ht : Closes t) : exponent? t = some ([], t) := by
  cases t with
  | nil => rfl
  | cons c t => rcases ht c rfl with rfl | rfl | rfl | rfl <;> rfl

theorem toDigits_append_ne {c : Char} (hc : c.isDigit = false) (n : Nat) (t rest : Text) :
    Nat.toDigits 10 n ++ t ≠ c :: rest := by
  obtain ⟨d, ds, hd⟩ := List.exists_cons_of_ne_nil (Nat.toDigits_ne_nil (b := 10) (n := n))
  intro h
  rw [hd, List.cons_append, List.cons.injEq] at h
  have hdigit : d.isDigit = true :=
    Nat.isDigit_of_mem_toDigits (b := 10) (n := n) (by decide) (by decide) (hd ▸ List.mem_cons_self)
  rw [h.1, hc] at hdigit
  cases hdigit

/-- Digits in which no zero stands first, or a zero alone. -/
theorem whole?_toDigits (n : Nat) {t : Text} (ht : Closes t) :
    whole? (Nat.toDigits 10 n ++ t) = some (Nat.toDigits 10 n, t) := by
  by_cases hn : n = 0
  · subst hn
    have hstop : t.head?.any Char.isDigit = false := by
      cases t with
      | nil => rfl
      | cons c t => rcases ht c rfl with rfl | rfl | rfl | rfl <;> rfl
    have hzero : Nat.toDigits 10 0 = ['0'] := rfl
    rw [hzero, List.singleton_append, whole?, hstop]
    rfl
  · have hdigits : ∀ c ∈ Nat.toDigits 10 n, c.isDigit := fun c hc =>
      Nat.isDigit_of_mem_toDigits (b := 10) (by decide) (by decide) hc
    have hfirst := Word.head?_toDigits hn
    rw [whole?]
    · exact digits?_append Nat.toDigits_ne_nil hdigits ht
    · intro rest hrest
      rw [← List.head?_append_of_ne_nil _ (Nat.toDigits_ne_nil (b := 10) (n := n)), hrest] at hfirst
      exact hfirst rfl

theorem unsigned?_toDigits (negative : Bool) {n : Nat} (hn : negative = true → n ≠ 0) {t : Text} (ht : Closes t) :
    unsigned? negative (Nat.toDigits 10 n ++ t) = some (.int (if negative then -(n : Int) else n), t) := by
  have hzero : ¬ (negative = true ∧ n = 0) := fun h => hn h.1 h.2
  rw [unsigned?, whole?_toDigits n ht]
  simp [fraction?_of_closes ht, exponent?_of_closes ht, Word.ofDigits?_toDigits, hzero]

/-- An integer in its written form is read as the integer. -/
theorem number?_intText (n : Int) {t : Text} (ht : Closes t) : number? (intText n ++ t) = some (.int n, t) := by
  unfold intText
  split
  · next hn =>
    have hne : n.natAbs ≠ 0 := by omega
    rw [List.cons_append, number?, unsigned?_toDigits true (fun _ => hne) ht]
    have habs : -(n.natAbs : Int) = n := by omega
    simp only [if_true, habs]
  · next hn =>
    rw [number?, unsigned?_toDigits false (fun h => by cases h) ht]
    · have habs : (n.natAbs : Int) = n := by omega
      simp only [Bool.false_eq_true, if_false, habs]
    · exact fun rest hrest => toDigits_append_ne (by decide) _ _ _ hrest

/-! ### Values -/

mutual

/-- JSON can hold the value, with lists and records nested at most `depth` deep. -/
def Holds (depth : Nat) : Value → Prop
  | .null => True
  | .bool _ => True
  | .int _ => True
  | .str _ => True
  | .list vs => 0 < depth ∧ HoldsAll (depth - 1) vs
  | .record fs => 0 < depth ∧ HoldsFields (depth - 1) fs
  | _ => False

/-- JSON can hold each value of a list. -/
def HoldsAll (depth : Nat) : List Value → Prop
  | [] => True
  | v :: vs => Holds depth v ∧ HoldsAll depth vs

/-- JSON can hold each value of a record, and the keys are texts. -/
def HoldsFields (depth : Nat) : List (Key × Value) → Prop
  | [] => True
  | (k, v) :: fs => k.bare = false ∧ Holds depth v ∧ HoldsFields depth fs

end

theorem skipBlanks_cons {c : Char} (hc : isBlank c = false) (t : Text) : skipBlanks (c :: t) = c :: t := by
  simp [skipBlanks, hc]

theorem skipBlanks_newLine (level : Nat) (t : Text) : skipBlanks (newLine level ++ t) = skipBlanks t := by
  have hblank : ∀ c ∈ newLine level, isBlank c := by
    intro c hc
    rcases List.mem_cons.1 hc with rfl | hc
    · decide
    · rw [List.eq_of_mem_replicate hc]
      decide
  exact List.dropWhile_append_of_pos hblank

/-- Blanks before a value do not count. -/
theorem value?_congr {a b : Text} (h : skipBlanks a = skipBlanks b) (fuel depth : Nat) :
    value? fuel depth a = value? fuel depth b := by
  cases fuel with
  | zero => rfl
  | succ fuel => simp only [value?, h]

/-- An integer starts with its sign or a digit. -/
theorem exists_intText_eq (n : Int) : ∃ c cs, intText n = c :: cs ∧ (c = '-' ∨ c.isDigit) := by
  unfold intText
  split
  · exact ⟨_, _, rfl, .inl rfl⟩
  · obtain ⟨d, ds, hd⟩ := List.exists_cons_of_ne_nil (Nat.toDigits_ne_nil (b := 10) (n := n.natAbs))
    exact ⟨d, ds, hd, .inr (Nat.isDigit_of_mem_toDigits (b := 10) (by decide) (by decide) (hd ▸ List.mem_cons_self))⟩

theorem isBlank_eq_false {c : Char} (h : c = '-' ∨ c.isDigit) : isBlank c = false := by
  by_contra hc
  simp only [isBlank, Bool.not_eq_false, Bool.or_eq_true, beq_iff_eq] at hc
  rcases hc with ((rfl | rfl) | rfl) | rfl <;> revert h <;> decide

/-- A number is told by its first character. -/
theorem value?_intText (n : Int) (fuel depth : Nat) {t : Text} (ht : Closes t) :
    value? (fuel + 1) depth (intText n ++ t) = some (.int n, t) := by
  obtain ⟨c, cs, hn, hc⟩ := exists_intText_eq n
  have hnumber := number?_intText n ht
  rw [hn, List.cons_append] at hnumber ⊢
  rw [value?, skipBlanks_cons (isBlank_eq_false hc)]
  split
  case h_7 => exact hnumber
  all_goals
    next h =>
      obtain ⟨rfl, -⟩ := List.cons.inj h
      exact absurd hc (by decide)

/-- The first character of a written value is no blank and closes no list. -/
theorem exists_prettyAt_eq {depth : Nat} {v : Value} (hv : Holds depth v) (level : Nat) :
    ∃ c cs, prettyAt level v = c :: cs ∧ isBlank c = false ∧ c ≠ ']' := by
  cases v with
  | null => exact ⟨_, _, rfl, rfl, by decide⟩
  | bool b => cases b <;> exact ⟨_, _, rfl, rfl, by decide⟩
  | int n =>
    obtain ⟨c, cs, hn, hc⟩ := exists_intText_eq n
    exact ⟨c, cs, hn, isBlank_eq_false hc, fun h => absurd (h ▸ hc) (by decide)⟩
  | str s => exact ⟨_, _, rfl, rfl, by decide⟩
  | list vs => cases vs <;> exact ⟨_, _, rfl, rfl, by decide⟩
  | record fs => cases fs <;> exact ⟨_, _, rfl, rfl, by decide⟩
  | real | bare | sequence | misfit => exact absurd hv id

theorem length_le_flatten_escape (s : Text) : s.length ≤ (s.map escape).flatten.length := by
  induction s with
  | nil => exact Nat.le_refl 0
  | cons c s ih =>
    have hc : 1 ≤ (escape c).length := by
      unfold escape
      split <;> first | exact Nat.succ_le_succ (Nat.zero_le _) | (split <;> exact Nat.succ_le_succ (Nat.zero_le _))
    rw [List.map_cons, List.flatten_cons, List.length_append, List.length_cons]
    omega

theorem length_quote (s : String) : s.toList.length + 2 ≤ (quote s).length := by
  have h := length_le_flatten_escape s.toList
  simp only [quote, List.length_append, List.length_cons, List.length_nil]
  omega

theorem length_newLine_pos (level : Nat) : 0 < (newLine level).length := Nat.succ_pos _

/-- A text in quotes, with the opening quote read before. -/
theorem string?_quote {s : String} (fuel : Nat) (hfuel : s.toList.length < fuel) (t : Text) :
    ∃ q, quote s ++ t = '"' :: q ∧ string? fuel q = some (s.toList, t) :=
  ⟨_, by rw [quote, List.append_assoc, List.cons_append, List.singleton_append], string?_quoted hfuel t⟩

theorem head?_prettyItems {depth : Nat} (v : Value) (vs : List Value) (hv : HoldsAll depth (v :: vs)) (level : Nat)
    (t : Text) : (skipBlanks (prettyItems level (v :: vs) ++ t)).head? ≠ some ']' := by
  obtain ⟨c, cs, hcs, hblank, hc⟩ := exists_prettyAt_eq hv.1 level
  have hskip : ∀ u, skipBlanks (newLine level ++ (prettyAt level v ++ u)) = c :: (cs ++ u) := fun u => by
    rw [skipBlanks_newLine, hcs, List.cons_append, skipBlanks_cons hblank]
  cases vs <;> simp [prettyItems, hskip, hc]

/-! ### Items and fields, one after the other -/

section Steps

variable {fuel depth : Nat} {v : Value} {t r rest : Text}

theorem value?_list (h : (skipBlanks t).head? ≠ some ']') :
    value? (fuel + 1) (depth + 1) ('[' :: t) = (items? fuel depth t).map fun p => (.list p.1, p.2) := by
  simp only [value?, skipBlanks_cons (c := '[') rfl]
  split
  · next hr => exact absurd (congrArg List.head? hr) h
  · rfl

theorem value?_record (h : (skipBlanks t).head? ≠ some '\x7d') :
    value? (fuel + 1) (depth + 1) ('\x7b' :: t) = (fields? fuel depth t).map fun p => (.record p.1, p.2) := by
  simp only [value?, skipBlanks_cons (c := '\x7b') rfl]
  split
  · next hr => exact absurd (congrArg List.head? hr) h
  · rfl

theorem items?_next (hv : value? fuel depth t = some (v, ',' :: rest)) :
    items? (fuel + 1) depth t = (items? fuel depth rest).map fun p => (v :: p.1, p.2) := by
  rw [items?, hv]
  cases h : items? fuel depth rest <;> simp [skipBlanks_cons (c := ',') rfl, h]

theorem items?_last (hv : value? fuel depth t = some (v, r)) (hr : skipBlanks r = ']' :: rest) :
    items? (fuel + 1) depth t = some ([v], rest) := by
  rw [items?, hv]
  simp [hr]

/-- What stands before the value of a field. -/
def fieldHead (level : Nat) (k : Key) : Text := newLine level ++ quote k.text ++ [':', ' ']

theorem fields?_next {k : Key} (hk : k.bare = false) (hfuel : k.text.toList.length < fuel) (level : Nat)
    (hv : value? fuel depth t = some (v, ',' :: rest)) :
    fields? (fuel + 1) depth (fieldHead level k ++ t) =
      (fields? fuel depth rest).map fun p => ((k, v) :: p.1, p.2) := by
  obtain ⟨text, bare⟩ := k
  cases hk
  obtain ⟨q, hq, hs⟩ := string?_quote fuel hfuel (':' :: ' ' :: t)
  have hblank : value? fuel depth (' ' :: t) = some (v, ',' :: rest) := (value?_congr (by rfl) fuel depth).trans hv
  have hhead : fieldHead level ⟨text, false⟩ ++ t = newLine level ++ '"' :: q := by simp [fieldHead, ← hq]
  rw [hhead, fields?, skipBlanks_newLine, skipBlanks_cons (c := '"') rfl]
  cases h : fields? fuel depth rest <;>
    simp [hs, skipBlanks_cons (c := ':') rfl, skipBlanks_cons (c := ',') rfl, hblank, h]

theorem fields?_last {k : Key} (hk : k.bare = false) (hfuel : k.text.toList.length < fuel) (level : Nat)
    (hv : value? fuel depth t = some (v, r)) (hr : skipBlanks r = '\x7d' :: rest) :
    fields? (fuel + 1) depth (fieldHead level k ++ t) = some ([(k, v)], rest) := by
  obtain ⟨text, bare⟩ := k
  cases hk
  obtain ⟨q, hq, hs⟩ := string?_quote fuel hfuel (':' :: ' ' :: t)
  have hblank : value? fuel depth (' ' :: t) = some (v, r) := (value?_congr (by rfl) fuel depth).trans hv
  have hhead : fieldHead level ⟨text, false⟩ ++ t = newLine level ++ '"' :: q := by simp [fieldHead, ← hq]
  rw [hhead, fields?, skipBlanks_newLine, skipBlanks_cons (c := '"') rfl]
  simp [hs, skipBlanks_cons (c := ':') rfl, hblank, hr]

theorem prettyItems_cons (level : Nat) (v w : Value) (vs : List Value) :
    prettyItems level (v :: w :: vs) = newLine level ++ prettyAt level v ++ ',' :: prettyItems level (w :: vs) := by
  simp [prettyItems]

theorem prettyFields_singleton (level : Nat) (k : Key) (v : Value) :
    prettyFields level [(k, v)] = fieldHead level k ++ prettyAt level v := by
  simp [prettyFields, fieldHead]

theorem prettyFields_cons (level : Nat) (k : Key) (v : Value) (f : Key × Value) (fs : List (Key × Value)) :
    prettyFields level ((k, v) :: f :: fs) = fieldHead level k ++ prettyAt level v ++ ',' :: prettyFields level (f :: fs) := by
  simp [prettyFields, fieldHead]

theorem head?_prettyFields (f : Key × Value) (fs : List (Key × Value)) (level : Nat) (t : Text) :
    (skipBlanks (prettyFields level (f :: fs) ++ t)).head? ≠ some '\x7d' := by
  obtain ⟨k, v⟩ := f
  have hskip : ∀ u, skipBlanks (newLine level ++ (quote k.text ++ u)) =
      '"' :: ((k.text.toList.map escape).flatten ++ '"' :: u) := fun u => by
    rw [skipBlanks_newLine]
    simp [quote, skipBlanks_cons (c := '"') rfl]
  cases fs <;> simp [prettyFields, hskip]

end Steps

mutual

/-- A value in its written form is read as the value, up to its end. -/
theorem value?_prettyAt {v : Value} {depth : Nat} (level fuel : Nat) (hv : Holds depth v)
    (hfuel : 2 * (prettyAt level v).length ≤ fuel) {t : Text} (ht : Closes t) :
    value? fuel depth (prettyAt level v ++ t) = some (v, t) := by
  obtain ⟨c, cs, hcs, -⟩ := exists_prettyAt_eq hv level
  obtain ⟨fuel, rfl⟩ : ∃ n, fuel = n + 1 := ⟨fuel - 1, by rw [hcs, List.length_cons] at hfuel; omega⟩
  cases v with
  | null => rfl
  | bool b => cases b <;> rfl
  | int n => exact value?_intText n fuel depth ht
  | str s =>
    have hlength := length_quote s
    rw [prettyAt, compact] at hfuel ⊢
    · obtain ⟨q, hq, hs⟩ := string?_quote (s := s) fuel (by omega) t
      rw [hq, value?, skipBlanks_cons (by decide)]
      simp [hs]
    all_goals simp
  | list vs =>
    obtain ⟨depth, rfl⟩ : ∃ n, depth = n + 1 := ⟨depth - 1, by have := hv.1; omega⟩
    cases vs with
    | nil => rfl
    | cons v vs =>
      have hlist : prettyAt level (.list (v :: vs)) ++ t =
          '[' :: (prettyItems (level + 1) (v :: vs) ++ (newLine level ++ ']' :: t)) := by
        simp [prettyAt]
      have hlength := congrArg List.length hlist
      simp only [List.length_append, List.length_cons] at hlength
      have hitems := items?_prettyItems (level + 1) fuel level t (v :: vs) (by simp) hv.2 (by omega)
      rw [Nat.add_sub_cancel] at hitems
      rw [hlist, value?_list (head?_prettyItems v vs hv.2 _ _), hitems, Option.map_some]
  | record fs =>
    obtain ⟨depth, rfl⟩ : ∃ n, depth = n + 1 := ⟨depth - 1, by have := hv.1; omega⟩
    cases fs with
    | nil => rfl
    | cons f fs =>
      have hrecord : prettyAt level (.record (f :: fs)) ++ t =
          '\x7b' :: (prettyFields (level + 1) (f :: fs) ++ (newLine level ++ '\x7d' :: t)) := by
        simp [prettyAt]
      have hlength := congrArg List.length hrecord
      simp only [List.length_append, List.length_cons] at hlength
      have hfields := fields?_prettyFields (level + 1) fuel level t (f :: fs) (by simp) hv.2 (by omega)
      rw [Nat.add_sub_cancel] at hfields
      rw [hrecord, value?_record (head?_prettyFields f fs _ _), hfields, Option.map_some]
  | real | bare | sequence | misfit => exact absurd hv id
termination_by sizeOf v

/-- The items of a list. -/
theorem items?_prettyItems {depth : Nat} (level fuel l : Nat) (t : Text) : ∀ vs : List Value, vs ≠ [] →
    HoldsAll depth vs → 2 * (prettyItems level vs).length ≤ fuel →
    items? fuel depth (prettyItems level vs ++ (newLine l ++ ']' :: t)) = some (vs, t)
  | [], hne, _, _ => absurd rfl hne
  | [v], _, hv, hfuel => by
    have hclose : Closes (newLine l ++ ']' :: t) := closes_cons (by decide) _
    have hnewLine := length_newLine_pos level
    simp only [prettyItems, List.length_append] at hfuel
    obtain ⟨fuel, rfl⟩ : ∃ n, fuel = n + 1 := ⟨fuel - 1, by omega⟩
    have hread := value?_prettyAt (v := v) level fuel hv.1 (by omega) hclose
    rw [prettyItems, List.append_assoc]
    refine items?_last (r := newLine l ++ ']' :: t) ?_ (by rw [skipBlanks_newLine, skipBlanks_cons (by decide)])
    rw [value?_congr (skipBlanks_newLine level _), hread]
  | v :: w :: vs, _, hv, hfuel => by
    have hnewLine := length_newLine_pos level
    simp only [prettyItems_cons, List.length_append, List.length_cons] at hfuel
    obtain ⟨fuel, rfl⟩ : ∃ n, fuel = n + 1 := ⟨fuel - 1, by omega⟩
    have hread := value?_prettyAt (v := v) level fuel hv.1 (by omega)
      (closes_cons (c := ',') (by decide) (prettyItems level (w :: vs) ++ (newLine l ++ ']' :: t)))
    have hrest := items?_prettyItems level fuel l t (w :: vs) (by simp) hv.2 (by omega)
    rw [prettyItems_cons, List.append_assoc, List.append_assoc, List.cons_append, items?_next, hrest, Option.map_some]
    rw [value?_congr (skipBlanks_newLine level _), hread]
termination_by vs => sizeOf vs

/-- The fields of a record. -/
theorem fields?_prettyFields {depth : Nat} (level fuel l : Nat) (t : Text) : ∀ fs : List (Key × Value), fs ≠ [] →
    HoldsFields depth fs → 2 * (prettyFields level fs).length ≤ fuel →
    fields? fuel depth (prettyFields level fs ++ (newLine l ++ '\x7d' :: t)) = some (fs, t)
  | [], hne, _, _ => absurd rfl hne
  | [(k, v)], _, hv, hfuel => by
    have hclose : Closes (newLine l ++ '\x7d' :: t) := closes_cons (by decide) _
    have hquote := length_quote k.text
    simp only [prettyFields, List.length_append, List.length_cons] at hfuel
    obtain ⟨fuel, rfl⟩ : ∃ n, fuel = n + 1 := ⟨fuel - 1, by omega⟩
    have hread := value?_prettyAt (v := v) level fuel hv.2.1 (by omega) hclose
    rw [prettyFields_singleton, List.append_assoc]
    exact fields?_last hv.1 (by omega) level hread (by rw [skipBlanks_newLine, skipBlanks_cons (by decide)])
  | (k, v) :: g :: fs, _, hv, hfuel => by
    have hquote := length_quote k.text
    simp only [prettyFields_cons, fieldHead, List.length_append, List.length_cons] at hfuel
    obtain ⟨fuel, rfl⟩ : ∃ n, fuel = n + 1 := ⟨fuel - 1, by omega⟩
    have hread := value?_prettyAt (v := v) level fuel hv.2.1 (by omega)
      (closes_cons (c := ',') (by decide) (prettyFields level (g :: fs) ++ (newLine l ++ '\x7d' :: t)))
    have hrest := fields?_prettyFields level fuel l t (g :: fs) (by simp) hv.2.2 (by omega)
    rw [prettyFields_cons, List.append_assoc, List.append_assoc, List.cons_append,
      fields?_next hv.1 (by omega) level hread, hrest, Option.map_some]
termination_by fs => sizeOf fs

end

/-- **What is written is read.** A value that JSON can hold is read from its written form. -/
theorem read?_pretty {v : Value} (hv : Holds maxDepth v) : read? (pretty v) = some v := by
  have hread := value?_prettyAt 0 (2 * (pretty v).length + 2) hv (Nat.le_add_right _ 2) closes_nil
  rw [List.append_nil] at hread
  rw [read?, show value? _ maxDepth (pretty v) = some (v, []) from hread]
  rfl

end Json
end Marginalia
