/-
# Numerals read back

A number is written in the digits of a base up to sixteen and read from them again, also where the digits
are spelled with capital letters and zeros are put before them.

Key definition: `Word.takeDigit`.
Key theorems: `Word.foldl_map_toDigits`, `Word.ofDigits?_toDigits`, `Word.ofDigits?_padded`.
-/
import Mathlib.Data.List.Basic
import Marginalia.Data.Value

namespace Marginalia
namespace Word

variable {base : Nat}

/-- The number that is denoted once a digit was read behind those of `n`. -/
def takeDigit (base : Nat) (n : Option Nat) (c : Char) : Option Nat := do
  let n ← n
  let d ← digit? c
  if d < base then some (base * n + d) else none

theorem ofDigits?_of_ne_nil {t : Text} (h : t ≠ []) : ofDigits? base t = t.foldl (takeDigit base) (some 0) := by
  cases t with
  | nil => exact absurd rfl h
  | cons c t => rfl

theorem takeDigit_of_digit? {n d : Nat} {c : Char} (hc : digit? c = some d) (hd : d < base) :
    takeDigit base (some n) c = some (base * n + d) := by
  simp [takeDigit, hc, hd]

theorem digit?_digitChar : ∀ d : Nat, d < 16 → digit? d.digitChar = some d := by decide

theorem digit?_toUpper_digitChar : ∀ d : Nat, d < 16 → digit? d.digitChar.toUpper = some d := by decide

/-- Every sign of a number is a digit of its base. -/
theorem exists_of_mem_toDigits {c : Char} {n : Nat} (hb : 1 < base) (hc : c ∈ Nat.toDigits base n) :
    ∃ d < base, c = d.digitChar := by
  induction n using Nat.strongRecOn with
  | ind n ih =>
    by_cases hn : n < base
    · rw [Nat.toDigits_of_lt_base hn] at hc
      exact ⟨n, hn, List.mem_singleton.1 hc⟩
    · rw [Nat.toDigits_of_base_le hb (Nat.le_of_not_lt hn), List.mem_append] at hc
      rcases hc with hc | hc
      · exact ih (n / base) (Nat.div_lt_self (by omega) hb) hc
      · exact ⟨n % base, Nat.mod_lt n (by omega), List.mem_singleton.1 hc⟩

/-- A number that is not zero starts with another digit. -/
theorem head?_toDigits {n : Nat} (hn : n ≠ 0) : (Nat.toDigits 10 n).head? ≠ some '0' := by
  induction n using Nat.strongRecOn with
  | ind n ih =>
    by_cases hlt : n < 10
    · have hdigit : ∀ d : Nat, d < 10 → d ≠ 0 → d.digitChar ≠ '0' := by decide
      rw [Nat.toDigits_of_lt_base hlt, List.head?_cons]
      exact fun h => hdigit n hlt hn (Option.some.inj h)
    · rw [Nat.toDigits_of_base_le (by decide) (Nat.le_of_not_lt hlt), List.head?_append_of_ne_nil _ Nat.toDigits_ne_nil]
      exact ih (n / 10) (by omega) (by omega)

/-- The digits of a number are read one after the other, whichever spelling `f` they have. -/
theorem foldl_map_toDigits {f : Char → Char} (hb : 1 < base) (hf : ∀ d < base, digit? (f d.digitChar) = some d)
    (n : Nat) : ((Nat.toDigits base n).map f).foldl (takeDigit base) (some 0) = some n := by
  induction n using Nat.strongRecOn with
  | ind n ih =>
    by_cases hn : n < base
    · rw [Nat.toDigits_of_lt_base hn, List.map_singleton, List.foldl_cons, List.foldl_nil,
        takeDigit_of_digit? (hf n hn) hn, Nat.mul_zero, Nat.zero_add]
    · have hmod : n % base < base := Nat.mod_lt n (by omega)
      rw [Nat.toDigits_of_base_le hb (Nat.le_of_not_lt hn), List.map_append, List.foldl_append,
        ih _ (Nat.div_lt_self (by omega) hb), List.map_singleton, List.foldl_cons, List.foldl_nil,
        takeDigit_of_digit? (hf _ hmod) hmod, Nat.div_add_mod]

theorem ofDigits?_toDigits (hb : 1 < base) (h : base ≤ 16) (n : Nat) :
    ofDigits? base (Nat.toDigits base n) = some n := by
  have hf : ∀ d < base, digit? (id d.digitChar) = some d := fun d hd => digit?_digitChar d (by omega)
  rw [ofDigits?_of_ne_nil Nat.toDigits_ne_nil, ← foldl_map_toDigits hb hf n, List.map_id]

theorem foldl_zeros (hb : 0 < base) : ∀ k : Nat,
    (List.replicate k '0').foldl (takeDigit base) (some 0) = some 0
  | 0 => rfl
  | k + 1 => by
    rw [List.replicate_succ, List.foldl_cons, takeDigit_of_digit? (c := '0') (d := 0) rfl hb]
    exact foldl_zeros hb k

/-- Capital digits behind zeros. -/
theorem ofDigits?_padded (k n : Nat) :
    ofDigits? 16 (List.replicate k '0' ++ (Nat.toDigits 16 n).map Char.toUpper) = some n := by
  have hne : (Nat.toDigits 16 n).map Char.toUpper ≠ [] := fun h => Nat.toDigits_ne_nil (List.map_eq_nil_iff.1 h)
  rw [ofDigits?_of_ne_nil fun h => hne (List.append_eq_nil_iff.1 h).2, List.foldl_append, foldl_zeros (by decide),
    foldl_map_toDigits (by decide) digit?_toUpper_digitChar]

end Word
end Marginalia
