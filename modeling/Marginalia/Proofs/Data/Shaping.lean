/-
# Shapes read back

A record of fields under names of their own fits the shape with these names and is read as its fields
(`Value.fields?_object`), each of which is found by its name (`Fields.need_cons`) and read by the reader of its
kind: what is written for a text, a truth value, a number of limited size, something or nothing, a list of such
is read as what it was written for. A value without unquoted words is settled (`Value.IsSettled`): to settle it changes nothing.

Key definition: `Value.IsSettled`.
Key theorems: `Fields.need_cons`, `Value.fields?_object`, `Value.record?_object`, `Value.uint64?_nat`,
`Value.option?_ofOption`, `Value.items?_list`, `Value.isSettled_object`.
-/
import Mathlib.Data.List.Nodup
import Marginalia.Data.Shape

namespace Marginalia
namespace Fields

variable {α : Type}

/-! ### Fields by name -/

theorem lookup_cons (k name : String) (v : Value) (fs : Fields) :
    List.lookup name ((k, v) :: fs) = if name = k then some v else List.lookup name fs := by
  rw [List.lookup_cons]
  split <;> simp_all

/-- A field is read from where its name stands first. -/
theorem need_cons (k name : String) (v : Value) (fs : Fields) (read? : Value → Option α) :
    need ((k, v) :: fs) name read? = if name = k then read? v else need fs name read? := by
  rw [need, lookup_cons]
  split <;> rfl

theorem orDefault_cons (k name : String) (v : Value) (fs : Fields) (read? : Value → Option α) (default : α) :
    orDefault ((k, v) :: fs) name read? default =
      if name = k then read? v else orDefault fs name read? default := by
  rw [orDefault, lookup_cons]
  by_cases h : name = k
  · rw [if_pos h, if_pos h]
  · rw [if_neg h, if_neg h, orDefault]

end Fields

namespace Value

variable {α : Type} {names : List String} {read? : Value → Option α} {write : α → Value}

/-! ### Records -/

theorem standsOnce_of_nodup {fs : List (Key × Value)} (h : (fs.map (·.1.text)).Nodup) (name : String) :
    standsOnce fs name = true := by
  have hcount := List.nodup_iff_count_le_one.1 h name
  rw [List.count_eq_countP, List.countP_map, List.countP_eq_length_filter] at hcount
  exact decide_eq_true hcount

/-- Of a record under names of their own the fields with the given names are read. -/
theorem record?_record {fs : List (Key × Value)} (h : (fs.map (·.1.text)).Nodup) (names : List String) :
    record? names (record fs) =
      some ((fs.filter fun f => names.contains f.1.text).map fun f => (f.1.text, f.2)) := by
  rw [record?, if_pos]
  exact List.all_eq_true.2 fun name _ => standsOnce_of_nodup h name

theorem record?_object {fs : List (String × Value)} (h : (fs.map (·.1)).Nodup) (names : List String) :
    record? names (object fs) = some (fs.filter fun f => names.contains f.1) := by
  rw [object, record?_record (by simpa [Function.comp_def] using h), List.filter_map, List.map_map]
  exact congrArg some (List.map_id _)

/-- A record is read as its fields, whether its keys are quoted or not. -/
theorem fields?_record {fs : List (Key × Value)} (hn : fs.map (·.1.text) = names) (h : names.Nodup) :
    (record fs).fields? names = some (fs.map fun f => (f.1.text, f.2)) := by
  subst hn
  have hall : (fs.filter fun f => (fs.map (·.1.text)).contains f.1.text) = fs := by
    refine List.filter_eq_self.2 fun f hf => ?_
    exact List.contains_iff_mem.2 (List.mem_map_of_mem hf)
  exact (record?_record h _).trans (by rw [hall])

theorem fields?_object {fs : List (String × Value)} (hn : fs.map (·.1) = names) (h : names.Nodup) :
    (object fs).fields? names = some fs := by
  rw [object, fields?_record (by simpa [Function.comp_def] using hn) h, List.map_map]
  exact congrArg some (List.map_id _)

/-! ### Numbers, options and lists -/

theorem below?_nat {n bound : Nat} (h : n < bound) : below? bound (nat n) = some n := by
  simp [below?, nat, Option.filter, h]

theorem uint32?_nat (n : UInt32) : uint32? (nat n.toNat) = some n := by
  rw [uint32?, below?_nat n.toNat_lt, Option.map_some, UInt32.ofNat_toNat]

theorem uint64?_nat (n : UInt64) : uint64? (nat n.toNat) = some n := by
  rw [uint64?, below?_nat n.toNat_lt, Option.map_some, UInt64.ofNat_toNat]

/-- Something is told from nothing if it is written neither as nothing nor as an unquoted word. -/
theorem option?_ofOption (h : ∀ a, read? (write a) = some a) (hn : ∀ a, write a ≠ null)
    (hb : ∀ a w, write a ≠ bare w) (o : Option α) : option? read? (ofOption write o) = some o := by
  cases o with
  | none => rfl
  | some a =>
    rw [ofOption, option?, h, Option.map_some]
    · exact hn a
    · exact hb a

theorem option?_optStr (o : Option String) : option? text? (optStr o) = some o := by
  cases o <;> rfl

theorem mapM_map (h : ∀ a, read? (write a) = some a) (l : List α) : (l.map write).mapM read? = some l := by
  induction l with
  | nil => rfl
  | cons a l ih => rw [List.map_cons, List.mapM_cons, h, ih]; rfl

theorem items?_list (h : ∀ a, read? (write a) = some a) (l : List α) : items? read? (list (l.map write)) = some l :=
  mapM_map h l

theorem items?_strs (l : List String) : items? text? (strs l) = some l :=
  items?_list (fun s : String => (rfl : text? (str s) = some s)) l

/-! ### Values without unquoted words -/

/-- The value holds no unquoted word, so that it denotes itself. -/
def IsSettled (v : Value) : Prop := v.settle = v

theorem settleAll_eq_self : ∀ {vs : List Value}, (∀ v ∈ vs, v.IsSettled) → settleAll vs = vs
  | [], _ => rfl
  | v :: vs, h => by
    rw [List.forall_mem_cons] at h
    rw [settleAll, h.1, settleAll_eq_self h.2]

theorem settleFields_eq_self : ∀ {fs : List (Key × Value)}, (∀ f ∈ fs, f.2.IsSettled) → settleFields fs = fs
  | [], _ => rfl
  | (k, v) :: fs, h => by
    rw [List.forall_mem_cons] at h
    rw [settleFields, h.1, settleFields_eq_self h.2]

theorem isSettled_optStr (o : Option String) : (optStr o).IsSettled := by cases o <;> rfl

theorem isSettled_ofOption (h : ∀ a, (write a).IsSettled) (o : Option α) : (ofOption write o).IsSettled := by
  cases o with
  | none => rfl
  | some a => exact h a

theorem isSettled_list (h : ∀ a, (write a).IsSettled) (l : List α) : (list (l.map write)).IsSettled := by
  rw [IsSettled, settle, settleAll_eq_self]
  intro v hv
  obtain ⟨a, -, rfl⟩ := List.mem_map.1 hv
  exact h a

theorem isSettled_strs (l : List String) : (strs l).IsSettled :=
  isSettled_list (fun s : String => (rfl : (str s).settle = str s)) l

theorem isSettled_object {fs : List (String × Value)} (h : ∀ f ∈ fs, f.2.IsSettled) : (object fs).IsSettled := by
  have hkeys : (fs.map fun f => ((⟨f.1, false⟩ : Key), f.2)).all (fun f => keyFits f.1) = true := by
    rw [List.all_map, List.all_eq_true]
    exact fun _ _ => rfl
  rw [IsSettled, object, settle, if_pos hkeys, settleFields_eq_self]
  intro f hf
  obtain ⟨g, hg, rfl⟩ := List.mem_map.1 hf
  exact h g hg

end Value
end Marginalia
