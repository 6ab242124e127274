/-
# Paths that say the same

Two paths that say the same differ only in parts that a walk passes over, so
they lead to one place, if both of them lead somewhere
(`FileTree.locate_eq_of_same`). One of them may lead nowhere: a slash below a
file asks for a folder.

Key definitions: `Path.leadPiece`, `Path.steps`.
Key theorems: `Path.steps_parts_eq`, `FileTree.walk_eq_of_steps`, `FileTree.locate_eq_of_same`.
-/
import Marginalia.FileTree.Basic

namespace Marginalia

namespace Path

/-! ### What the parts say -/

/-- A part that is not the first, with what it says. -/
def innerPiece (part : Text) : Text × Option Component := (part, innerComponent? part)

/-- The first part of a path of several parts, with what it says. -/
def leadPiece (first : Text) : Text × Option Component :=
  (first, if first = [] then some .root else if first = ['.'] then some .here else innerComponent? first)

theorem exists_splitParts_eq (t : Text) : ∃ p ps, splitParts t = p :: ps := by
  cases t with
  | nil => exact ⟨[], [], rfl⟩
  | cons c t =>
    rw [splitParts]
    split
    · exact ⟨_, _, rfl⟩
    · split <;> exact ⟨_, _, rfl⟩

theorem eq_nil_of_splitParts {t : Text} (h : splitParts t = [[]]) : t = [] := by
  cases t with
  | nil => rfl
  | cons c t =>
    obtain ⟨q, qs, hq⟩ := exists_splitParts_eq t
    rw [splitParts, hq] at h
    split at h <;> cases h

variable {p q : Path} {rest : List Text} {first : Text}

theorem pieces_eq (h : p.parts = first :: rest) (h0 : first = [] → rest ≠ []) :
    p.pieces = leadPiece first :: rest.map innerPiece := by
  rw [pieces, h]
  by_cases hf : first = []
  · simp [leadPiece, hf, h0 hf, innerPiece]
  · simp [leadPiece, hf, innerPiece]

theorem leadPiece_ne_none (first : Text) : (leadPiece first).2 ≠ none := by
  unfold leadPiece innerComponent?
  grind

/-- What the parts below the start of a path say. -/
def steps (parts : List Text) : List Component := parts.filterMap innerComponent?

theorem innerComponent?_eq_none_iff {part : Text} : innerComponent? part = none ↔ part = [] ∨ part = ['.'] := by
  unfold innerComponent?
  grind

/-- A part is told by what it says. -/
theorem eq_of_innerComponent? {a b : Text} {c : Component} (ha : innerComponent? a = some c)
    (hb : innerComponent? b = some c) : a = b := by
  unfold innerComponent? at ha hb
  grind

theorem innerComponent?_ne {part : Text} {c : Component} (h : innerComponent? part = some c) :
    c ≠ .root ∧ c ≠ .here := by
  unfold innerComponent? at h
  grind

theorem exists_parts_eq (h : p.text ≠ []) : ∃ first rest, p.parts = first :: rest ∧ (first = [] → rest ≠ []) := by
  obtain ⟨first, rest, hp⟩ := exists_splitParts_eq p.text
  refine ⟨first, rest, hp, fun hf hr => h (eq_nil_of_splitParts ?_)⟩
  rw [hp, hf, hr]

/-- What a path says is where it starts, and the steps from there. -/
theorem steps_parts_eq (h : p.text ≠ []) :
    steps p.parts = p.components.filter fun c => c ≠ .root ∧ c ≠ .here := by
  obtain ⟨first, rest, hp, h0⟩ := exists_parts_eq h
  have hrest : (steps rest).filter (fun c => c ≠ .root ∧ c ≠ .here) = steps rest := by
    refine List.filter_eq_self.2 fun c hc => ?_
    obtain ⟨part, -, hpart⟩ := List.mem_filterMap.1 hc
    simpa using innerComponent?_ne hpart
  have hcomp : p.components = (leadPiece first).2.toList ++ steps rest := by
    rw [components, pieces_eq hp h0, List.filterMap_cons, List.filterMap_map]
    cases (leadPiece first).2 <;> rfl
  have hlead : (leadPiece first).2.toList.filter (fun c => c ≠ .root ∧ c ≠ .here) =
      (innerComponent? first).toList := by
    unfold leadPiece
    by_cases hf : first = []
    · simp [hf, innerComponent?]
    · by_cases hd : first = ['.']
      · simp [hd, innerComponent?]
      · cases hc : innerComponent? first with
        | none => simp [hf, hd]
        | some c =>
          obtain ⟨hroot, hhere⟩ := innerComponent?_ne hc
          simp [hf, hd, hroot, hhere]
  rw [hcomp, List.filter_append, hrest, hlead, hp, steps, List.filterMap_cons]
  cases innerComponent? first <;> rfl

/-- A path starts at the root if it says so. -/
theorem isAbsolute_eq (h : p.text ≠ []) : p.isAbsolute = (p.components.head? == some .root) := by
  obtain ⟨first, rest, hp, h0⟩ := exists_parts_eq h
  have hhead : p.components.head? = (leadPiece first).2 := by
    obtain ⟨c, hc⟩ := Option.ne_none_iff_exists'.1 (leadPiece_ne_none first)
    rw [components, pieces_eq hp h0, List.filterMap_cons_some hc, hc]
    rfl
  have habs : p.isAbsolute = true ↔ first = [] := by
    rw [isAbsolute, beq_iff_eq]
    rw [parts] at hp
    obtain ⟨c, t, ht⟩ := List.exists_cons_of_ne_nil h
    obtain ⟨q, qs, hq⟩ := exists_splitParts_eq t
    rw [ht, splitParts, hq] at hp
    rw [ht]
    grind
  rw [hhead, Bool.eq_iff_iff, habs, beq_iff_eq, leadPiece]
  constructor
  · intro hf
    simp [hf]
  · intro hroot
    split at hroot
    · assumption
    · split at hroot
      · cases hroot
      · exact absurd rfl (innerComponent?_ne hroot).1

end Path

namespace FileTree

open Marginalia.Path

variable {t : FileTree} {l m m' : Location} {follow : Location → List Text → Except IoFault Location}

/-! ### Walks -/

/-- A part that says nothing is passed over. -/
theorem walkBy_of_silent {part : Text} {parts : List Text} (hp : innerComponent? part = none)
    (h : t.walkBy false follow l (part :: parts) = .ok m) : t.walkBy false follow l parts = .ok m := by
  rw [walkBy] at h
  split at h
  · cases h
  · rwa [if_pos (innerComponent?_eq_none_iff.1 hp)] at h

theorem walkBy_of_steps_nil : ∀ {parts : List Text}, steps parts = [] → t.walkBy false follow l parts = .ok m → m = l
  | [], _, h => (Except.ok.inj h).symm
  | part :: parts, hs, h => by
    cases hp : innerComponent? part with
    | none => exact walkBy_of_steps_nil (by rwa [steps, List.filterMap_cons_none hp] at hs) (walkBy_of_silent hp h)
    | some c => rw [steps, List.filterMap_cons_some hp] at hs; cases hs

/-- A walk goes on from the first part that says something. -/
theorem exists_walkBy_eq {c : Component} {cs : List Component} : ∀ {parts : List Text}, steps parts = c :: cs →
    t.walkBy false follow l parts = .ok m →
    ∃ part rest, innerComponent? part = some c ∧ steps rest = cs ∧ t.walkBy false follow l (part :: rest) = .ok m
  | [], hs, _ => by cases hs
  | part :: parts, hs, h => by
    cases hp : innerComponent? part with
    | none => exact exists_walkBy_eq (by rwa [steps, List.filterMap_cons_none hp] at hs) (walkBy_of_silent hp h)
    | some d =>
      rw [steps, List.filterMap_cons_some hp, List.cons.injEq] at hs
      exact ⟨part, parts, hs.1 ▸ hp, hs.2, h⟩

/-- Walks of the same steps end at one place, if that is so behind links. -/
theorem walkBy_eq_of_steps (hf : ∀ l ps qs m m', steps ps = steps qs → follow l ps = .ok m → follow l qs = .ok m' →
      m = m') : ∀ (cs : List Component) {l : Location} {ps qs : List Text}, steps ps = cs → steps qs = cs →
    t.walkBy false follow l ps = .ok m → t.walkBy false follow l qs = .ok m' → m = m'
  | [], _, _, _, hp, hq, h, h' => (walkBy_of_steps_nil hp h).trans (walkBy_of_steps_nil hq h').symm
  | c :: cs, l, _, _, hp, hq, h, h' => by
    obtain ⟨part, ps, hpart, hps, h⟩ := exists_walkBy_eq hp h
    obtain ⟨part', qs, hpart', hqs, h'⟩ := exists_walkBy_eq hq h'
    cases eq_of_innerComponent? hpart hpart'
    have hsaid : ¬ (part = [] ∨ part = ['.']) := fun hn => by
      rw [innerComponent?_eq_none_iff.2 hn] at hpart
      cases hpart
    rw [walkBy] at h h'
    simp only [if_neg hsaid] at h h'
    split at h
    · cases h
    · next hfolder =>
      rw [if_neg hfolder] at h'
      split at h
      · next hup =>
        rw [if_pos hup] at h'
        exact walkBy_eq_of_steps hf cs hps hqs h h'
      · next hup =>
        rw [if_neg hup] at h'
        split at h
        · simp at h
        · next target hi =>
          simp only [hi] at h'
          refine hf _ _ _ _ _ ?_ h h'
          rw [steps, steps, List.filterMap_append, List.filterMap_append]
          exact congrArg _ (hps.trans hqs.symm)
        · next e hlink hi =>
          simp only [hi] at h'
          exact walkBy_eq_of_steps hf cs hps hqs h h'

theorem walk_eq_of_steps : ∀ (links : Nat) {l : Location} {ps qs : List Text} {m m' : Location},
    steps ps = steps qs → t.walk false links l ps = .ok m → t.walk false links l qs = .ok m' → m = m'
  | 0, _, _, qs, _, _, hs, h, h' => walkBy_eq_of_steps (fun _ _ _ _ _ _ h => by cases h) (steps qs) hs rfl h h'
  | links + 1, _, _, qs, _, _, hs, h, h' => by
    have hf : ∀ l ps qs m m', steps ps = steps qs → t.walk false links l ps = .ok m → t.walk false links l qs = .ok m' → m = m' :=
      fun _ _ _ _ _ => walk_eq_of_steps links
    exact walkBy_eq_of_steps hf (steps qs) hs rfl h h'

/-- Paths that say the same lead to one place, if they lead somewhere. -/
theorem locate_eq_of_same {p q : Path} (hs : p.same q) (hl : t.locate p = .ok l) (hm : t.locate q = .ok m) : l = m := by
  unfold locate at hl hm
  split at hl
  · cases hl
  · next hp =>
    split at hm
    · cases hm
    · next hq =>
      have hcomp : p.components = q.components := eq_of_beq hs
      have horigin : t.origin p = t.origin q := by
        rw [origin, origin, isAbsolute_eq hp, isAbsolute_eq hq, hcomp]
      rw [horigin] at hl
      refine walk_eq_of_steps linkLimit ?_ hl hm
      rw [steps_parts_eq hp, steps_parts_eq hq, hcomp]

end FileTree
end Marginalia
