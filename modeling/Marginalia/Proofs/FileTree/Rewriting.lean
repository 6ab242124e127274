/-
# Rewritten files

Rewriting a file puts another text where one stood and changes nothing else.
Two trees of which one comes from the other in this way have the same shape,
and every path leads to the same location in both (`SameShape.locate_eq`). A text is
read from the path at which it was written, also where nothing stood there before
(`FileTree.read_write`): all that a walk meets on its way to the place stays.

Key definitions: `FileTree.textAt`, `FileTree.SameShape`.
Key theorems: `FileTree.SameShape.locate_eq`, `FileTree.read_eq_ok_iff`,
`FileTree.write_of_locate`, `FileTree.read_write`.
-/
import Marginalia.FileTree.Basic

namespace Marginalia
namespace FileTree

/-- The text of the file at a location. -/
def textAt (t : FileTree) (l : Location) : Option Text :=
  match t.item? l with
  | some (.file (.text x)) => some x
  | _ => none

theorem textAt_eq_some_iff {t : FileTree} {l : Location} {x : Text} :
    t.textAt l = some x ↔ t.item? l = some (.file (.text x)) := by
  unfold textAt
  split
  · next h => rw [h]; simp
  · next h =>
    constructor
    · intro h'; cases h'
    · intro h'; exact absurd h' (h x)

/-- The same stands at each location of the two trees, but for what files hold. -/
structure SameShape (t t' : FileTree) : Prop where
  /-- Relative paths start at the same folder. -/
  workingFolder : t'.workingFolder = t.workingFolder
  /-- What stands at a location. -/
  item : ∀ l, t'.item? l = t.item? l ∨
    ∃ c c', t.item? l = some (.file c) ∧ t'.item? l = some (.file c')

namespace SameShape

variable {t t' t'' : FileTree}

theorem refl (t : FileTree) : SameShape t t := ⟨rfl, fun _ => .inl rfl⟩

theorem trans (h : SameShape t t') (h' : SameShape t' t'') : SameShape t t'' := by
  refine ⟨h'.workingFolder.trans h.workingFolder, fun l => ?_⟩
  rcases h.item l with e | ⟨c, c', e, e'⟩
  · rw [← e]
    exact h'.item l
  · rcases h'.item l with e'' | ⟨_, c'', -, e''⟩
    · exact .inr ⟨c, c', e, e''.trans e'⟩
    · exact .inr ⟨c, c'', e, e''⟩

theorem walkBy_eq (h : SameShape t t') (vacant : Bool) (follow : Location → List Text → Except IoFault Location) :
    ∀ (l : Location) (parts : List Text), t'.walkBy vacant follow l parts = t.walkBy vacant follow l parts
  | _, [] => rfl
  | l, part :: parts => by
    have hf : t'.item? l = some .folder ↔ t.item? l = some .folder := by
      rcases h.item l with e | ⟨_, _, e, e'⟩
      · rw [e]
      · simp [e, e']
    simp only [walkBy, ne_eq, hf, walkBy_eq h vacant follow]
    rcases h.item (l ++ [part]) with e | ⟨_, _, e, e'⟩
    · rw [e]
    · simp only [e, e']

theorem walk_eq (h : SameShape t t') (vacant : Bool) : ∀ links : Nat, t'.walk vacant links = t.walk vacant links
  | 0 => funext fun l => funext fun parts => h.walkBy_eq vacant _ l parts
  | links + 1 => by
    rw [walk, walk, walk_eq h vacant links]
    exact funext fun l => funext fun parts => h.walkBy_eq vacant _ l parts

/-- Every path leads to the same location. -/
theorem locate_eq (h : SameShape t t') (p : Path) : t'.locate p = t.locate p := by
  simp only [locate, origin, h.workingFolder, h.walk_eq]

end SameShape

/-- The tree with one file in the root folder. -/
def single (name x : Text) : FileTree where
  entries := [([name], .file (.text x))]

theorem textAt_single (n x : Text) : (single n x).textAt [n] = some x := by
  simp [textAt, single, item?]

/-- In an empty tree a file stands where its name says once it is written. -/
theorem write_empty {n : Text} (h : n ∉ [[], ['.'], ['.', '.']]) (hs : '/' ∉ n) (x : Text) :
    write {} ⟨n⟩ x = .ok (single n x) := by
  have hparts : ∀ m : Text, '/' ∉ m → Path.splitParts m = [m] := by
    intro m hm
    induction m with
    | nil => rfl
    | cons c m ih =>
      rw [List.mem_cons, not_or] at hm
      rw [Path.splitParts, if_neg (Ne.symm hm.1), ih hm.2]
  simp only [List.mem_cons, List.not_mem_nil, or_false, not_or] at h
  have habsolute : n.head? ≠ some '/' := fun hc => hs (List.mem_of_head? hc)
  simp [write, target, h, origin, Path.isAbsolute, habsolute, Path.parts, hparts n hs, walk, linkLimit, walkBy, item?,
    bind, Except.bind, pure, Except.pure, put, putIn, single]

variable {t : FileTree} {p : Path} {l : Location} {x : Text}

/-- A text that is put where a text stood leaves the shape. -/
theorem sameShape_put (h : t.textAt l = some x) (y : Text) : SameShape t (t.put l (.file (.text y))) := by
  rw [textAt_eq_some_iff] at h
  have h0 : l ≠ [] := by
    rintro rfl
    simp [item?] at h
  refine ⟨rfl, fun m => ?_⟩
  by_cases hm : m = l
  · subst hm
    exact .inr ⟨_, _, h, item?_put_self t h0 _⟩
  · exact .inl (item?_put_of_ne t hm _)

theorem textAt_put_self (h : t.textAt l = some x) (y : Text) :
    (t.put l (.file (.text y))).textAt l = some y := by
  rw [textAt_eq_some_iff] at h ⊢
  refine item?_put_self t ?_ _
  rintro rfl
  simp [item?] at h

theorem textAt_put_of_ne {m : Location} (h : m ≠ l) (e : Entry) : (t.put l e).textAt m = t.textAt m := by
  rw [textAt, item?_put_of_ne t h, textAt]

/-- A text can be read if the path leads to it. -/
theorem read_eq_ok_iff : t.read p = .ok x ↔ ∃ l, t.locate p = .ok l ∧ t.textAt l = some x := by
  simp only [textAt_eq_some_iff]
  unfold read
  cases hl : t.locate p with
  | error f => simp [bind, Except.bind]
  | ok l =>
    simp only [bind, Except.bind]
    split
    · next hi => simp [hi, pure, Except.pure]
    all_goals next hi => simp [hi, throw, throwThe, MonadExceptOf.throw]

/-! ### Writing -/

/-- Where a walk ends at something, so does the walk for a vacant place as well. -/
theorem walkBy_of_walkBy {follow follow' : Location → List Text → Except IoFault Location} {m : Location}
    (hf : ∀ l parts, follow l parts = .ok m → follow' l parts = .ok m) :
    ∀ {parts : List Text} {l : Location}, t.walkBy false follow l parts = .ok m → t.walkBy true follow' l parts = .ok m
  | [], _, h => h
  | part :: parts, l, h => by
    rw [walkBy] at h ⊢
    split at h
    · cases h
    · next hfolder =>
      rw [if_neg hfolder]
      split at h
      · next hsilent => rw [if_pos hsilent]; exact walkBy_of_walkBy hf h
      · next hsilent =>
        rw [if_neg hsilent]
        split at h
        · next hup => rw [if_pos hup]; exact walkBy_of_walkBy hf h
        · next hup =>
          rw [if_neg hup]
          split at h
          · simp at h
          · exact hf _ _ h
          · exact walkBy_of_walkBy hf h

theorem walk_of_walk {m : Location} : ∀ (links : Nat) {l : Location} {parts : List Text},
    t.walk false links l parts = .ok m → t.walk true links l parts = .ok m
  | 0, _, _, h => walkBy_of_walkBy (fun _ _ h => h) h
  | links + 1, _, _, h => walkBy_of_walkBy (fun _ _ => walk_of_walk links) h

theorem target_of_locate (hl : t.locate p = .ok l) : t.target p = .ok l := by
  unfold locate at hl
  split at hl
  · cases hl
  · next h0 => rw [target, if_neg h0, walk_of_walk linkLimit hl]

/-- What can be read can be written. -/
theorem write_of_locate (hl : t.locate p = .ok l) (h : t.textAt l = some x) (y : Text) :
    t.write p y = .ok (t.put l (.file (.text y))) := by
  rw [textAt_eq_some_iff] at h
  simp [write, target_of_locate hl, h, bind, Except.bind, pure, Except.pure]

/-- Once a file stands where a walk for a vacant place ended, every walk with these parts ends at it. -/
theorem walkBy_put {e : Entry} {m : Location} {follow follow' : Location → List Text → Except IoFault Location}
    (hfolder : t.item? m ≠ some .folder) (hlink : ∀ q, t.item? m ≠ some (.link q)) (he : ∀ q, e ≠ .link q)
    (hf : ∀ l parts, follow l parts = .ok m → follow' l parts = .ok m) :
    ∀ {parts : List Text} {l : Location}, t.walkBy true follow l parts = .ok m →
      (t.put m e).walkBy false follow' l parts = .ok m
  | [], _, h => h
  | part :: parts, l, h => by
    have h0 : m ≠ [] := by
      rintro rfl
      exact hfolder (by simp [item?])
    rw [walkBy] at h
    split at h
    · cases h
    · next hl =>
      have hl' : t.item? l = some .folder := Classical.not_not.1 hl
      have hlm : l ≠ m := fun heq => hfolder (heq ▸ hl')
      rw [walkBy, item?_put_of_ne t hlm, if_neg hl]
      split at h
      · next hsilent => rw [if_pos hsilent]; exact walkBy_put hfolder hlink he hf h
      · next hsilent =>
        rw [if_neg hsilent]
        split at h
        · next hup => rw [if_pos hup]; exact walkBy_put hfolder hlink he hf h
        · next hup =>
          rw [if_neg hup]
          by_cases hm : l ++ [part] = m
          · have hlast : parts = [] := by
              rw [hm] at h
              split at h
              · split at h
                · next hvacant => exact hvacant.2
                · cases h
              · next hi => exact absurd hi (hlink _)
              · next hi =>
                cases parts with
                | nil => rfl
                | cons part' parts => rw [walkBy, if_pos hfolder] at h; cases h
            rw [hm, hlast, item?_put_self t h0 e]
            cases e with
            | link q => exact absurd rfl (he q)
            | file c => rfl
            | folder => rfl
          · rw [item?_put_of_ne t hm]
            split at h
            · split at h
              · exact absurd (Except.ok.inj h) hm
              · cases h
            · exact hf _ _ h
            · exact walkBy_put hfolder hlink he hf h

theorem walk_put {e : Entry} {m : Location} (hfolder : t.item? m ≠ some .folder)
    (hlink : ∀ q, t.item? m ≠ some (.link q)) (he : ∀ q, e ≠ .link q) : ∀ (links : Nat) {l : Location}
    {parts : List Text}, t.walk true links l parts = .ok m → (t.put m e).walk false links l parts = .ok m
  | 0, _, _, h => walkBy_put hfolder hlink he (fun _ _ h => by cases h) h
  | links + 1, _, _, h => walkBy_put hfolder hlink he (fun _ _ => walk_put hfolder hlink he links) h

/-- A text that was written to a file is read from it. -/
theorem read_write {t' : FileTree} (h : t.write p x = .ok t') : t'.read p = .ok x := by
  unfold write at h
  cases ht : t.target p with
  | error f => rw [ht] at h; cases h
  | ok m =>
    simp only [ht, bind, Except.bind] at h
    split at h
    · cases h
    · cases h
    · next hfolder hlink =>
      cases h
      have h0 : m ≠ [] := by
        rintro rfl
        exact hfolder (by simp [item?])
      have hlocate : (t.put m (.file (.text x))).locate p = .ok m := by
        unfold target at ht
        split at ht
        · cases ht
        · next htext =>
          rw [locate, if_neg htext]
          exact walk_put hfolder hlink (fun _ h => by cases h) linkLimit ht
      exact read_eq_ok_iff.2 ⟨m, hlocate, textAt_eq_some_iff.2 (item?_put_self t h0 _)⟩

theorem read_single {n : Text} (h : n ∉ [[], ['.'], ['.', '.']]) (hs : '/' ∉ n) (x : Text) :
    (single n x).read ⟨n⟩ = .ok x := read_write (write_empty h hs x)

end FileTree
end Marginalia
