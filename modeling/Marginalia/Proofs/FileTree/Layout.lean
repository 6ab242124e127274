/-
# Trees of one layout

Rewriting files leaves them in their places: what is listed below a folder, and
so which source files are found, does not depend on what the files hold
(`FileTree.SameLayout.sourceFiles_eq`).

Key definitions: `Entry.emptied`, `FileTree.SameLayout`.
Key theorems: `FileTree.sameLayout_put`, `FileTree.SameLayout.sourceFiles_eq`.
-/
import Marginalia.FileTree.Search
import Marginalia.Proofs.FileTree.Rewriting

namespace Marginalia

/-- The entry, but for the text that a file holds. -/
def Entry.emptied : Entry → Entry
  | .file (.text _) => .file (.text [])
  | .file (.binary bytes) => .file (.binary bytes)
  | .folder => .folder
  | .link target => .link target

theorem Entry.eq_or_of_emptied_eq {e e' : Entry} (h : e'.emptied = e.emptied) :
    e' = e ∨ ∃ x y, e = .file (.text x) ∧ e' = .file (.text y) := by
  rcases e with (_ | _) | _ | _ <;> rcases e' with (_ | _) | _ | _ <;> simp_all [emptied]

namespace FileTree

/-- The trees list the same entries in the same order, but for the texts of files. -/
structure SameLayout (t t' : FileTree) : Prop where
  /-- Relative paths start at the same folder. -/
  workingFolder : t'.workingFolder = t.workingFolder
  /-- What is listed. -/
  entries : (t'.entries.map fun e => (e.1, e.2.emptied)) = t.entries.map fun e => (e.1, e.2.emptied)

variable {t t' t'' : FileTree} {l : Location} {x : Text}

theorem map_putIn (y : Text) : ∀ {es : List (Location × Entry)},
    es.find? (·.1 == l) = some (l, .file (.text x)) →
    ((putIn l (.file (.text y)) es).map fun e => (e.1, e.2.emptied)) = es.map fun e => (e.1, e.2.emptied)
  | [], h => by cases h
  | e :: es, h => by
    rw [putIn]
    split
    · next he =>
      rw [List.find?_cons_of_pos (by simpa using he)] at h
      cases h
      rfl
    · next he =>
      rw [List.find?_cons_of_neg (by simpa using he)] at h
      rw [List.map_cons, map_putIn y h, List.map_cons]

/-- A text that is put where a text stood leaves the layout. -/
theorem sameLayout_put (h : t.textAt l = some x) (y : Text) : SameLayout t (t.put l (.file (.text y))) := by
  rw [textAt_eq_some_iff, item?] at h
  split at h
  · cases h
  · obtain ⟨e, he, heq⟩ := Option.map_eq_some_iff.1 h
    have hl : e.1 = l := by simpa using List.find?_some he
    exact ⟨rfl, map_putIn (x := x) y (by rw [he, ← hl, ← heq])⟩

namespace SameLayout

theorem refl (t : FileTree) : SameLayout t t := ⟨rfl, rfl⟩

theorem trans (h : SameLayout t t') (h' : SameLayout t' t'') : SameLayout t t'' :=
  ⟨h'.workingFolder.trans h.workingFolder, h'.entries.trans h.entries⟩

/-- The same stands at a location, or both are texts. -/
theorem item (h : SameLayout t t') (l : Location) :
    t'.item? l = t.item? l ∨ ∃ x y, t.item? l = some (.file (.text x)) ∧ t'.item? l = some (.file (.text y)) := by
  have hitem (t : FileTree) : (t.item? l).map Entry.emptied = if l = [] then some .folder
      else ((t.entries.map fun e => (e.1, e.2.emptied)).find? (·.1 == l)).map (·.2) := by
    rw [item?, List.find?_map]
    split
    · rfl
    · rw [Option.map_map, Option.map_map]
      rfl
  have he : (t'.item? l).map Entry.emptied = (t.item? l).map Entry.emptied := by rw [hitem, hitem, h.entries]
  cases hi : t.item? l with
  | none =>
    rw [hi, Option.map_none, Option.map_eq_none_iff] at he
    exact .inl he
  | some e =>
    rw [hi, Option.map_some, Option.map_eq_some_iff] at he
    obtain ⟨e', he', heq⟩ := he
    rw [he']
    simpa using Entry.eq_or_of_emptied_eq heq

theorem sameShape (h : SameLayout t t') : SameShape t t' :=
  ⟨h.workingFolder, fun l => (h.item l).imp_right fun ⟨_, _, hx, hy⟩ => ⟨_, _, hx, hy⟩⟩

/-- What is no text is none in both. -/
theorem textAt_eq_none_iff (h : SameLayout t t') : t'.textAt l = none ↔ t.textAt l = none := by
  rcases h.item l with he | ⟨x, y, hx, hy⟩
  · rw [textAt, textAt, he]
  · simp [textAt, hx, hy]

theorem isLink_eq (h : SameLayout t t') (l : Location) : t'.isLink l = t.isLink l := by
  rcases h.item l with he | ⟨x, y, hx, hy⟩
  · rw [isLink, isLink, he]
  · rw [isLink, isLink, hx, hy]

theorem namesLink_eq (h : SameLayout t t') (p : Path) : t'.namesLink p = t.namesLink p := by
  simp only [namesLink, origin, h.workingFolder, h.sameShape.walk_eq, h.isLink_eq]

/-- The same files are listed below a folder. -/
theorem filesBelow_eq (h : SameLayout t t') (p : Path) : t'.filesBelow p = t.filesBelow p := by
  have hlisted (t : FileTree) (l : Location) : t.entries.filterMap (pathBelow? p l) =
      (t.entries.map fun e => (e.1, e.2.emptied)).filterMap (pathBelow? p l) := by
    rw [List.filterMap_map]
    refine congrArg (List.filterMap · t.entries) (funext fun e => ?_)
    obtain ⟨m, (_ | _) | _ | _⟩ := e <;> rfl
  unfold filesBelow
  rw [h.sameShape.locate_eq]
  cases t.locate p with
  | error f => rfl
  | ok l =>
    simp only [hlisted, h.entries, h.namesLink_eq]
    rcases h.item l with he | ⟨x, y, hx, hy⟩
    · simp only [he]
    · simp only [hx, hy]

/-- The same source files are found. -/
theorem sourceFiles_eq (h : SameLayout t t') (folders : List Path) : t'.sourceFiles folders = t.sourceFiles folders := by
  rw [sourceFiles, sourceFiles, funext h.filesBelow_eq]

end SameLayout
end FileTree
end Marginalia
