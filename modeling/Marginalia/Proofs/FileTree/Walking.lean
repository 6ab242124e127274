/-
# What a walk finds

A walk starts where the path of a search folder leads and goes on from each folder
to what is listed in it; a link that it comes to is not followed (`FileTree.Found`).
In a tree, where everything is listed once and below a folder, the listing of
entries holds what such a walk finds (`FileTree.mem_filesBelow_iff`). The source
files are, in order, those of the files found that are named like Ruby sources, one
for all paths that say the same (`FileTree.mem_sourceFiles`,
`FileTree.exists_mem_sourceFiles`).

Key definitions: `FileTree.IsTree`, `FileTree.Found`, `FileTree.IsSource`.
Key theorems: `FileTree.mem_filesBelow_iff`, `FileTree.mem_sourceFiles`, `FileTree.exists_mem_sourceFiles`.
-/
import Mathlib.Data.List.Induction
import Marginalia.FileTree.Search
import Marginalia.Proofs.FileTree.Ordering
import Marginalia.Proofs.Text.Search

namespace Marginalia
namespace FileTree

variable {t : FileTree} {dir p q : Path} {l root : Location} {e : Location × Entry} {folders : List Path}

/-- What is listed makes up a tree. -/
structure IsTree (t : FileTree) : Prop where
  /-- Each location is listed once. -/
  nodup : (t.entries.map (·.1)).Nodup
  /-- What is listed stands in a folder. -/
  inFolder : ∀ e ∈ t.entries, e.1 ≠ [] ∧ t.item? e.1.dropLast = some .folder

/-- The walk of a search folder comes to a location under a path. -/
inductive Found (t : FileTree) (dir : Path) : Path → Location → Prop
  /-- It starts where the path of the folder leads. Where the path names a link, this must be a folder. -/
  | start {l : Location} (leads : t.locate dir = .ok l) (followed : t.namesLink dir → t.item? l = some .folder) :
      Found t dir dir l
  /-- From a folder it goes to what is listed there. -/
  | enter {p : Path} {l : Location} {n : Text} (found : Found t dir p l) (folder : t.item? l = some .folder)
      (listed : (t.item? (l ++ [n])).isSome) : Found t dir (p.join ⟨n⟩) (l ++ [n])

/-- The path leads a walk of one of the folders to a file that is named like a Ruby source. -/
def IsSource (t : FileTree) (folders : List Path) (p : Path) : Prop :=
  ∃ dir ∈ folders, ∃ l c, Found t dir p l ∧ t.item? l = some (.file c) ∧ p.looksLikeRuby

/-! ### The listing -/

theorem mem_entries_of_item? {x : Entry} (h : t.item? l = some x) (h0 : l ≠ []) : (l, x) ∈ t.entries := by
  rw [item?, if_neg h0, Option.map_eq_some_iff] at h
  obtain ⟨e, he, rfl⟩ := h
  have hl : e.1 = l := by simpa using List.find?_some he
  rw [← hl]
  exact List.mem_of_find?_eq_some he

theorem find?_of_mem : ∀ {es : List (Location × Entry)}, (es.map (·.1)).Nodup → e ∈ es →
    es.find? (·.1 == e.1) = some e
  | f :: es, hn, h => by
    rw [List.map_cons, List.nodup_cons] at hn
    rcases List.mem_cons.1 h with rfl | h
    · exact List.find?_cons_of_pos (by simp)
    · have hne : f.1 ≠ e.1 := fun he => hn.1 (he ▸ List.mem_map_of_mem h)
      rw [List.find?_cons_of_neg (by simpa using hne), find?_of_mem hn.2 h]

theorem IsTree.item?_of_mem (h : t.IsTree) (he : e ∈ t.entries) : t.item? e.1 = some e.2 := by
  rw [item?, if_neg (h.inFolder e he).1, find?_of_mem h.nodup he, Option.map_some]

/-- What stands below a folder stands in one. -/
theorem IsTree.item?_of_isSome {n : Text} (h : t.IsTree) (hl : (t.item? (l ++ [n])).isSome) :
    t.item? l = some .folder := by
  obtain ⟨x, hx⟩ := Option.isSome_iff_exists.1 hl
  have hmem := mem_entries_of_item? hx (by simp)
  simpa using (h.inFolder _ hmem).2

/-! ### The walk -/

theorem descend_append (dir : Path) (names : List Text) (n : Text) :
    descend dir (names ++ [n]) = (descend dir names).join ⟨n⟩ := by
  simp [descend]

/-- A walk is at a location below the one at which it started, under the names that lead there. -/
theorem Found.exists_eq (h : Found t dir p l) : ∃ root names, t.locate dir = .ok root ∧ l = root ++ names ∧
    p = descend dir names ∧ (t.namesLink dir → t.item? root = some .folder) ∧
      (names ≠ [] → t.item? root = some .folder) := by
  induction h with
  | start leads followed => exact ⟨_, [], leads, by simp, rfl, followed, fun h => absurd rfl h⟩
  | @enter p l n found folder listed ih =>
    obtain ⟨root, names, hroot, rfl, rfl, hlink, hbelow⟩ := ih
    refine ⟨root, names ++ [n], hroot, by simp, (descend_append dir names n).symm, hlink, fun _ => ?_⟩
    cases names with
    | nil => simpa using folder
    | cons m names => exact hbelow (List.cons_ne_nil m names)

/-- Everything that stands below the start of a walk is found. -/
theorem IsTree.found_descend (h : t.IsTree) (hroot : t.locate dir = .ok root)
    (hlink : t.namesLink dir → t.item? root = some .folder) (names : List Text)
    (hl : (t.item? (root ++ names)).isSome) : Found t dir (descend dir names) (root ++ names) := by
  induction names using List.reverseRecOn with
  | nil =>
    rw [List.append_nil]
    exact .start hroot hlink
  | append_singleton names n ih =>
    rw [← List.append_assoc] at hl ⊢
    have hfolder := h.item?_of_isSome hl
    rw [descend_append]
    exact .enter (ih (by rw [hfolder]; rfl)) hfolder hl

/-- A listed file has a path below a location if it stands under names that lead there. -/
theorem pathBelow?_eq_some_iff : pathBelow? dir root e = some p ↔
    ∃ names c, names ≠ [] ∧ e = (root ++ names, .file c) ∧ p = descend dir names := by
  obtain ⟨l, x⟩ := e
  constructor
  · intro h
    unfold pathBelow? at h
    split at h
    · next m c heq =>
      cases heq
      split at h
      · next n ns hafter =>
        cases h
        exact ⟨n :: ns, c, List.cons_ne_nil n ns, by rw [Text.after?_eq_some_iff.1 hafter], rfl⟩
      · cases h
    · cases h
  · rintro ⟨names, c, hne, heq, rfl⟩
    cases heq
    obtain ⟨n, ns, rfl⟩ := List.exists_cons_of_ne_nil hne
    simp only [pathBelow?, Text.after?_append]

/-- **The listing and the walk.** In a tree the files listed for a folder are those to which its walk comes. -/
theorem mem_filesBelow_iff (h : t.IsTree) :
    p ∈ t.filesBelow dir ↔ ∃ l c, Found t dir p l ∧ t.item? l = some (.file c) := by
  unfold filesBelow
  constructor
  · intro hp
    split at hp
    · cases hp
    · next root hroot =>
      split at hp
      · next c hc =>
        split at hp
        · cases hp
        · next hlink =>
          rw [List.mem_singleton] at hp
          subst hp
          exact ⟨root, c, .start hroot fun h => absurd h hlink, hc⟩
      · next hfolder =>
        obtain ⟨e, he, hbelow⟩ := List.mem_filterMap.1 hp
        obtain ⟨names, c, -, rfl, rfl⟩ := pathBelow?_eq_some_iff.1 hbelow
        have hitem := h.item?_of_mem he
        exact ⟨root ++ names, c, h.found_descend hroot (fun _ => hfolder) names (by rw [hitem]; rfl), hitem⟩
      · cases hp
  · rintro ⟨l, c, hfound, hc⟩
    obtain ⟨root, names, hroot, rfl, rfl, hlink, hbelow⟩ := hfound.exists_eq
    simp only [hroot]
    by_cases hne : names = []
    · subst hne
      rw [List.append_nil] at hc
      have hno : ¬ t.namesLink dir := by
        intro hyes
        rw [hlink hyes] at hc
        cases hc
      simp [hc, hno, descend]
    · have hmem := mem_entries_of_item? hc (by simp [hne])
      simp only [hbelow hne]
      exact List.mem_filterMap.2 ⟨_, hmem, pathBelow?_eq_some_iff.2 ⟨names, c, hne, rfl, rfl⟩⟩

/-! ### The source files -/

theorem mem_filter_filesBelow_iff (h : t.IsTree) :
    p ∈ (folders.flatMap t.filesBelow).filter Path.looksLikeRuby ↔ IsSource t folders p := by
  rw [List.mem_filter, List.mem_flatMap]
  simp only [mem_filesBelow_iff h]
  constructor
  · rintro ⟨⟨dir, hdir, l, c, hfound, hc⟩, hruby⟩
    exact ⟨dir, hdir, l, c, hfound, hc, hruby⟩
  · rintro ⟨dir, hdir, l, c, hfound, hc, hruby⟩
    exact ⟨⟨dir, hdir, l, c, hfound, hc⟩, hruby⟩

/-- Only source files are listed. -/
theorem mem_sourceFiles (h : t.IsTree) (hp : p ∈ t.sourceFiles folders) : IsSource t folders p :=
  (mem_filter_filesBelow_iff h).1 (Path.mem_of_mem_sorted hp)

/-- Each source file is listed, under a path that says the same. -/
theorem exists_mem_sourceFiles (h : t.IsTree) (hp : IsSource t folders p) :
    ∃ q ∈ t.sourceFiles folders, p.same q :=
  Path.exists_mem_sorted ((mem_filter_filesBelow_iff h).2 hp)

end FileTree
end Marginalia
