/-
# The least file that declares a name

The source files may be read in any order of work: what a file declares is put into
the place of that file, and the places are gone through in the order of paths
(`Resolver.gathered`). A name is entered once, so it has the first file that declares it
(`Resolver.gathered_eq_find?`). In the order of paths this is the least one, since
the source files are listed in increasing order (`Resolver.resolve_least`).

Key definitions: `Resolver.Declares`, `Resolver.gathered`.
Key theorems: `Resolver.gathered_eq_find?`, `Resolver.resolve_least`.
-/
import Marginalia.Proofs.FileTree.Walking
import Marginalia.Proofs.Source.Scanning

namespace Marginalia
namespace Resolver

open FileTree

variable {parse : Text → Index} {t : FileTree} {r : Resolver} {name : String} {known : Option Path}
  {p q : Path} {files order : List Path}

/-- The file has a class or module with this full name. -/
def Declares (parse : Text → Index) (t : FileTree) (p : Path) (name : String) : Prop :=
  ∃ d ∈ (indexOf parse t p).classes ++ (indexOf parse t p).modules, d.fullName = name

theorem mem_declaredNames_iff : name ∈ declaredNames (indexOf parse t p) ↔ Declares parse t p name := List.mem_map

/-! ### Reading in any order -/

/-- A file was read: what it declares is put into its place. -/
def report (parse : Text → Index) (t : FileTree) (places : Path → List String) (p : Path) : Path → List String :=
  fun q => if q = p then declaredNames (indexOf parse t p) else places q

/-- A name is entered with a file, unless it has one. -/
def enter (p : Path) (entered : String → Option Path) (n : String) : String → Option Path :=
  fun m => if m = n then (entered n).or (some p) else entered m

/-- The file of each name, when the files were read one after the other in some order of work and what they
declare is gone through as the files are listed. -/
def gathered (parse : Text → Index) (t : FileTree) (files order : List Path) : String → Option Path :=
  let places := order.foldl (report parse t) fun _ => []
  files.foldl (fun entered p => (places p).foldl (enter p) entered) fun _ => none

/-- Each file that was read has its own place. -/
theorem foldl_report (places : Path → List String) (p : Path) : order.foldl (report parse t) places p =
    if p ∈ order then declaredNames (indexOf parse t p) else places p := by
  induction order generalizing places with
  | nil => simp
  | cons q order ih =>
    rw [List.foldl_cons, ih, report]
    by_cases hq : p = q
    · simp [hq]
    · simp [hq]

/-- The names of a file are entered with it, if they have no file yet. -/
theorem foldl_enter (names : List String) (entered : String → Option Path) :
    names.foldl (enter p) entered name = (entered name).or (if name ∈ names then some p else none) := by
  induction names generalizing entered with
  | nil => simp
  | cons n names ih =>
    rw [List.foldl_cons, ih, enter]
    by_cases hn : name = n
    · cases h : entered n <;> simp [hn, h]
    · simp [hn]

/-- A name has the first of the files in whose places it is. -/
theorem foldl_foldl_enter (places : Path → List String) (entered : String → Option Path) :
    files.foldl (fun entered p => (places p).foldl (enter p) entered) entered name =
      (entered name).or (files.find? fun p => name ∈ places p) := by
  induction files generalizing entered with
  | nil => simp
  | cons p files ih =>
    rw [List.foldl_cons, ih, foldl_enter, Option.or_assoc, List.find?_cons]
    by_cases hp : name ∈ places p
    · simp [hp]
    · simp [hp]

/-- **Any order of work.** Once all files were read, a name has the first of them that declares it. -/
theorem gathered_eq_find? (h : ∀ p ∈ files, p ∈ order) (name : String) :
    gathered parse t files order name = files.find? fun p => name ∈ declaredNames (indexOf parse t p) := by
  have hplaces : ∀ entered : String → Option Path, ∀ p ∈ files,
      (order.foldl (report parse t) (fun _ => []) p).foldl (enter p) entered =
        (declaredNames (indexOf parse t p)).foldl (enter p) entered := by
    intro entered p hp
    rw [foldl_report, if_pos (h p hp)]
  calc gathered parse t files order name
      = files.foldl (fun entered p => (declaredNames (indexOf parse t p)).foldl (enter p) entered)
          (fun _ => none) name := by rw [gathered, List.foldl_ext _ _ _ hplaces]
    _ = files.find? fun p => name ∈ declaredNames (indexOf parse t p) := by
        rw [foldl_foldl_enter fun p => declaredNames (indexOf parse t p), Option.none_or]

/-! ### The least file -/

/-- In an increasing list the first file that declares the name is the least one. -/
theorem find?_eq_some_iff_least (h : files.Pairwise fun p q => p.before q) :
    (files.find? fun p => name ∈ declaredNames (indexOf parse t p)) = some p ↔
      p ∈ files ∧ Declares parse t p name ∧ ∀ q ∈ files, Declares parse t q name → q = p ∨ p.before q := by
  simp only [List.find?_eq_some_iff_append, decide_eq_true_eq, mem_declaredNames_iff]
  constructor
  · rintro ⟨hp, above, below, rfl, habove⟩
    have hbelow := (List.pairwise_cons.1 (List.pairwise_append.1 h).2.1).1
    refine ⟨by simp, hp, fun q hq hd => ?_⟩
    rcases List.mem_append.1 hq with hq | hq
    · have hno := habove q hq
      simp [mem_declaredNames_iff, hd] at hno
    · exact (List.mem_cons.1 hq).imp_right (hbelow q)
  · rintro ⟨hmem, hp, hleast⟩
    obtain ⟨above, below, rfl⟩ := List.append_of_mem hmem
    have habove := (List.pairwise_append.1 h).2.2
    refine ⟨hp, above, below, rfl, fun q hq => ?_⟩
    have hqp : q.before p := habove q hq p List.mem_cons_self
    have hno : ¬ Declares parse t q name := by
      intro hd
      rcases hleast q (List.mem_append_left _ hq) hd with rfl | hpq
      · exact Path.not_before_self hqp
      · exact Path.not_before_self (Path.before_trans hqp hpq)
    simpa [mem_declaredNames_iff] using hno

/-- **The least file.** In a tree the source files are listed in increasing order: those that a walk of a searched
folder finds, one for all paths that say the same. A name without a recorded and a conventional file has the
least of them that has a class or module with this full name, and none if there is none, whatever the order
in which the files are read. -/
theorem resolve_least (ht : t.IsTree) (r : Resolver) :
    let files := t.sourceFiles r.folders
    (files.Pairwise fun p q => p.before q) ∧ (∀ p ∈ files, IsSource t r.folders p) ∧
      (∀ p, IsSource t r.folders p → ∃ q ∈ files, p.same q) ∧
      ∀ (parse : Text → Index) (name : String) (known : Option Path), r.UpToDate parse t →
        recorded? t r known = none → r.conventional? t name = none →
          let found := (r.resolve parse t name known).1
          (∀ p, found = some p ↔ p ∈ files ∧ Declares parse t p name ∧
            ∀ q ∈ files, Declares parse t q name → q = p ∨ p.before q) ∧
          (found = none ↔ ∀ p ∈ files, ¬ Declares parse t p name) ∧
          ∀ order, order.Perm files → gathered parse t files order name = found := by
  intro files
  have hsorted : files.Pairwise fun p q => p.before q := Path.pairwise_sorted _
  refine ⟨hsorted, fun p => mem_sourceFiles ht, fun p => exists_mem_sourceFiles ht, ?_⟩
  intro parse name known hr hk hc found
  have hfound : found = files.find? fun p => name ∈ declaredNames (indexOf parse t p) := resolve_eq_find? hr hk hc
  refine ⟨fun p => ?_, ?_, fun order horder => ?_⟩
  · rw [hfound]
    exact find?_eq_some_iff_least hsorted
  · rw [hfound, List.find?_eq_none]
    simp only [decide_eq_true_eq, mem_declaredNames_iff]
  · rw [hfound]
    exact gathered_eq_find? (fun p hp => horder.symm.subset hp) name

/-- Searched folders of which one is in another one, one is given twice and one is named by a link; with a link
to a file and a file that is not named like a Ruby source. -/
def overlappingFiles : FileTree where
  entries := [(["app".toList], .folder),
    (["app".toList, "models".toList], .folder),
    (["app".toList, "models".toList, "people.rb".toList], .file (.text "class Account; end\n".toList)),
    (["app".toList, "notes.txt".toList], .file (.text "class Account; end\n".toList)),
    (["app".toList, "again.rb".toList], .link ⟨"models/people.rb".toList⟩),
    (["engine".toList], .folder),
    (["engine".toList, "billing.rb".toList], .file (.text "module Account; end\n".toList)),
    (["lib".toList], .link ⟨"engine".toList⟩)]

/-- A resolver that searches these folders. -/
def overlappingResolver : Resolver where
  root := ⟨".".toList⟩
  folders := [⟨"app".toList⟩, ⟨"app/models".toList⟩, ⟨"app".toList⟩, ⟨"lib".toList⟩]

theorem sourceFiles_overlapping : overlappingFiles.sourceFiles overlappingResolver.folders =
    [⟨"app/models/people.rb".toList⟩, ⟨"lib/billing.rb".toList⟩] := by
  rw [FileTree.sourceFiles, Path.sorted, List.mergeSort_of_pairwise (by decide)]
  decide

/-- Each file is listed once, and the first one has the name, whichever of them was read first. -/
theorem resolve_least_overlapping :
    recorded? overlappingFiles overlappingResolver none = none ∧
      overlappingResolver.conventional? overlappingFiles "Account" = none ∧
      let found := (overlappingResolver.resolve Index.ofSource overlappingFiles "Account" none).1
      found = some ⟨"app/models/people.rb".toList⟩ ∧
        gathered Index.ofSource overlappingFiles (overlappingFiles.sourceFiles overlappingResolver.folders)
          [⟨"lib/billing.rb".toList⟩, ⟨"app/models/people.rb".toList⟩] "Account" = found := by
  have ht : overlappingFiles.IsTree := ⟨by decide, by decide⟩
  have hr : overlappingResolver.UpToDate Index.ofSource overlappingFiles := fun c hc => by cases hc
  have hk : recorded? overlappingFiles overlappingResolver none = none := rfl
  have hc : overlappingResolver.conventional? overlappingFiles "Account" = none := by decide
  obtain ⟨-, -, -, hleast⟩ := resolve_least ht overlappingResolver
  obtain ⟨hfound, -, horder⟩ := hleast Index.ofSource "Account" none hr hk hc
  refine ⟨hk, hc, ?_, horder _ ?_⟩
  · refine (hfound _).2 ⟨?_, ?_, ?_⟩
    · rw [sourceFiles_overlapping]
      exact List.mem_cons_self
    · exact mem_declaredNames_iff.1 (by decide)
    · rw [sourceFiles_overlapping]
      intro q hq _
      rcases List.mem_pair.1 hq with rfl | rfl
      · exact .inl rfl
      · exact .inr (by decide)
  · rw [sourceFiles_overlapping]
    exact List.Perm.swap _ _ _

end Resolver
end Marginalia
