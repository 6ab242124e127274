/-
# The scan and what can be annotated

A name that has no recorded and no conventional file is looked up in what the
source files declare. The scan knows classes and modules by their full names
only, and the first file in the order of paths has the name. A comment, on the
other hand, is placed at a class, which may be known by its last part or its
written path as well. So the scan finds a file in which the name can be
annotated exactly if the first file that declares the full name has a class for
it: a class of that full name always is one (`Index.resolve?_of_fullName`), a module
of that full name alone is none (`Resolver.resolve_scans`).

Key theorems: `Declaration.isQualified_fullName`, `Index.resolve?_of_fullName`, `Resolver.catalogueOf_lookup`,
`Resolver.resolve_scans`.
-/
import Marginalia.Proofs.Ruby.Nesting
import Marginalia.Proofs.Source.Resolving

namespace Marginalia

theorem isQualified_go_append (a b : List Char) : isQualified.go (a ++ ':' :: ':' :: b) = true := by
  induction a with
  | nil => rfl
  | cons c a ih =>
    rw [List.cons_append, isQualified.go.eq_def]
    split
    · rfl
    · next he => rw [← (List.cons.inj he).2, ih]
    · next he => cases he

/-- A name with a scope mark in it has more than one part. -/
theorem isQualified_append (a b : String) : isQualified (a ++ scopeMark ++ b) = true := by
  have hmark : scopeMark.toList = [':', ':'] := rfl
  rw [isQualified, String.toList_append, String.toList_append, hmark, List.append_assoc]
  exact isQualified_go_append _ _

/-- Below a namespace the full name has more than one part. -/
theorem Declaration.isQualified_fullName {d : Declaration} (h : d.scopes ≠ []) : isQualified d.fullName = true := by
  rw [d.fullName_eq, if_neg h]
  exact isQualified_append _ _

namespace Index

/-- A class can be annotated under its full name. -/
theorem resolve?_of_fullName {i : Index} {d : Declaration} (h : d ∈ i.classes) :
    (i.resolve? d.fullName).isSome := by
  have hfind {p : Declaration → Bool} (hp : p d = true) : (i.classes.find? p).isSome :=
    List.find?_isSome.2 ⟨d, h, hp⟩
  by_cases hq : isQualified d.fullName
  · -- the full name is tried first
    rw [resolve?_of_isQualified hq, Option.isSome_or, Bool.or_eq_true]
    exact .inl (hfind (beq_self_eq_true _))
  · have hscopes : d.scopes = [] := by
      by_contra hne
      exact hq (Declaration.isQualified_fullName hne)
    have hname : d.fullName = d.name := by rw [d.fullName_eq, if_pos hscopes]
    rw [resolve?_of_not_isQualified hq]
    exact hfind (by rw [hname, beq_self_eq_true])

end Index

namespace Resolver

variable {parse : Text → Index} {t : FileTree} {r : Resolver} {name : String} {known : Option Path}

theorem lookup_map_pair (k : String) (p : Path) (names : List String) :
    (names.map fun n => (n, p)).lookup k = if k ∈ names then some p else none := by
  induction names with
  | nil => rfl
  | cons n names ih =>
    rw [List.map_cons, List.lookup_cons, ih]
    by_cases hn : k = n
    · simp [hn]
    · have hne : (k == n) = false := beq_eq_false_iff_ne.2 hn
      simp [hne, hn]

/-- The first file that declares a name has it. -/
theorem catalogueOf_lookup (parse : Text → Index) (t : FileTree) (folders : List Path) (name : String) :
    (catalogueOf parse t folders).lookup name =
      (t.sourceFiles folders).find? fun p => name ∈ declaredNames (indexOf parse t p) := by
  rw [catalogueOf]
  induction t.sourceFiles folders with
  | nil => rfl
  | cons p ps ih =>
    rw [List.flatMap_cons, List.lookup_append, lookup_map_pair, ih, List.find?_cons]
    split <;> simp_all

theorem mem_declaredNames {i : Index} :
    name ∈ declaredNames i ↔ name ∈ i.classes.map (·.fullName) ∨ name ∈ i.modules.map (·.fullName) := by
  rw [declaredNames, List.map_append, List.mem_append]

/-- A name without a recorded and a conventional file has the first one that declares it. -/
theorem resolve_eq_find? (hr : r.UpToDate parse t) (hk : recorded? t r known = none)
    (hc : r.conventional? t name = none) : (r.resolve parse t name known).1 =
      (t.sourceFiles r.folders).find? fun p => name ∈ declaredNames (indexOf parse t p) := by
  rw [(resolve_eq hr name known).1, place?, hk, hc, Option.none_or, Option.none_or, catalogueOf_lookup]

/-- **The scan.** A name without a recorded and a conventional file has the first file, in the order of
paths, that declares a class or module with this full name. It can be annotated in this file exactly if the file
has a class with this full name, or a module with it and a class that the name stands for otherwise. -/
theorem resolve_scans (hr : r.UpToDate parse t) (hk : recorded? t r known = none)
    (hc : r.conventional? t name = none) :
    let found := (r.resolve parse t name known).1
    found = (t.sourceFiles r.folders).find? (fun p => name ∈ declaredNames (indexOf parse t p)) ∧
      ((∃ p, found = some p ∧ ((indexOf parse t p).resolve? name).isSome) ↔
        ∃ above p below, t.sourceFiles r.folders = above ++ p :: below ∧
          (∀ q ∈ above, name ∉ declaredNames (indexOf parse t q)) ∧
          let i := indexOf parse t p
          (name ∈ i.classes.map (·.fullName) ∨
            name ∈ i.modules.map (·.fullName) ∧ (i.resolve? name).isSome)) := by
  intro found
  have hfound : found = (t.sourceFiles r.folders).find? fun p => name ∈ declaredNames (indexOf parse t p) :=
    resolve_eq_find? hr hk hc
  refine ⟨hfound, ?_⟩
  rw [hfound]
  constructor
  · rintro ⟨p, hp, hs⟩
    obtain ⟨hmem, above, below, hfiles, habove⟩ := List.find?_eq_some_iff_append.1 hp
    refine ⟨above, p, below, hfiles, fun q hq => by simpa using habove q hq, ?_⟩
    exact (mem_declaredNames.1 (of_decide_eq_true hmem)).imp_right fun hm => ⟨hm, hs⟩
  · rintro ⟨above, p, below, hfiles, habove, hp⟩
    refine ⟨p, List.find?_eq_some_iff_append.2 ⟨?_, above, below, hfiles, fun q hq => by simpa using habove q hq⟩, ?_⟩
    · exact decide_eq_true (mem_declaredNames.2 (hp.imp_right And.left))
    · rcases hp with hp | ⟨-, hs⟩
      · obtain ⟨d, hd, rfl⟩ := List.mem_map.1 hp
        exact Index.resolve?_of_fullName hd
      · exact hs

/-- A class in a module, one that is written with its namespace, and a class and a module of one name. -/
def namesakeFiles : FileTree where
  entries := [(["app".toList], .folder),
    (["app".toList, "accounts.rb".toList], .file (.text "module Account; end\n".toList)),
    (["app".toList, "billing.rb".toList], .file (.text "class Account; end\n".toList)),
    (["app".toList, "people.rb".toList], .file (.text "module Admin; class User; end; end\n".toList)),
    (["app".toList, "roles.rb".toList], .file (.text "class Admin::Role; end\n".toList))]

/-- A resolver that has read nothing. -/
def appResolver : Resolver where
  root := ⟨".".toList⟩
  folders := [⟨"app".toList⟩]

theorem sourceFiles_namesake : namesakeFiles.sourceFiles appResolver.folders =
    [⟨"app/accounts.rb".toList⟩, ⟨"app/billing.rb".toList⟩, ⟨"app/people.rb".toList⟩, ⟨"app/roles.rb".toList⟩] := by
  rw [FileTree.sourceFiles, Path.sorted, List.mergeSort_of_pairwise (by decide)]
  decide

theorem upToDate_appResolver : appResolver.UpToDate Index.ofSource namesakeFiles := fun c hc => by cases hc

/-- The class is found by its full name. -/
theorem resolve_scans_namesake :
    recorded? namesakeFiles appResolver none = none ∧ appResolver.conventional? namesakeFiles "Admin::User" = none ∧
      let found := (appResolver.resolve Index.ofSource namesakeFiles "Admin::User" none).1
      found = some ⟨"app/people.rb".toList⟩ ∧
        ∃ p, found = some p ∧ ((indexOf Index.ofSource namesakeFiles p).resolve? "Admin::User").isSome := by
  have hk : recorded? namesakeFiles appResolver none = none := rfl
  have hc : appResolver.conventional? namesakeFiles "Admin::User" = none := by decide
  obtain ⟨hfound, hfinds⟩ := resolve_scans upToDate_appResolver hk hc
  rw [sourceFiles_namesake] at hfound hfinds
  refine ⟨hk, hc, hfound.trans (by decide), hfinds.2 ?_⟩
  exact ⟨[⟨"app/accounts.rb".toList⟩, ⟨"app/billing.rb".toList⟩], ⟨"app/people.rb".toList⟩, [⟨"app/roles.rb".toList⟩],
    rfl, by decide, .inl (by decide)⟩

/-- A class can be annotated under the name in some file, and the name has no such file. -/
def MissedByScan (name : String) : Prop :=
  recorded? namesakeFiles appResolver none = none ∧ appResolver.conventional? namesakeFiles name = none ∧
    (∃ p ∈ namesakeFiles.sourceFiles appResolver.folders,
      ((indexOf Index.ofSource namesakeFiles p).resolve? name).isSome) ∧
    ¬ ∃ p, (appResolver.resolve Index.ofSource namesakeFiles name none).1 = some p ∧
      ((indexOf Index.ofSource namesakeFiles p).resolve? name).isSome

theorem missedByScan_of_mem : ∀ name ∈ ["User", "Admin::Role", "Account"], MissedByScan name := by
  intro name hname
  have hk : recorded? namesakeFiles appResolver none = none := rfl
  have hc : appResolver.conventional? namesakeFiles name = none := by
    revert name
    decide
  have hmissed : ∀ p ∈ (namesakeFiles.sourceFiles appResolver.folders).find? (fun p =>
      name ∈ declaredNames (indexOf Index.ofSource namesakeFiles p)),
      ((indexOf Index.ofSource namesakeFiles p).resolve? name).isSome = false := by
    rw [sourceFiles_namesake]
    revert name
    decide
  refine ⟨hk, hc, ?_, ?_⟩
  · rw [sourceFiles_namesake]
    clear hc hmissed
    revert name
    decide
  · rw [resolve_eq_find? upToDate_appResolver hk hc]
    rintro ⟨p, hp, hs⟩
    rw [hmissed p hp] at hs
    cases hs

/-- By the last part of its name or by its written path a class is not found, and a module may have its place. -/
theorem scan_misses_namesakes : MissedByScan "User" ∧ MissedByScan "Admin::Role" ∧ MissedByScan "Account" :=
  ⟨missedByScan_of_mem _ (by decide), missedByScan_of_mem _ (by decide), missedByScan_of_mem _ (by decide)⟩

end Resolver
end Marginalia
