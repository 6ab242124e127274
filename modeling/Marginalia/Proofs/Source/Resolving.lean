/-
# The files of classes

What a resolver keeps of the source files that it has read is what it would
read again, so each class is looked for as by a resolver that has read nothing
(`classTargets_eq`). Trees of one layout in which the source files declare the
same names give the same files (`Resolver.place?_eq`).

Key definitions: `Resolver.place?`, `Resolver.UpToDate`.
Key theorems: `Resolver.resolve_eq`, `Resolver.place?_eq`, `classTargets_eq`.
-/
import Marginalia.Annotation.Production
import Marginalia.Proofs.FileTree.Layout

namespace Marginalia

open FileTree

namespace Resolver

variable {parse : Text → Index} {t t' : FileTree} {r : Resolver} {name : String} {known : Option Path}

/-- The file of a name: the recorded one, the conventional one, or the first one that declares the name. -/
def place? (parse : Text → Index) (t : FileTree) (r : Resolver) (name : String) (known : Option Path) : Option Path :=
  (recorded? t r known).or ((r.conventional? t name).or ((catalogueOf parse t r.folders).lookup name))

/-- What the resolver has read is what it would read now. -/
def UpToDate (parse : Text → Index) (t : FileTree) (r : Resolver) : Prop :=
  ∀ c ∈ r.catalogue?, c = catalogueOf parse t r.folders

/-- A resolver finds the file of a name, and stays the resolver that it is. -/
theorem resolve_eq (h : r.UpToDate parse t) (name : String) (known : Option Path) :
    (r.resolve parse t name known).1 = place? parse t r name known ∧
      (r.resolve parse t name known).2.UpToDate parse t ∧
      (r.resolve parse t name known).2.root = r.root ∧ (r.resolve parse t name known).2.folders = r.folders := by
  unfold resolve place?
  cases recorded? t r known with
  | some p => exact ⟨rfl, h, rfl, rfl⟩
  | none =>
    cases r.conventional? t name with
    | some p => exact ⟨rfl, h, rfl, rfl⟩
    | none =>
      obtain ⟨root, folders, catalogue?⟩ := r
      cases catalogue? with
      | none => exact ⟨rfl, fun c hm => (Option.some.inj hm).symm, rfl, rfl⟩
      | some c =>
        obtain rfl : c = catalogueOf parse t folders := h c rfl
        exact ⟨rfl, fun c hm => (Option.some.inj hm).symm, rfl, rfl⟩

theorem place?_congr {s : Resolver} (hroot : s.root = r.root) (hfolders : s.folders = r.folders) :
    place? parse t s name known = place? parse t r name known := by
  simp only [place?, recorded?, conventional?, hroot, hfolders]

section

variable (h : SameLayout t t') (hn : ∀ p, declaredNames (indexOf parse t' p) = declaredNames (indexOf parse t p))

include h hn

theorem catalogueOf_eq (folders : List Path) : catalogueOf parse t' folders = catalogueOf parse t folders := by
  simp only [catalogueOf, h.sourceFiles_eq, hn]

/-- A resolver stays up to date, if no other names are declared. -/
theorem UpToDate.of_sameLayout (hr : r.UpToDate parse t) : r.UpToDate parse t' :=
  fun c hc => (hr c hc).trans (catalogueOf_eq h hn r.folders).symm

/-- A file is found where it was, if no other names are declared. -/
theorem place?_eq (name : String) (known : Option Path) :
    place? parse t' r name known = place? parse t r name known := by
  have hfile : t'.isFile = t.isFile := by
    funext p
    simp only [isFile, find?, h.sameShape.locate_eq]
    cases t.locate p with
    | error f => rfl
    | ok l =>
      rcases h.item l with he | ⟨x, y, hx, hy⟩
      · simp only [he]
      · simp only [hx, hy]
  simp only [place?, recorded?, conventional?, hfile, catalogueOf_eq h hn]

end

end Resolver

/-- The target of a class whose comment is had. -/
def Subject.target (parse : Text → Index) (files : FileTree) (tag : Tag) (r : Resolver) (s : Subject)
    (payload : Text) : Target where
  identifier := s.name
  file := r.place? parse files s.name (s.sourceFile.map Path.ofString)
  anchor := .declaration s.name
  tag := tag
  payload := payload

/-- The classes are looked for one by one. -/
theorem classTargets_eq {parse : Text → Index} {files : FileTree} (tag : Tag) : ∀ (ss : List Subject) {r : Resolver},
    r.UpToDate parse files →
    classTargets parse files tag r ss = ss.map fun s => s.comment.map (s.target parse files tag r)
  | [], _, _ => rfl
  | s :: ss, r, h => by
    rw [classTargets, List.map_cons]
    cases s.comment with
    | error f =>
      rw [classTargets_eq tag ss h]
      rfl
    | ok payload =>
      obtain ⟨hplace, hup, hroot, hfolders⟩ := Resolver.resolve_eq h s.name (s.sourceFile.map Path.ofString)
      have htarget (s' : Subject) : s'.target parse files tag
          (r.resolve parse files s.name (s.sourceFile.map Path.ofString)).2 = s'.target parse files tag r := by
        funext payload
        simp only [Subject.target, Resolver.place?_congr hroot hfolders]
      simp only [classTargets_eq tag ss hup, htarget, hplace]
      rfl

end Marginalia
