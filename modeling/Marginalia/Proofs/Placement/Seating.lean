/-
# Classes that move with the code

Two texts with the same code lines declare the same classes, and a reader that
is steady finds them on the same code lines, so that adding or deleting notes
only shifts the line numbers that it reports (`Index.Steady`). A name then
stands for the same class in both (`Index.resolve?_follows`), and a batch is
placed in the same order (`Placement.forall₂_bottomUp`).

Key definitions: `Declaration.Sits`, `Declaration.Follows`, `Index.Steady`, `Index.ofCode`.
Key theorems: `Index.resolve?_follows`, `Placement.forall₂_resolved`,
`Placement.forall₂_bottomUp`, `Index.steady_ofCode`.
-/
import Mathlib.Data.List.Forall2
import Marginalia.Placement.Batch
import Marginalia.Proofs.Block.Framing
import Marginalia.Proofs.Text.Code
import Marginalia.Ruby.Reader

namespace Marginalia

open Text

namespace Declaration

/-- The declaration starts on the `i`-th code line of the text and ends on the `j`-th. -/
structure Sits (t : Text) (d : Declaration) (i j : Nat) : Prop where
  /-- The first of the two lines is there. -/
  start_lt : i < (codeLines t).length
  /-- The second of the two lines is there. -/
  stop_lt : j < (codeLines t).length
  /-- The line of the keyword. -/
  line : d.line = lineOf t i
  /-- The line of the end. -/
  endLine : d.endLine = lineOf t j

theorem Sits.le {t : Text} {d : Declaration} {i j : Nat} (h : d.Sits t i j) : i ≤ j := by
  have hle := d.line_le_endLine
  rwa [h.line, h.endLine, lineOf_le_iff h.start_lt h.stop_lt] at hle

/-- The declaration `d'` of the text `v` is the declaration `d` of the text `u`, on the same code lines. -/
structure Follows (u v : Text) (d d' : Declaration) : Prop where
  /-- The last part of the name. -/
  name : d'.name = d.name
  /-- The names around it. -/
  scopes : d'.scopes = d.scopes
  /-- The name as written. -/
  writtenPath : d'.writtenPath = d.writtenPath
  /-- The code lines on which it starts and ends. -/
  lines : ∃ i j, d.Sits u i j ∧ d'.Sits v i j

namespace Follows

variable {u v : Text} {d d' e e' : Declaration}

theorem fullName (h : Follows u v d d') : d'.fullName = d.fullName := by
  rw [Declaration.fullName, h.name, h.scopes, Declaration.fullName]

theorem qualifiedPath (h : Follows u v d d') : d'.qualifiedPath = d.qualifiedPath := by
  rw [Declaration.qualifiedPath, h.writtenPath, h.scopes, Declaration.qualifiedPath]

/-- The lines by which blocks are ordered are in the same order. -/
theorem anchorLine_le (pos : Position) (h : Follows u v d d') (h' : Follows u v e e') :
    Placement.anchorLine pos d' ≤ Placement.anchorLine pos e' ↔
      Placement.anchorLine pos d ≤ Placement.anchorLine pos e := by
  obtain ⟨i, j, hu, hv⟩ := h.lines
  obtain ⟨k, l, hu', hv'⟩ := h'.lines
  have hline : d'.line ≤ e'.line ↔ d.line ≤ e.line := by
    rw [hu.line, hv.line, hu'.line, hv'.line, lineOf_le_iff hu.start_lt hu'.start_lt,
      lineOf_le_iff hv.start_lt hv'.start_lt]
  have hend : d'.endLine ≤ e'.endLine ↔ d.endLine ≤ e.endLine := by
    rw [hu.endLine, hv.endLine, hu'.endLine, hv'.endLine, lineOf_le_iff hu.stop_lt hu'.stop_lt,
      lineOf_le_iff hv.stop_lt hv'.stop_lt]
  cases pos with
  | after => exact hend
  | top | before => exact hline

end Follows
end Declaration

open Declaration

namespace Index

/-- A reader of sources is steady on a text if adding and deleting whole lines that are blank or
comments only shifts the line numbers of the classes that it finds. -/
def Steady (parse : Text → Index) (t : Text) : Prop :=
  ∀ u v, codeLines u = codeLines t → codeLines v = codeLines t →
    List.Forall₂ (Follows u v) (parse u).classes (parse v).classes

theorem Steady.of_codeLines {parse : Text → Index} {t u : Text} (h : Steady parse t)
    (e : codeLines u = codeLines t) : Steady parse u :=
  fun v w hv hw => h v w (hv.trans e) (hw.trans e)

theorem find?_rel {α β : Type} {R : α → β → Prop} {p : α → Bool} {q : β → Bool}
    (hpq : ∀ a b, R a b → p a = q b) {l : List α} {l' : List β} (h : List.Forall₂ R l l') :
    Option.Rel R (l.find? p) (l'.find? q) := by
  induction h with
  | nil => exact .none
  | @cons a b l l' hab _ ih =>
    rw [List.find?_cons, List.find?_cons, hpq a b hab]
    cases q b with
    | true => exact .some hab
    | false => exact ih

variable {u v : Text} {ix ix' : Index}

/-- A name stands for the same class in both texts, or for none. -/
theorem resolve?_follows (h : List.Forall₂ (Follows u v) ix.classes ix'.classes) (query : String) :
    Option.Rel (Follows u v) (ix.resolve? query) (ix'.resolve? query) := by
  have hfull : Option.Rel (Follows u v) (ix.classes.find? fun d => d.fullName == query)
      (ix'.classes.find? fun d => d.fullName == query) :=
    find?_rel (fun a b hab => by rw [hab.fullName]) h
  have hpath : Option.Rel (Follows u v) (ix.classes.find? fun d => d.qualifiedPath == query)
      (ix'.classes.find? fun d => d.qualifiedPath == query) :=
    find?_rel (fun a b hab => by rw [hab.qualifiedPath]) h
  have hname : Option.Rel (Follows u v) (ix.classes.find? fun d => d.name == query)
      (ix'.classes.find? fun d => d.name == query) :=
    find?_rel (fun a b hab => by rw [hab.name]) h
  by_cases hq : isQualified query
  · rw [resolve?_of_isQualified hq, resolve?_of_isQualified hq]
    generalize ix.classes.find? (fun d => d.fullName == query) = x at hfull
    generalize ix'.classes.find? (fun d => d.fullName == query) = y at hfull
    cases hfull with
    | some hab => exact .some hab
    | none => exact hpath
  · rw [resolve?_of_not_isQualified hq, resolve?_of_not_isQualified hq]
    exact hname

/-! ### A reader of code lines -/

/-- What the code lines of a text declare, read without the notes between them. -/
def ofCode (t : Text) : Index :=
  let ix := ofSource (paragraph (codeLines t))
  { ix with
    classes := (ix.classes.filter fun d => 0 < d.line ∧ d.endLine ≤ (codeLines t).length).map fun d =>
      spanning d.kind d.name d.scopes d.writtenPath (lineOf t (d.line - 1)) d.column
        (lineOf t (d.endLine - 1)) }

/-- Reading the code lines alone is steady. -/
theorem steady_ofCode (t : Text) : Steady ofCode t := by
  intro u v hu hv
  simp only [ofCode, hu, hv]
  rw [List.forall₂_map_left_iff, List.forall₂_map_right_iff, List.forall₂_same]
  intro d hd
  obtain ⟨h0, hle⟩ := of_decide_eq_true (List.mem_filter.1 hd).2
  have hde := d.line_le_endLine
  have hsits {x : Text} (hx : codeLines x = codeLines t) :
      (spanning d.kind d.name d.scopes d.writtenPath (lineOf x (d.line - 1)) d.column
        (lineOf x (d.endLine - 1))).Sits x (d.line - 1) (d.endLine - 1) := by
    have hi : d.line - 1 < (codeLines x).length := by rw [hx]; omega
    have hj : d.endLine - 1 < (codeLines x).length := by rw [hx]; omega
    refine ⟨hi, hj, rfl, Nat.max_eq_left ?_⟩
    rw [lineOf_le_iff hi hj]
    omega
  exact ⟨rfl, rfl, rfl, _, _, hsits hu, hsits hv⟩

end Index

namespace Placement

/-- A request finds the same class in both texts. -/
def Keeps₂ (u v : Text) (x y : Declaration × Request) : Prop := Follows u v x.1 y.1 ∧ y.2 = x.2

variable {u v : Text} {ix ix' : Index}

theorem forall₂_resolved (h : List.Forall₂ (Follows u v) ix.classes ix'.classes) (rs : List Request) :
    List.Forall₂ (Keeps₂ u v) (resolved ix rs) (resolved ix' rs) := by
  unfold resolved
  induction rs with
  | nil => exact .nil
  | cons r rs ih =>
    have hr := Index.resolve?_follows h r.name
    rw [List.filterMap_cons, List.filterMap_cons]
    generalize ix.resolve? r.name = x at hr
    generalize ix'.resolve? r.name = y at hr
    cases hr with
    | some hab => exact .cons ⟨hab, rfl⟩ ih
    | none => exact ih

/-- The classes are in the same order in both texts. -/
theorem forall₂_bottomUp (pos : Position) {rs rs' : List (Declaration × Request)}
    (h : List.Forall₂ (Keeps₂ u v) rs rs') :
    List.Forall₂ (Keeps₂ u v) (bottomUp pos rs) (bottomUp pos rs') := by
  have hlen := h.length_eq
  let le (a b : Declaration × Request) : Bool := anchorLine pos b.1 ≤ anchorLine pos a.1
  let zs := rs.zip rs'
  have hz : ∀ z ∈ zs, Keeps₂ u v z.1 z.2 := fun z hz => List.forall₂_zip h hz
  have hle : ∀ a ∈ zs, ∀ b ∈ zs, le a.1 b.1 = le a.2 b.2 := by
    intro a ha b hb
    simp only [le, decide_eq_decide]
    exact ((hz b hb).1.anchorLine_le pos (hz a ha).1).symm
  have h₁ : (zs.mergeSort fun a b => le a.1 b.1).map Prod.fst = bottomUp pos rs := by
    have hfst : ∀ a ∈ zs, ∀ b ∈ zs, le a.1 b.1 = le a.1 b.1 := fun _ _ _ _ => rfl
    rw [List.map_mergeSort hfst, List.map_fst_zip (Nat.le_of_eq hlen)]
    rfl
  have h₂ : (zs.mergeSort fun a b => le a.1 b.1).map Prod.snd = bottomUp pos rs' := by
    rw [List.map_mergeSort hle, List.map_snd_zip (Nat.le_of_eq hlen.symm)]
    rfl
  rw [← h₁, ← h₂, List.forall₂_map_left_iff, List.forall₂_map_right_iff, List.forall₂_same]
  exact fun z hzm => hz z (List.mem_mergeSort.1 hzm)

end Placement
end Marginalia
