/-
# Comments that depend on one model alone

The comment of a model is made from what is recorded of it, whatever else the
snapshot records. In a section the items stand by their names, so that the order
in which they were recorded does not show, as long as no two items have one name
(`Schema.byName_eq_of_perm`, `Schema.namedLines_eq_of_perm`); and a list that could
not be had shows as little as an empty one. Two recorded models that differ in no
more than this have the same comment, in any two snapshots in which no other model
has their name (`Schema.Snapshot.comment_isolated`).

Key definitions: `Fetched.ShowsLike`, `Schema.Model.ShowsLike`, `Schema.Snapshot.Holds`,
`Schema.Snapshot.exchange`.
Key theorems: `Schema.namedLines_eq_of_perm`, `Schema.comment_eq_of_showsLike`,
`Schema.Snapshot.comment_isolated`.
-/
import Mathlib.Data.List.Nodup
import Marginalia.Comment.Schema

namespace Marginalia

/-- What is recorded in place of a list shows no more of it: the same, the items in another order, no two of
them having one name, or no items in place of a cause for which they could not be had. -/
inductive Fetched.ShowsLike {α : Type} (name : α → String) : Fetched α → Fetched α → Prop
  /-- The same is recorded. -/
  | same (f : Fetched α) : ShowsLike name f f
  /-- The items are recorded in another order. -/
  | reordered {l l' : List α} (perm : l'.Perm l) (distinct : (l.map name).Nodup) :
      ShowsLike name (.items l') (.items l)
  /-- A failure is recorded as an empty list. -/
  | emptied (cause : String) : ShowsLike name (.items []) (.failed cause)

theorem Text.columnWidth_eq_of_perm {ts us : List Text} (h : us.Perm ts) : columnWidth us = columnWidth ts := by
  have hmax : ∀ x ∈ us.map byteLength, ∀ y ∈ us.map byteLength, ∀ z, max (max z x) y = max (max z y) x := by
    intro x _ y _ z
    omega
  exact (h.map byteLength).foldl_eq' hmax 0

namespace Schema

variable {α : Type} {name : α → String} {l l' : List α} {s s' : Snapshot} {m m' : Model}

/-! ### Items by their names -/

theorem pairwise_byName (name : α → String) (l : List α) : (byName name l).Pairwise fun a b => name a ≤ name b := by
  have hsorted : (byName name l).Pairwise fun a b => decide (name a ≤ name b) = true := by
    apply List.pairwise_mergeSort
    · intro a b c hab hbc
      rw [decide_eq_true_eq] at hab hbc ⊢
      exact String.le_trans hab hbc
    · intro a b
      rw [Bool.or_eq_true, decide_eq_true_eq, decide_eq_true_eq]
      exact String.le_total _ _
  exact hsorted.imp of_decide_eq_true

theorem byName_perm (name : α → String) (l : List α) : (byName name l).Perm l := List.mergeSort_perm _ _

/-- The order of items with names of their own does not show. -/
theorem byName_eq_of_perm (h : l'.Perm l) (hd : (l.map name).Nodup) : byName name l' = byName name l := by
  refine List.Perm.eq_of_pairwise ?_ (pairwise_byName name l') (pairwise_byName name l) ?_
  · intro a b ha hb hab hba
    have ha' : a ∈ l := h.subset ((byName_perm name l').subset ha)
    have hb' : b ∈ l := (byName_perm name l).subset hb
    exact List.inj_on_of_nodup_map hd ha' hb' (String.le_antisymm hab hba)
  · exact ((byName_perm name l').trans h).trans (byName_perm name l).symm

theorem namedLines_eq_of_perm (detail : α → Text) (h : l'.Perm l) (hd : (l.map name).Nodup) :
    namedLines name detail l' = namedLines name detail l := by
  have hwidth := Text.columnWidth_eq_of_perm (h.map fun a => (name a).toList)
  simp only [namedLines, byName_eq_of_perm h hd, hwidth]

/-! ### Sections -/

/-- What shows no more gives the same section. -/
theorem sectionLines_eq_of_showsLike {f f' : Fetched α} (h : f'.ShowsLike name f) (wanted : Bool) (title : String)
    (detail : α → Text) :
    sectionLines wanted title (namedLines name detail) f' = sectionLines wanted title (namedLines name detail) f := by
  cases h with
  | same => rfl
  | emptied cause => rfl
  | @reordered l l' perm distinct =>
    cases l' with
    | nil => rw [perm.symm.eq_nil]
    | cons a l' =>
      cases l with
      | nil => exact absurd perm.eq_nil (List.cons_ne_nil a l')
      | cons b l => rw [sectionLines, sectionLines, namedLines_eq_of_perm detail perm distinct]

/-- What is recorded of a model shows no more of it in the lists that need not be had. -/
structure Model.ShowsLike (m' m : Model) : Prop where
  /-- It is the same model. -/
  entity : m'.entity = m.entity
  /-- It supports the same. -/
  capabilities : m'.capabilities = m.capabilities
  /-- It has the same columns. -/
  columns : m'.columns = m.columns
  /-- The indexes. -/
  indexes : m'.indexes.ShowsLike (·.name) m.indexes
  /-- The foreign keys. -/
  foreignKeys : m'.foreignKeys.ShowsLike (·.name) m.foreignKeys
  /-- The check constraints. -/
  checkConstraints : m'.checkConstraints.ShowsLike (·.name) m.checkConstraints

theorem Model.ShowsLike.refl (m : Model) : m.ShowsLike m :=
  ⟨rfl, rfl, rfl, .same _, .same _, .same _⟩

theorem comment_eq_of_showsLike (options : Options) (e : Entity) (h : m'.ShowsLike m) :
    comment options e m' = comment options e m := by
  have hindexes (wanted : Bool) : sectionLines wanted "Indexes" indexLines m'.indexes =
      sectionLines wanted "Indexes" indexLines m.indexes := sectionLines_eq_of_showsLike h.indexes _ _ _
  have hkeys (wanted : Bool) : sectionLines wanted "Foreign Keys" foreignKeyLines m'.foreignKeys =
      sectionLines wanted "Foreign Keys" foreignKeyLines m.foreignKeys := sectionLines_eq_of_showsLike h.foreignKeys _ _ _
  have hchecks (wanted : Bool) : sectionLines wanted "Check Constraints" checkLines m'.checkConstraints =
      sectionLines wanted "Check Constraints" checkLines m.checkConstraints :=
    sectionLines_eq_of_showsLike h.checkConstraints _ _ _
  simp only [comment, h.columns, h.capabilities, hindexes, hkeys, hchecks]

namespace Snapshot

/-- The snapshot records the model, and all else that it records has another name. -/
def Holds (s : Snapshot) (m : Model) : Prop := m ∈ s.models ∧ ∀ x ∈ s.models, x.entity.name = m.entity.name → x = m

/-- The snapshot with another model in the place of one. -/
def exchange (m m' : Model) (s : Snapshot) : Snapshot where
  models := s.models.map fun x => if x = m then m' else x

theorem holds_of_nodup (hs : (s.models.map (·.entity.name)).Nodup) (hm : m ∈ s.models) : s.Holds m :=
  ⟨hm, fun _ hx hname => List.inj_on_of_nodup_map hs hx hm hname⟩

theorem Holds.find?_eq (h : s.Holds m) : s.find? m.entity.name = some m := by
  cases hf : s.find? m.entity.name with
  | none =>
    rw [find?, List.find?_eq_none] at hf
    exact absurd (beq_self_eq_true _) (hf m h.1)
  | some x =>
    have hx : x ∈ s.models := List.mem_of_find?_eq_some hf
    have hname : x.entity.name = m.entity.name := by simpa using List.find?_some hf
    rw [h.2 x hx hname]

theorem Holds.exchange (h : s.Holds m) (he : m'.entity = m.entity) : (s.exchange m m').Holds m' := by
  refine ⟨List.mem_map.2 ⟨m, h.1, if_pos rfl⟩, ?_⟩
  intro x hx hname
  obtain ⟨y, hy, rfl⟩ := List.mem_map.1 hx
  by_cases hym : y = m
  · rw [if_pos hym]
  · rw [if_neg hym, he] at hname
    exact absurd (h.2 y hy hname) hym

/-- The comment of a model is made from its own record. -/
theorem Holds.comment_eq (h : s.Holds m) (options : Options) :
    s.comment options m.entity = Schema.comment options m.entity m := by
  rw [comment, h.find?_eq]

/-- **Each model for itself.** In a snapshot whose models have names of their own, the comment of a model
is the one that any other snapshot gives it, if that snapshot holds the model as it is, or with its indexes, foreign keys
and check constraints in another order or emptied where they could not be had, among models of other names. The
snapshot itself with the model changed in this way is such a snapshot. -/
theorem comment_isolated (options : Options) (hs : (s.models.map (·.entity.name)).Nodup) (hm : m ∈ s.models)
    (h : m'.ShowsLike m) :
    (∀ s' : Snapshot, s'.Holds m' → s'.comment options m'.entity = s.comment options m.entity) ∧
      (s.exchange m m').Holds m' := by
  have hholds := holds_of_nodup hs hm
  refine ⟨fun s' hs' => ?_, hholds.exchange h.entity⟩
  calc s'.comment options m'.entity = Schema.comment options m'.entity m' := hs'.comment_eq options
    _ = Schema.comment options m.entity m := by rw [comment_eq_of_showsLike options _ h, h.entity]
    _ = s.comment options m.entity := (hholds.comment_eq options).symm

/-- A model with two indexes whose foreign keys could not be had. -/
def userModel : Model where
  entity := { name := "User", table := "users" }
  columns := .items [{ name := "id", type := "bigint", nullable := false, primaryKey := true }]
  indexes := .items [{ name := "by_name", columns := ["name"] }, { name := "by_email", columns := ["email"], unique := true }]
  foreignKeys := .failed "connection lost"

/-- The same model with its indexes the other way round and no foreign keys. -/
def userModelAgain : Model :=
  { userModel with
    indexes := .items [{ name := "by_email", columns := ["email"], unique := true }, { name := "by_name", columns := ["name"] }]
    foreignKeys := .items [] }

/-- A model without columns. -/
def roleModel : Model where
  entity := { name := "Role", table := "roles" }
  columns := .failed "no such table"

/-- A model with longer names. -/
def membershipModel : Model where
  entity := { name := "Membership", table := "memberships" }
  columns := .items [{ name := "membership_number", type := "character varying" }]
  indexes := .items [{ name := "by_membership_number", columns := ["membership_number"] }]

/-- A change of what is around the model, of the order of its indexes and of the failure leaves its comment. -/
theorem comment_isolated_users :
    let s : Snapshot := ⟨[userModel, roleModel]⟩
    let s' : Snapshot := ⟨[membershipModel, userModelAgain]⟩
    (s.models.map (·.entity.name)).Nodup ∧ userModel ∈ s.models ∧ userModelAgain.ShowsLike userModel ∧
      s'.Holds userModelAgain ∧ s'.comment {} userModelAgain.entity = s.comment {} userModel.entity ∧
      (s.exchange userModel userModelAgain).Holds userModelAgain := by
  intro s s'
  have hs : (s.models.map (·.entity.name)).Nodup := by decide
  have hm : userModel ∈ s.models := List.mem_cons_self
  have hlike : userModelAgain.ShowsLike userModel :=
    ⟨rfl, rfl, rfl, .reordered (.swap ..) (by decide), .emptied _, .same _⟩
  have hs' : s'.Holds userModelAgain := holds_of_nodup (by decide) (by decide)
  obtain ⟨hcomment, hexchange⟩ := comment_isolated {} hs hm hlike
  exact ⟨hs, hm, hlike, hs', hcomment s' hs', hexchange⟩

end Snapshot
end Schema
end Marginalia
