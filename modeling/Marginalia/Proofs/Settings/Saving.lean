/-
# Settings saved and loaded

Settings are written as a record of texts, truth values and lists of texts, and they are read from what is read
back of it, whether its words are quoted or not (`Settings.ofValue?_slots`). So a file that was saved in one of
the formats is loaded as the settings that were saved. Where the ending of the file name tells no format, the
settings are saved as JSON, but such a file is not loaded (`Settings.load_save_iff`).

Key definitions: `Settings.slots`, `Settings.Shows`.
Key theorems: `Settings.ofValue?_slots`, `Settings.read_print`, `Settings.load_save_iff`.
-/
import Marginalia.Proofs.Data.Listing
import Marginalia.Proofs.Data.Rereading
import Marginalia.Proofs.Data.Shaping
import Marginalia.Proofs.FileTree.Rewriting
import Marginalia.Settings.Store

namespace Marginalia
namespace Settings

/-! ### The record of the settings -/

/-- The settings under their names. -/
def slots (s : Settings) : List (String × Yaml.Slot) :=
  [("root", .text s.root), ("model_dir", .texts s.modelFolders), ("mailer_dir", .texts s.mailerFolders),
    ("routes_file", .text s.routesFile), ("routes_anchor", .text s.routesAnchor),
    ("schema_snapshot", .text s.schemaSnapshot), ("routes_snapshot", .text s.routesSnapshot),
    ("mailer_snapshot", .text s.mailerSnapshot), ("position", .text s.position.name),
    ("allow_outside_root", .truth s.allowOutside), ("dry_run", .truth s.dryRun),
    ("show_indexes", .truth s.showIndexes), ("show_foreign_keys", .truth s.showForeignKeys),
    ("show_check_constraints", .truth s.showCheckConstraints), ("exclude", .texts s.exclude)]

theorem toValue_eq_written (s : Settings) : s.toValue = Yaml.written s.slots := rfl

/-- The values are read as what stands for them. -/
structure Shows (w : Yaml.Slot → Value) : Prop where
  /-- A text is a text or an unquoted word. -/
  text : ∀ t, w (.text t) = .str t ∨ w (.text t) = .bare t
  /-- A truth value is read as such. -/
  truth : ∀ b, (w (.truth b)).truth? = some b
  /-- A list of texts is read as such. -/
  texts : ∀ ts, (w (.texts ts)).items? Value.text? = some ts

theorem shows_value : Shows Yaml.Slot.value := ⟨fun _ => .inl rfl, fun _ => rfl, Value.items?_strs⟩

theorem shows_opened : Shows Yaml.Slot.opened where
  text t := by
    by_cases h : Yaml.formOf t = .plain
    · exact .inr (if_pos h)
    · exact .inl (if_neg h)
  truth b := by cases b <;> rfl
  texts ts := Value.mapM_map (fun t => by unfold Yaml.opened; split <;> rfl) ts

theorem ofName?_name (p : Position) : Position.ofName? p.name = some p := by cases p <;> rfl

/-- Settings are read from values that show them. -/
theorem ofValue?_slots {w : Yaml.Slot → Value} (hw : Shows w) (bare : Bool) (s : Settings) :
    ofValue? (.record (s.slots.map fun f => (⟨f.1, bare⟩, w f.2))) = some s := by
  have htext (t : String) : (w (.text t)).text? = some t := by rcases hw.text t with h | h <;> rw [h] <;> rfl
  have hposition : position? (w (.text s.position.name)) = some s.position := by
    rcases hw.text s.position.name with h | h <;> rw [h, position?, ofName?_name]
  have hnames : (s.slots.map fun f => ((⟨f.1, bare⟩ : Key), w f.2)).map (·.1.text) = names := rfl
  rw [ofValue?, Value.fields?_record hnames (by decide)]
  rw [Option.bind_eq_bind, Option.bind_some]
  simp only [slots, List.map_cons, List.map_nil, Fields.orDefault_cons, String.reduceEq, if_true, if_false, htext,
    hw.truth, hw.texts, hposition]
  rfl

/-! ### Documents -/

/-- JSON can hold a record of texts, truth values and lists of texts. -/
theorem holds_written (fs : List (String × Yaml.Slot)) : Json.Holds Json.maxDepth (Yaml.written fs) := by
  have hall (ts : List String) : Json.HoldsAll 125 (ts.map .str) := by
    induction ts with
    | nil => trivial
    | cons t ts ih => exact ⟨trivial, ih⟩
  have hslot (x : Yaml.Slot) : Json.Holds 126 x.value := by
    cases x with
    | text | truth => trivial
    | texts ts => exact ⟨by decide, hall ts⟩
  have hfields : Json.HoldsFields 126 ((fs.map fun f => (f.1, f.2.value)).map fun f => (⟨f.1, false⟩, f.2)) := by
    induction fs with
    | nil => trivial
    | cons f fs ih => exact ⟨rfl, hslot f.2, ih⟩
  exact ⟨by decide, hfields⟩

theorem formOf_slots (s : Settings) : ∀ f ∈ s.slots, Yaml.formOf f.1 = .plain := by
  have hnames : ∀ n ∈ names, Yaml.formOf n = .plain := by decide
  exact fun f hf => hnames f.1 (List.mem_map_of_mem (f := Prod.fst) hf)

theorem slots_ne_nil (s : Settings) : s.slots ≠ [] := List.cons_ne_nil _ _

/-- Settings are read from the document that is written for them, in each format. -/
theorem read_print (f : Format) (s : Settings) : f.read ofValue? (f.print s.toValue) = .ok s := by
  rw [toValue_eq_written]
  cases f with
  | json =>
    have hread : Json.read? (Format.json.print (Yaml.written s.slots)) = some (Yaml.written s.slots) :=
      Json.read?_pretty (holds_written s.slots)
    have hvalue : ofValue? (Yaml.written s.slots) = some s := ofValue?_slots shows_value false s
    simp [Format.read, hread, hvalue]
  | yaml =>
    have hread := Yaml.read?_print s.slots_ne_nil s.formOf_slots
    have hvalue := ofValue?_slots shows_opened true s
    simp [Format.read, Format.print, hread, hvalue]

/-- A document with settings is not blank. -/
theorem all_isBlank_document (s : Settings) (p : Path) : (s.document p).all Text.isBlank = false := by
  have hjson : ((Format.json.print s.toValue).all Text.isBlank) = false := rfl
  have hyaml : ((Format.yaml.print s.toValue).all Text.isBlank) = false := by
    have hprint : Format.yaml.print s.toValue = Yaml.fieldLines s.slots :=
      Yaml.print_written s.slots_ne_nil s.formOf_slots
    rw [hprint, slots, Yaml.fieldLines_cons]
    rfl
  unfold document
  cases (Format.ofPath? p).getD .json with
  | json => exact hjson
  | yaml => exact hyaml

/-! ### Files -/

variable {files files' : FileTree} {s : Settings} {p : Path}

theorem read_of_save (h : save files s p = .ok files') : files'.read p = .ok (s.document p) := by
  unfold save at h
  cases hw : files.write p (s.document p) with
  | error f => rw [hw] at h; cases h
  | ok t =>
    rw [hw] at h
    cases h
    exact FileTree.read_write hw

/-- What is loaded from a file in which settings were saved. -/
theorem load_save (h : save files s p = .ok files') :
    load files' p =
      match Format.ofPath? p with
      | some _ => .ok s
      | none => .error (.settingsFormat (p.extension?.map String.ofList)) := by
  rw [load, read_of_save h]
  simp only [Except.mapError, bind, Except.bind, all_isBlank_document, Bool.false_eq_true, if_false]
  cases hf : Format.ofPath? p with
  | none => rfl
  | some f =>
    have hdocument : s.document p = f.print s.toValue := by rw [document, hf, Option.getD_some]
    rw [hdocument]
    exact read_print f s

/-- The endings that tell a format. -/
theorem isSome_ofPath?_iff : (Format.ofPath? p).isSome = true ↔
    ∃ e ∈ ["yml", "yaml", "json"], p.extension? = some e.toList := by
  rw [Format.ofPath?]
  cases p.extension? with
  | none => simp
  | some e =>
    have he (s : String) : e = s.toList ↔ String.ofList e = s :=
      ⟨fun h => h ▸ String.ofList_toList, fun h => h ▸ String.toList_ofList.symm⟩
    rw [Option.bind_some, Format.ofExtension?]
    split <;> simp_all

/-- **What was saved is loaded exactly if the ending tells a format.** Once settings were saved, whatever they are
and wherever, they are loaded again if the ending of the file name is one of a format, and only then: a file with
another ending or with none was written all the same, as JSON, but to load it fails. -/
theorem load_save_iff (h : save files s p = .ok files') :
    (load files' p = .ok s ↔ ∃ e ∈ ["yml", "yaml", "json"], p.extension? = some e.toList) ∧
    ((¬ ∃ e ∈ ["yml", "yaml", "json"], p.extension? = some e.toList) →
      files'.read p = .ok (Json.pretty s.toValue) ∧
      load files' p = .error (.settingsFormat (p.extension?.map String.ofList))) := by
  rw [← isSome_ofPath?_iff, load_save h, read_of_save h]
  cases hf : Format.ofPath? p with
  | none => simp [document, hf, Format.print]
  | some f => simp

theorem save_empty {n : Text} (h : n ∉ [[], ['.'], ['.', '.']]) (hs : '/' ∉ n) (s : Settings) :
    save {} s ⟨n⟩ = .ok (FileTree.single n (s.document ⟨n⟩)) := by
  rw [save, FileTree.write_empty h hs]
  rfl

theorem load_save_iff_yaml :
    let s : Settings := { position := .before }
    let p := Path.ofString ".annotaterb.yml"
    let files' := FileTree.single p.text (s.document p)
    save {} s p = .ok files' ∧ load files' p = .ok s := by
  intro s p files'
  have h : save {} s p = .ok files' := save_empty (by decide) (by decide) s
  exact ⟨h, (load_save_iff h).1.2 ⟨"yml", by decide, by decide⟩⟩

/-- Settings that were saved without an error are not loaded. -/
theorem saved_not_loaded :
    let s : Settings := { position := .before }
    let p := Path.ofString "annotate.toml"
    let files' := FileTree.single p.text (s.document p)
    save {} s p = .ok files' ∧ load files' p = .error (.settingsFormat (some "toml")) := by
  intro s p files'
  have h : save {} s p = .ok files' := save_empty (by decide) (by decide) s
  exact ⟨h, (load_save h).trans (by decide)⟩

end Settings
end Marginalia
