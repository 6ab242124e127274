/-
# Tables that stand in columns

The width of a column of texts counts bytes and padding counts characters, of which a text has no
more than bytes; so padding fills every text of a column to the same length, whatever its
characters (`Text.length_le_columnWidth`). In the lines of a schema comment the sign behind the name
thus stands at one offset for all items of a table, with a space before it (`Schema.Tabulates`), and in a
route map so do the fields of all rows (`Routes.PlacedAt`). The blanks dropped at the end of a line are
never those before a sign (`Text.trimEnd_append_cons`). As long as no field holds a line end, each item
has a line of its own in the comment (`Comment.tables_aligned`).

Key definitions: `Text.Unbroken`, `Schema.NamedAt`, `Schema.Tabulates`, `Routes.PlacedAt`.
Key theorems: `Text.splitOn_joinLines_append`, `Schema.tabulates_columnLines`,
`Schema.tabulates_namedLines`, `Routes.placedAt_rows`, `Comment.tables_aligned`.
-/
import Mathlib.Data.List.TakeWhile
import Marginalia.Comment.Routes
import Marginalia.Proofs.Snapshot.Isolating

namespace Marginalia
namespace Text

/-! ### Padding and trimming -/

/-- What is no blank stays, and so does all before it. -/
theorem trimEnd_append_cons {c : Char} (hc : isBlank c = false) (a b : Text) :
    trimEnd (a ++ c :: b) = a ++ c :: trimEnd b := by
  have hr : (a ++ c :: b).reverse = b.reverse ++ c :: a.reverse := by simp
  rw [trimEnd, trimEnd, dropEndWhile, dropEndWhile, hr, List.dropWhile_append]
  split
  · next h => rw [List.isEmpty_iff.1 h]; simp [hc]
  · simp

theorem trimEnd_append_blanks (t : Text) : ∃ blanks, (∀ c ∈ blanks, isBlank c) ∧ trimEnd t ++ blanks = t := by
  refine ⟨takeEndWhile isBlank t, fun c hc => ?_, dropEndWhile_append_takeEndWhile isBlank t⟩
  exact List.mem_takeWhile_imp (List.mem_reverse.1 hc)

theorem mem_of_mem_trimEnd {t : Text} {c : Char} (h : c ∈ trimEnd t) : c ∈ t := by
  obtain ⟨blanks, -, ht⟩ := trimEnd_append_blanks t
  rw [← ht]
  exact List.mem_append_left _ h

/-! ### Texts without line ends -/

/-- None of the texts holds a line end. -/
def Unbroken (texts : List String) : Prop := ∀ s ∈ texts, '\n' ∉ s.toList

instance (texts : List String) : Decidable (Unbroken texts) := inferInstanceAs (Decidable (∀ _ ∈ _, _))

theorem newline_not_mem_toDigits (n : Nat) : '\n' ∉ Nat.toDigits 10 n := by
  intro h
  have hd := Nat.isDigit_of_mem_toDigits (b := 10) (by decide) (by decide) h
  exact absurd hd (by decide)

theorem newline_not_mem_padEnd {t : Text} (h : '\n' ∉ t) (width : Nat) : '\n' ∉ padEnd width t := by
  simp [padEnd, h]

theorem newline_not_mem_padStart {t : Text} (h : '\n' ∉ t) (width : Nat) : '\n' ∉ padStart width t := by
  simp [padStart, h]

theorem newline_not_mem_intercalate {sep : Text} {ts : List Text} (hs : '\n' ∉ sep) (ht : ∀ t ∈ ts, '\n' ∉ t) :
    '\n' ∉ sep.intercalate ts := by
  induction ts with
  | nil => simp [List.intercalate]
  | cons t ts ih =>
    have ht' := List.forall_mem_cons.1 ht
    cases ts with
    | nil => simpa [List.intercalate] using ht'.1
    | cons u ts =>
      rw [List.intercalate_cons_cons, List.mem_append, List.mem_append]
      rintro ((h | h) | h)
      · exact ht'.1 h
      · exact hs h
      · exact ih ht'.2 h

theorem joinLines_append {a b : List Text} (ha : a ≠ []) (hb : b ≠ []) :
    joinLines (a ++ b) = joinLines a ++ '\n' :: joinLines b := by
  induction a with
  | nil => exact absurd rfl ha
  | cons l a ih =>
    cases a with
    | nil =>
      obtain ⟨m, b, rfl⟩ := List.exists_cons_of_ne_nil hb
      simp [joinLines, List.intercalate_cons_cons]
    | cons l' a =>
      have h := ih (List.cons_ne_nil l' a)
      simp only [joinLines, List.cons_append, List.intercalate_cons_cons, List.append_assoc] at h ⊢
      rw [h]

/-- Lines without line ends that are put below others are the last lines of the whole. -/
theorem splitOn_joinLines_append {a b : List Text} (ha : a ≠ []) (hb : ∀ l ∈ b, '\n' ∉ l) :
    (joinLines (a ++ b)).splitOn '\n' = (joinLines a).splitOn '\n' ++ b := by
  by_cases h : b = []
  · rw [h, List.append_nil, List.append_nil]
  · rw [joinLines_append ha h, List.splitOn_append_cons_self, joinLines, joinLines, List.splitOn_intercalate '\n' hb h]

end Text

namespace Schema

open Text

/-! ### Tables of a schema comment -/

/-- The texts that a column holds. -/
def Column.texts (c : Column) : List String := [c.name, c.type] ++ c.default.toList ++ c.comment.toList

/-- The texts that an index holds. -/
def TableIndex.texts (i : TableIndex) : List String := i.name :: i.columns ++ i.condition.toList ++ i.method.toList

/-- The texts that a foreign key holds. -/
def ForeignKey.texts (k : ForeignKey) : List String :=
  [k.name, k.column, k.toTable, k.primaryKey] ++ k.onDelete.toList ++ k.onUpdate.toList

/-- The texts that a check constraint holds. -/
def CheckConstraint.texts (c : CheckConstraint) : List String := [c.name, c.expression]

/-- The line holds the name behind a space, then spaces, and then the sign at the offset, in characters. -/
def NamedAt (offset : Nat) (sign : Char) (name : String) (line : Text) : Prop :=
  ∃ gap rest, 1 ≤ gap ∧ 1 + name.toList.length + gap = offset ∧
    line = ' ' :: name.toList ++ List.replicate gap ' ' ++ sign :: rest

/-- The items have a line each, in their order, and in all of them the sign behind the item's name stands
at one offset. -/
def Tabulates {α : Type} (sign : Char) (name : α → String) (items : List α) (lines : List Text) : Prop :=
  ∃ offset, List.Forall₂ (fun a line => '\n' ∉ line ∧ NamedAt offset sign (name a) line) items lines

variable {α : Type} {name : α → String} {l : List α}

theorem forall₂_map {R : α → Text → Prop} {f : α → Text} (h : ∀ a ∈ l, R a (f a)) :
    List.Forall₂ R l (l.map f) := by
  rw [List.forall₂_map_right_iff, List.forall₂_same]
  exact h

/-- Filled up to a width and with a gap behind, a name is followed by the sign at an offset of its own for
no name that fits. -/
theorem namedAt_padEnd {width : Nat} {s : String} (gap : Nat) (hfits : s.toList.length ≤ width)
    (hgap : s.toList.length < width + gap) (sign : Char) (rest : Text) :
    NamedAt (1 + width + gap) sign s
      (' ' :: padEnd width s.toList ++ List.replicate gap ' ' ++ sign :: rest) := by
  refine ⟨width - s.toList.length + gap, rest, by omega, by omega, ?_⟩
  simp only [padEnd, ← List.replicate_append_replicate, List.cons_append, List.append_assoc]

theorem newline_not_mem_columnType {c : Column} (h : Unbroken c.texts) : '\n' ∉ columnType c := by
  have htype : '\n' ∉ c.type.toList := h _ (by simp [Column.texts])
  unfold columnType
  split <;> simp [htype, newline_not_mem_toDigits]

theorem newline_not_mem_columnAttributes {c : Column} (h : Unbroken c.texts) :
    ∀ t ∈ columnAttributes c, '\n' ∉ t := by
  have hdefault : ∀ d, c.default = some d → '\n' ∉ d.toList := fun d hd => h d (by simp [Column.texts, hd])
  have hcomment : ∀ r, c.comment = some r → '\n' ∉ r.toList := fun r hr => h r (by simp [Column.texts, hr])
  intro t ht
  simp only [columnAttributes, List.mem_append, Option.mem_toList, Option.map_eq_some_iff] at ht
  rcases ht with ((ht | ⟨d, hd, rfl⟩) | ht) | ⟨r, hr, rfl⟩
  · split at ht <;> simp_all
  · simpa using hdefault d hd
  · split at ht <;> simp_all
  · simpa using hcomment r hr

theorem newline_not_mem_columnLine {c : Column} (h : Unbroken c.texts) (width : Nat) :
    '\n' ∉ columnLine width c := by
  have hname : '\n' ∉ c.name.toList := h _ (by simp [Column.texts])
  have hattributes : '\n' ∉ ", ".toList.intercalate (columnAttributes c) :=
    newline_not_mem_intercalate (by decide) (newline_not_mem_columnAttributes h)
  have hcells := newline_not_mem_padEnd hname width
  have htype := newline_not_mem_padEnd (newline_not_mem_columnType h) typeWidth
  intro hn
  have hn' := mem_of_mem_trimEnd hn
  simp only [List.mem_append, List.mem_cons, hcells, htype, hattributes, Char.reduceEq, or_self] at hn'

/-- What is dropped at the end of a column's line stands behind the sign. -/
theorem columnLine_eq (width : Nat) (c : Column) : columnLine width c = ' ' :: padEnd width c.name.toList ++
    ':' :: trimEnd (padEnd typeWidth (columnType c) ++ ' ' :: ", ".toList.intercalate (columnAttributes c)) := by
  have h := trimEnd_append_cons (c := ':') (by decide) (' ' :: padEnd width c.name.toList)
    (padEnd typeWidth (columnType c) ++ ' ' :: ", ".toList.intercalate (columnAttributes c))
  rw [columnLine, List.append_assoc]
  exact h

theorem tabulates_columnLines (cs : List Column) (h : ∀ c ∈ cs, Unbroken c.texts) :
    Tabulates ':' (·.name) cs (columnLines cs) := by
  refine ⟨1 + (columnWidth (cs.map (·.name.toList)) + 1) + 0, forall₂_map fun c hc =>
    ⟨newline_not_mem_columnLine (h c hc) _, ?_⟩⟩
  have hfits := length_le_columnWidth (List.mem_map_of_mem (f := fun c : Column => c.name.toList) hc)
  rw [columnLine_eq]
  have hnamed := namedAt_padEnd (s := c.name) 0 (by omega) (Nat.lt_succ_of_le hfits) ':'
    (trimEnd (padEnd typeWidth (columnType c) ++ ' ' :: ", ".toList.intercalate (columnAttributes c)))
  rwa [List.replicate_zero, List.append_nil] at hnamed

theorem newline_not_mem_clause {word : String} {rest : Option String} (hw : '\n' ∉ word.toList)
    (hr : Unbroken rest.toList) : '\n' ∉ clause word rest := by
  cases rest with
  | none => exact List.not_mem_nil
  | some s =>
    have hs : '\n' ∉ s.toList := hr s (by simp)
    simpa [clause] using ⟨hw, hs⟩

/-- The lines of a section, where what is said of an item starts with the sign. -/
theorem tabulates_namedLines {detail : α → Text} {sign : Char}
    (hsign : ∀ a ∈ l, ∃ rest, detail a = sign :: rest)
    (h : ∀ a ∈ l, '\n' ∉ (name a).toList ∧ '\n' ∉ detail a) :
    Tabulates sign name (byName name l) (namedLines name detail l) := by
  refine ⟨1 + columnWidth (l.map fun a => (name a).toList) + 2, forall₂_map fun a ha => ?_⟩
  have hmem : a ∈ l := (byName_perm name l).subset ha
  obtain ⟨hname, hdetail⟩ := h a hmem
  refine ⟨fun hn => ?_, ?_⟩
  · simp [newline_not_mem_padEnd hname, hdetail] at hn
  · obtain ⟨rest, hrest⟩ := hsign a hmem
    have hfits := length_le_columnWidth (List.mem_map_of_mem (f := fun a => (name a).toList) hmem)
    rw [hrest]
    exact namedAt_padEnd 2 hfits (by omega) sign rest

theorem tabulates_indexLines (is : List TableIndex) (h : ∀ i ∈ is, Unbroken i.texts) :
    Tabulates '(' (·.name) (byName (·.name) is) (indexLines is) := by
  refine tabulates_namedLines (fun i _ => ⟨_, rfl⟩) fun i hi => ?_
  have hname : '\n' ∉ i.name.toList := h i hi _ (by simp [TableIndex.texts])
  have hcolumns : '\n' ∉ ",".toList.intercalate (i.columns.map String.toList) := by
    refine newline_not_mem_intercalate (by decide) fun t ht => ?_
    obtain ⟨s, hs, rfl⟩ := List.mem_map.1 ht
    exact h i hi s (by simp [TableIndex.texts, hs])
  have hcondition : '\n' ∉ clause " WHERE " i.condition :=
    newline_not_mem_clause (by decide) fun s hs => h i hi s (by simp_all [TableIndex.texts])
  have hmethod : '\n' ∉ clause " USING " i.method :=
    newline_not_mem_clause (by decide) fun s hs => h i hi s (by simp_all [TableIndex.texts])
  refine ⟨hname, ?_⟩
  simp only [List.mem_append, not_or]
  refine ⟨⟨⟨⟨⟨by decide, hcolumns⟩, by decide⟩, ?_⟩, hcondition⟩, hmethod⟩
  split <;> decide

theorem tabulates_foreignKeyLines (ks : List ForeignKey) (h : ∀ k ∈ ks, Unbroken k.texts) :
    Tabulates '(' (·.name) (byName (·.name) ks) (foreignKeyLines ks) := by
  refine tabulates_namedLines (fun k _ => ⟨_, rfl⟩) fun k hk => ?_
  have htexts := h k hk
  have hdelete : '\n' ∉ clause " ON DELETE => " k.onDelete :=
    newline_not_mem_clause (by decide) fun s hs => htexts s (by simp_all [ForeignKey.texts])
  have hupdate : '\n' ∉ clause " ON UPDATE => " k.onUpdate :=
    newline_not_mem_clause (by decide) fun s hs => htexts s (by simp_all [ForeignKey.texts])
  simp only [Unbroken, ForeignKey.texts, List.cons_append, List.forall_mem_cons] at htexts
  obtain ⟨hname, hcolumn, htable, hkey, -⟩ := htexts
  refine ⟨hname, ?_⟩
  simp [hcolumn, htable, hkey, hdelete, hupdate]

theorem tabulates_checkLines (cs : List CheckConstraint) (h : ∀ c ∈ cs, Unbroken c.texts) :
    Tabulates '(' (·.name) (byName (·.name) cs) (checkLines cs) := by
  refine tabulates_namedLines (fun c _ => ⟨_, rfl⟩) fun c hc => ?_
  have hname : '\n' ∉ c.name.toList := h c hc _ (by simp [CheckConstraint.texts])
  have hexpression : '\n' ∉ c.expression.toList := h c hc _ (by simp [CheckConstraint.texts])
  exact ⟨hname, by simp [hexpression]⟩

/-- The lines of a comment above those of the columns. -/
def headLines (e : Entity) (c : Capabilities) : List Text :=
  ["== Schema Information".toList, [], "Table name: ".toList ++ e.table.toList] ++
    (c.hierarchy.map fun h => "Hierarchy: ".toList ++ h.toList).toList ++ [[]]

theorem newline_not_mem_sectionLines {lines : List α → List Text} {title : String} (wanted : Bool)
    (ht : '\n' ∉ title.toList) (h : ∀ line ∈ lines l, '\n' ∉ line) :
    ∀ line ∈ sectionLines wanted title lines (.items l), '\n' ∉ line := by
  cases l with
  | nil => simp [sectionLines]
  | cons a l =>
    cases wanted with
    | false => simp [sectionLines]
    | true => simpa [sectionLines, ht] using h

theorem Tabulates.newline_not_mem {sign : Char} {lines : List Text} (h : Tabulates sign name l lines) :
    ∀ line ∈ lines, '\n' ∉ line := by
  obtain ⟨_, h⟩ := h
  intro line hline
  obtain ⟨i, hi, rfl⟩ := List.getElem_of_mem hline
  exact (h.get (h.length_eq ▸ hi) hi).1

end Schema

namespace Routes

open Text

/-! ### Route maps -/

/-- The texts that a route holds. -/
def Route.texts (r : Route) : List String := [r.label, r.verb, r.path, r.endpoint]

/-- The line holds the fields of the route in their order, and the last three of them start at the offsets, in
characters; what is missing at its end are blanks. -/
def PlacedAt (verbAt pathAt endpointAt : Nat) (r : Route) (line : Text) : Prop :=
  ∃ indent gap gap' blanks, (∀ c ∈ blanks, isBlank c) ∧ 1 ≤ gap ∧ 1 ≤ gap' ∧
    line ++ blanks = List.replicate indent ' ' ++ r.label.toList ++ ' ' :: r.verb.toList ++ List.replicate gap ' ' ++
      r.path.toList ++ List.replicate gap' ' ' ++ r.endpoint.toList ∧
    indent + r.label.toList.length + 1 = verbAt ∧ verbAt + r.verb.toList.length + gap = pathAt ∧
    pathAt + r.path.toList.length + gap' = endpointAt

theorem placedAt_row {labelWidth verbWidth pathWidth : Nat} {r : Route} (hlabel : r.label.toList.length ≤ labelWidth)
    (hverb : r.verb.toList.length ≤ verbWidth) (hpath : r.path.toList.length ≤ pathWidth) :
    PlacedAt (labelWidth + 1) (labelWidth + 1 + verbWidth + 1) (labelWidth + 1 + verbWidth + 1 + pathWidth + 1) r
      (row labelWidth verbWidth pathWidth r) := by
  obtain ⟨blanks, hblanks, hline⟩ := trimEnd_append_blanks (padStart labelWidth r.label.toList ++
    ' ' :: padEnd verbWidth r.verb.toList ++ ' ' :: padEnd pathWidth r.path.toList ++ ' ' :: r.endpoint.toList)
  refine ⟨labelWidth - r.label.toList.length, verbWidth - r.verb.toList.length + 1,
    pathWidth - r.path.toList.length + 1, blanks, hblanks, by omega, by omega, hline.trans ?_, by omega, by omega,
    by omega⟩
  simp only [padStart, padEnd, List.replicate_succ', List.append_assoc, List.cons_append, List.nil_append]

/-- The fields of all rows start at the same offsets. -/
theorem placedAt_rows (rs : List Route) : ∃ verbAt pathAt endpointAt,
    List.Forall₂ (PlacedAt verbAt pathAt endpointAt) (heading :: rs) (rows rs) := by
  refine ⟨_, _, _, Schema.forall₂_map fun r hr => placedAt_row ?_ ?_ ?_⟩
  · exact length_le_columnWidth (List.mem_map_of_mem (f := fun r : Route => r.label.toList) hr)
  · exact length_le_columnWidth (List.mem_map_of_mem (f := fun r : Route => r.verb.toList) hr)
  · exact length_le_columnWidth (List.mem_map_of_mem (f := fun r : Route => r.path.toList) hr)

theorem newline_not_mem_row {r : Route} (h : Unbroken r.texts) (labelWidth verbWidth pathWidth : Nat) :
    '\n' ∉ row labelWidth verbWidth pathWidth r := by
  simp only [Unbroken, Route.texts, List.forall_mem_cons] at h
  obtain ⟨hlabel, hverb, hpath, hendpoint, -⟩ := h
  intro hn
  have hn' := mem_of_mem_trimEnd hn
  simp only [List.mem_append, List.mem_cons, newline_not_mem_padStart hlabel, newline_not_mem_padEnd hverb,
    newline_not_mem_padEnd hpath, hendpoint, Char.reduceEq, or_self] at hn'

theorem newline_not_mem_rows {rs : List Route} (h : ∀ r ∈ rs, Unbroken r.texts) : ∀ line ∈ rows rs, '\n' ∉ line := by
  have hall : ∀ r ∈ heading :: rs, Unbroken r.texts := List.forall_mem_cons.2 ⟨by decide, h⟩
  intro line hline
  obtain ⟨r, hr, rfl⟩ := List.mem_map.1 hline
  exact newline_not_mem_row (hall r hr) _ _ _

end Routes

namespace Comment

open Text Schema

/-- **Tables stand in columns.** Let no text of the items hold a line end. Then the comment of a model is what
stands above its columns, a line for each column, and the sections with a line for each item; the comment with the
routes has a line for each row. In the lines of the columns the colon behind the name stands at one offset, and in
each section so does the parenthesis behind the name, always with a space before it. In the rows of the routes, the
heading among them, the fields start at the same offsets, up to blanks that are left out at the end. -/
theorem tables_aligned (options : Options) (e : Entity) (capabilities : Capabilities) {cs : List Column}
    {is : List TableIndex} {ks : List ForeignKey} {chs : List CheckConstraint} {rs : List Routes.Route}
    (hcs : ∀ c ∈ cs, Unbroken c.texts) (his : ∀ i ∈ is, Unbroken i.texts) (hks : ∀ k ∈ ks, Unbroken k.texts)
    (hchs : ∀ c ∈ chs, Unbroken c.texts) (hrs : ∀ r ∈ rs, Unbroken r.texts) :
    (∃ t, comment options e
        { entity := e, capabilities, columns := .items cs, indexes := .items is, foreignKeys := .items ks,
          checkConstraints := .items chs } = .ok t ∧
      t.splitOn '\n' = (joinLines (headLines e capabilities)).splitOn '\n' ++ columnLines cs ++
        sectionLines options.indexes "Indexes" indexLines (.items is) ++
        sectionLines (options.foreignKeys && capabilities.foreignKeys) "Foreign Keys" foreignKeyLines (.items ks) ++
        sectionLines (options.checkConstraints && capabilities.checkConstraints) "Check Constraints" checkLines
          (.items chs)) ∧
    (Routes.comment rs).splitOn '\n' = "== Route Map".toList :: [] :: Routes.rows rs ∧
    Tabulates ':' (·.name) cs (columnLines cs) ∧
    (byName (·.name) is).Perm is ∧ Tabulates '(' (·.name) (byName (·.name) is) (indexLines is) ∧
    (byName (·.name) ks).Perm ks ∧ Tabulates '(' (·.name) (byName (·.name) ks) (foreignKeyLines ks) ∧
    (byName (·.name) chs).Perm chs ∧ Tabulates '(' (·.name) (byName (·.name) chs) (checkLines chs) ∧
    ∃ verbAt pathAt endpointAt,
      List.Forall₂ (Routes.PlacedAt verbAt pathAt endpointAt) (Routes.heading :: rs) (Routes.rows rs) := by
  have hcolumns := tabulates_columnLines cs hcs
  have hindexes := tabulates_indexLines is his
  have hkeys := tabulates_foreignKeyLines ks hks
  have hchecks := tabulates_checkLines chs hchs
  refine ⟨⟨_, rfl, ?_⟩, ?_, hcolumns, byName_perm _ is, hindexes, byName_perm _ ks, hkeys, byName_perm _ chs, hchecks,
    Routes.placedAt_rows rs⟩
  · have hlines := splitOn_joinLines_append (a := headLines e capabilities) (by simp [headLines])
      (b := columnLines cs ++ (sectionLines options.indexes "Indexes" indexLines (.items is) ++
        (sectionLines (options.foreignKeys && capabilities.foreignKeys) "Foreign Keys" foreignKeyLines (.items ks) ++
          sectionLines (options.checkConstraints && capabilities.checkConstraints) "Check Constraints" checkLines
            (.items chs))))
      (by
        simp only [List.forall_mem_append]
        exact ⟨hcolumns.newline_not_mem, newline_not_mem_sectionLines _ (by decide) hindexes.newline_not_mem,
          newline_not_mem_sectionLines _ (by decide) hkeys.newline_not_mem,
          newline_not_mem_sectionLines _ (by decide) hchecks.newline_not_mem⟩)
    simpa only [headLines, List.append_assoc] using hlines
  · have hlines := splitOn_joinLines_append (a := ["== Route Map".toList, []]) (by simp)
      (Routes.newline_not_mem_rows hrs)
    rw [Routes.comment, hlines]
    rfl

/-- Columns, of which one has a name with more bytes than characters. -/
def sizeColumns : List Column :=
  [{ name := "größe", type := "bigint", nullable := false }, { name := "id", type := "string", comment := some "häufig" }]

/-- Indexes whose names differ in length. -/
def sizeIndexes : List TableIndex :=
  [{ name := "über_größe", columns := ["größe", "id"], unique := true }, { name := "by_id", columns := ["id"] }]

/-- Routes, of which one answers every kind of request and has no name. -/
def sizeRoutes : List Routes.Route :=
  [{ label := "größen", verb := "GET", path := "/größen", endpoint := "sizes#index" },
    { path := "/größen/:id", endpoint := "" }]

/-- Names and paths with umlauts stand in columns. -/
theorem tables_aligned_umlauts :
    (∀ c ∈ sizeColumns, Unbroken c.texts) ∧ (∀ i ∈ sizeIndexes, Unbroken i.texts) ∧
    (∀ r ∈ sizeRoutes, Unbroken r.texts) ∧
    (∃ t, comment {} { name := "Size", table := "größen" }
        { entity := { name := "Size", table := "größen" }, columns := .items sizeColumns,
          indexes := .items sizeIndexes, foreignKeys := .items [], checkConstraints := .items [] } = .ok t ∧
      t.splitOn '\n' = (joinLines (headLines { name := "Size", table := "größen" } {})).splitOn '\n' ++
        columnLines sizeColumns ++ sectionLines true "Indexes" indexLines (.items sizeIndexes) ++ [] ++ []) ∧
    Tabulates ':' (·.name) sizeColumns (columnLines sizeColumns) ∧
    Tabulates '(' (·.name) (byName (·.name) sizeIndexes) (indexLines sizeIndexes) ∧
    ∃ verbAt pathAt endpointAt, List.Forall₂ (Routes.PlacedAt verbAt pathAt endpointAt)
      (Routes.heading :: sizeRoutes) (Routes.rows sizeRoutes) := by
  have hcs : ∀ c ∈ sizeColumns, Unbroken c.texts := by decide
  have his : ∀ i ∈ sizeIndexes, Unbroken i.texts := by decide
  have hrs : ∀ r ∈ sizeRoutes, Unbroken r.texts := by decide
  have hks : ∀ k ∈ ([] : List ForeignKey), Unbroken k.texts := List.forall_mem_nil _
  have hchs : ∀ c ∈ ([] : List CheckConstraint), Unbroken c.texts := List.forall_mem_nil _
  obtain ⟨hlines, -, hcolumns, -, hindexes, -, -, -, -, hroutes⟩ :=
    tables_aligned {} { name := "Size", table := "größen" } {} hcs his hks hchs hrs
  exact ⟨hcs, his, hrs, hlines, hcolumns, hindexes, hroutes⟩

example : (columnLines sizeColumns).map String.ofList =
    [" größe   :bigint           not null", " id      :string           comment(häufig)"] := by decide

end Comment
end Marginalia
