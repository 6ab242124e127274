/-
# Classes asked for by their whole path

The path of a class is made of the names of the definitions around it and its
own, each as written. Of a name around it a declaration keeps the last part only. So the
path is the declaration's full name if all of these names are plain, that is, written as
one constant, and its qualified path if the names around are
(`NamedDefinition.fullName_eq_path_iff`, `NamedDefinition.qualifiedPath_eq_path_iff`): a last
part is never longer than what is written, so a compact name cannot be made up for elsewhere.
This and the order in which names are compared tell which classes a request under their path
lands on (`Ruby.resolve?_path`).

Key definitions: `NamedDefinition`, `NamedDefinition.path`, `DeclaredName.IsPlain`, `Ruby.classes`.
Key theorems: `joinScopes_last_eq_iff`, `Ruby.map_declaration_classes`, `Index.resolve?_eq_some_iff`,
`Ruby.resolve?_path`.
-/
import Marginalia.Proofs.Ruby.Ascending
import Marginalia.Proofs.Ruby.Spelling

namespace Marginalia

open Text

/-! ### Names joined -/

section

variable {α β : Type} {sep : List α} {f g : β → List α}

theorem subset_intercalate {x : List α} : ∀ {xs : List (List α)}, x ∈ xs → x ⊆ sep.intercalate xs
  | [a], h => by rw [List.mem_singleton.1 h, List.intercalate_singleton]; exact List.Subset.refl a
  | a :: b :: xs, h => by
    rw [List.intercalate_cons_cons]
    rcases List.mem_cons.1 h with rfl | h
    · exact fun c hc => List.mem_append_left _ (List.mem_append_left _ hc)
    · exact fun c hc => List.mem_append_right _ (subset_intercalate h hc)

theorem forall_mem_intercalate {P : α → Prop} (hs : ∀ c ∈ sep, P c) :
    ∀ {xs : List (List α)}, (∀ x ∈ xs, ∀ c ∈ x, P c) → ∀ c ∈ sep.intercalate xs, P c
  | [], _ => by simp
  | [a], h => by rw [List.intercalate_singleton]; exact h a (List.mem_singleton_self a)
  | a :: b :: xs, h => by
    obtain ⟨ha, hxs⟩ := List.forall_mem_cons.1 h
    rw [List.intercalate_cons_cons]
    exact List.forall_mem_append.2 ⟨List.forall_mem_append.2 ⟨ha, hs⟩, forall_mem_intercalate hs hxs⟩

theorem length_intercalate_map_le : ∀ {l : List β}, (∀ x ∈ l, (f x).length ≤ (g x).length) →
    (sep.intercalate (l.map f)).length ≤ (sep.intercalate (l.map g)).length
  | [], _ => Nat.le_refl _
  | [a], h => by simpa using h
  | a :: b :: l, h => by
    obtain ⟨ha, hl⟩ := List.forall_mem_cons.1 h
    have hrest := length_intercalate_map_le hl
    simp only [List.map_cons, List.intercalate_cons_cons, List.length_append] at hrest ⊢
    omega

/-- Pieces that lie in others and are joined to the same are these. -/
theorem eq_of_intercalate_map_eq : ∀ {l : List β}, (∀ x ∈ l, f x <:+: g x) →
    sep.intercalate (l.map f) = sep.intercalate (l.map g) → ∀ x ∈ l, f x = g x
  | [], _, _ => by simp
  | [a], _, he => by simpa using he
  | a :: b :: l, h, he => by
    obtain ⟨ha, hl⟩ := List.forall_mem_cons.1 h
    have hrest : (sep.intercalate ((b :: l).map f)).length ≤ (sep.intercalate ((b :: l).map g)).length :=
      length_intercalate_map_le fun x hx => (hl x hx).length_le
    have hle := ha.length_le
    simp only [List.map_cons, List.intercalate_cons_cons, List.append_assoc] at he hrest
    have hlen := congrArg List.length he
    simp only [List.length_append] at hlen
    have hfirst : f a = g a := ha.eq_of_length (by omega)
    rw [hfirst, List.append_cancel_left_eq, List.append_cancel_left_eq] at he
    exact List.forall_mem_cons.2 ⟨hfirst, eq_of_intercalate_map_eq hl he⟩

end

/-- The name is written as one constant. -/
def DeclaredName.IsPlain (n : DeclaredName) : Prop := n.last = n.written

instance (n : DeclaredName) : Decidable n.IsPlain := inferInstanceAs (Decidable (_ = _))

/-- The whole of what is written, as if it were the last part. -/
def DeclaredName.whole (n : DeclaredName) : DeclaredName := ⟨n.written, n.written⟩

theorem DeclaredName.Sound.whole {n : DeclaredName} (h : n.Sound) : n.whole.Sound := by
  refine ⟨h.solid, ?_⟩
  have hall : n.whole.last.toList.filter (!isBlank ·) = n.whole.last.toList :=
    List.filter_eq_self.2 fun c hc => by rw [h.solid c hc]; rfl
  rw [hall]
  exact List.infix_refl _

/-- Joined by their last parts names are what they are as written only if each of them is. -/
theorem joinScopes_last_eq_iff {ns : List DeclaredName} (h : ∀ n ∈ ns, n.Sound) :
    joinScopes (ns.map (·.last)) = joinScopes (ns.map (·.written)) ↔ ∀ n ∈ ns, n.IsPlain := by
  refine ⟨fun he => ?_, fun hp => congrArg joinScopes (List.map_congr_left hp)⟩
  have he : scopeMark.toList.intercalate (ns.map (·.last.toList)) =
      scopeMark.toList.intercalate (ns.map (·.written.toList)) := by
    have hlists := congrArg String.toList he
    rwa [joinScopes, joinScopes, String.toList_intercalate, String.toList_intercalate, List.map_map, List.map_map] at hlists
  have hsolid : ∀ c ∈ scopeMark.toList.intercalate (ns.map (·.written.toList)), isBlank c = false := by
    have hmark : ∀ c ∈ [':', ':'], isBlank c = false := by simp [isBlank]
    refine forall_mem_intercalate hmark fun x hx => ?_
    obtain ⟨n, hn, rfl⟩ := List.mem_map.1 hx
    exact (h n hn).solid
  -- no white space is left out of the last parts
  have hlast : ∀ n ∈ ns, n.last.toList <:+: n.written.toList := by
    intro n hn
    have hall : n.last.toList.filter (!isBlank ·) = n.last.toList := by
      refine List.filter_eq_self.2 fun c hc => ?_
      have hmem : c ∈ scopeMark.toList.intercalate (ns.map (·.last.toList)) :=
        subset_intercalate (List.mem_map_of_mem hn) hc
      rw [hsolid c (he ▸ hmem)]
      rfl
    exact hall ▸ (h n hn).holds_last
  exact fun n hn => String.toList_inj.1 (eq_of_intercalate_map_eq hlast he n hn)

/-! ### Definitions with the names around them -/

/-- A named definition with the names of the named definitions around it, outermost first. -/
structure NamedDefinition where
  /-- Class or module. -/
  kind : Declaration.Kind
  /-- The names around it. -/
  around : List DeclaredName
  /-- Its own name. -/
  name : DeclaredName
  /-- The place of its keyword. -/
  start : Place
  /-- The place past its end. -/
  stop : Place
deriving DecidableEq, Repr

namespace NamedDefinition

variable {x : NamedDefinition}

/-- What is listed of the definition. -/
def declaration (x : NamedDefinition) : Declaration :=
  .spanning x.kind x.name.last (x.around.map (·.last)) x.name.written x.start.line x.start.column x.stop.line

/-- The names around the definition and its own. -/
def names (x : NamedDefinition) : List DeclaredName := x.around ++ [x.name]

/-- The names around the definition and its own as they are written. -/
def path (x : NamedDefinition) : String := joinScopes (x.names.map (·.written))

theorem fullName_eq_path_iff (h : ∀ n ∈ x.names, n.Sound) :
    x.declaration.fullName = x.path ↔ ∀ n ∈ x.names, n.IsPlain := by
  have hname : x.declaration.fullName = joinScopes (x.names.map (·.last)) := by
    rw [names, List.map_append]
    rfl
  rw [hname]
  exact joinScopes_last_eq_iff h

theorem qualifiedPath_eq_path_iff (h : ∀ n ∈ x.names, n.Sound) :
    x.declaration.qualifiedPath = x.path ↔ ∀ n ∈ x.around, n.IsPlain := by
  -- the own name counts as plain
  let ns := x.around ++ [x.name.whole]
  obtain ⟨haround, hname⟩ := List.forall_mem_append.1 h
  have hsound : ∀ n ∈ ns, n.Sound :=
    List.forall_mem_append.2 ⟨haround, List.forall_mem_singleton.2 (List.forall_mem_singleton.1 hname).whole⟩
  have hpath : x.path = joinScopes (ns.map (·.written)) := by
    rw [path, names, List.map_append, List.map_append]
    rfl
  have hqualified : x.declaration.qualifiedPath = joinScopes (ns.map (·.last)) := by
    rw [List.map_append]
    rfl
  rw [hpath, hqualified, joinScopes_last_eq_iff hsound]
  exact ⟨fun hp => (List.forall_mem_append.1 hp).1, fun hp => List.forall_mem_append.2 ⟨hp, List.forall_mem_singleton.2 rfl⟩⟩

end NamedDefinition

namespace Outline

mutual

/-- The named definitions of an outline in document order, below the names `around`. -/
def definitionsIn (around : List DeclaredName) : Outline → List NamedDefinition
  | group _ _ parts => definitionsOf around parts
  | definition _ none _ _ parts => definitionsOf around parts
  | definition kind (some name) start stop parts =>
    ⟨kind, around, name, start, stop⟩ :: definitionsOf (around ++ [name]) parts

/-- The named definitions of outlines that stand side by side. -/
def definitionsOf (around : List DeclaredName) : List Outline → List NamedDefinition
  | [] => []
  | o :: os => definitionsIn around o ++ definitionsOf around os

end

mutual

theorem map_declaration_definitionsIn : ∀ (around : List DeclaredName) (o : Outline),
    (definitionsIn around o).map (·.declaration) = declarationsIn (around.map (·.last)) o
  | around, group _ _ parts => map_declaration_definitionsOf around parts
  | around, definition _ none _ _ parts => map_declaration_definitionsOf around parts
  | around, definition _ (some name) _ _ parts => by
    rw [definitionsIn, declarationsIn, List.map_cons, map_declaration_definitionsOf, List.map_append]
    rfl

theorem map_declaration_definitionsOf : ∀ (around : List DeclaredName) (os : List Outline),
    (definitionsOf around os).map (·.declaration) = declarationsOf (around.map (·.last)) os
  | _, [] => rfl
  | around, o :: os => by
    rw [definitionsOf, declarationsOf, List.map_append, map_declaration_definitionsIn, map_declaration_definitionsOf]

end

mutual

theorem sound_of_mem_definitionsIn : ∀ {around : List DeclaredName} {o : Outline} {x : NamedDefinition},
    (∀ n ∈ around, n.Sound) → o.Sound → x ∈ definitionsIn around o → ∀ n ∈ x.names, n.Sound
  | _, group _ _ _, _, ha, ho, hx => sound_of_mem_definitionsOf ha ho hx
  | _, definition _ none _ _ _, _, ha, ho, hx => sound_of_mem_definitionsOf ha ho.2 hx
  | around, definition _ (some name) _ _ _, x, ha, ho, hx => by
    have hnames : ∀ n ∈ around ++ [name], n.Sound :=
      List.forall_mem_append.2 ⟨ha, List.forall_mem_singleton.2 (ho.1 name rfl)⟩
    rcases List.mem_cons.1 hx with rfl | hx
    · exact hnames
    · exact sound_of_mem_definitionsOf hnames ho.2 hx

theorem sound_of_mem_definitionsOf : ∀ {around : List DeclaredName} {os : List Outline} {x : NamedDefinition},
    (∀ n ∈ around, n.Sound) → AllSound os → x ∈ definitionsOf around os → ∀ n ∈ x.names, n.Sound
  | _, _ :: _, _, ha, ho, hx => (List.mem_append.1 hx).elim (sound_of_mem_definitionsIn ha ho.1)
    (sound_of_mem_definitionsOf ha ho.2)

end

end Outline

namespace Ruby

/-- The classes of a source in document order. -/
def classes (t : Text) : List NamedDefinition := ((outline t).1.definitionsIn []).filter (·.kind == .klass)

theorem map_declaration_classes (t : Text) : (classes t).map (·.declaration) = (Index.ofSource t).classes := by
  show _ = (Outline.declarationsIn [] _).filter _
  rw [← List.map_nil, ← Outline.map_declaration_definitionsIn, List.filter_map]
  rfl

/-- No two classes are declared alike, as their keywords stand at different places. -/
theorem nodup_classes (t : Text) : (Index.ofSource t).classes.Nodup := by
  refine List.Pairwise.filter _ ((pairwise_declarations t).imp fun hab he => ?_)
  subst he
  simp only [Place.before] at hab
  omega

theorem sound_of_mem_classes {t : Text} {x : NamedDefinition} (h : x ∈ classes t) : ∀ n ∈ x.names, n.Sound :=
  Outline.sound_of_mem_definitionsIn (by simp) (sound_outline t) (List.mem_of_mem_filter h)

end Ruby

/-! ### What a request lands on -/

namespace Index

variable {i : Index} {above below : List Declaration} {d : Declaration} {query : String}

theorem find?_eq_some_iff {p : Declaration → Bool} (hn : i.classes.Nodup) (hc : i.classes = above ++ d :: below) :
    i.classes.find? p = some d ↔ p d ∧ ∀ e ∈ above, p e = false := by
  rw [List.find?_eq_some_iff_append]
  refine and_congr_right fun _ => ⟨?_, fun h => ⟨above, below, hc, by simpa using h⟩⟩
  rintro ⟨above', below', hc', habove⟩
  have hapart : d ∉ above ∧ d ∉ below := by
    rw [hc, List.nodup_append, List.nodup_cons] at hn
    exact ⟨fun hm => hn.2.2 d hm d List.mem_cons_self rfl, hn.2.1.1⟩
  obtain ⟨rfl, -, -⟩ := (List.append_cons_inj_of_notMem hapart.1 hapart.2).1 (hc.symm.trans hc')
  simpa using habove

/-- A request for a name of more than one part lands on the first class with this full name, or, if there is none,
on the first one with this qualified path. -/
theorem resolve?_eq_some_iff (hq : isQualified query) (hn : i.classes.Nodup) (hc : i.classes = above ++ d :: below) :
    i.resolve? query = some d ↔ (d.fullName = query ∧ ∀ e ∈ above, e.fullName ≠ query) ∨
      (∀ e ∈ i.classes, e.fullName ≠ query) ∧ d.qualifiedPath = query ∧ ∀ e ∈ above, e.qualifiedPath ≠ query := by
  rw [resolve?_of_isQualified hq, Option.or_eq_some_iff, find?_eq_some_iff hn hc, find?_eq_some_iff hn hc,
    List.find?_eq_none]
  simp only [beq_iff_eq, beq_eq_false_iff_ne, ne_eq]

end Index

namespace Ruby

variable {t : Text} {above below : List NamedDefinition} {x : NamedDefinition}

/-- Two classes of one last part in a module. -/
def blogText : Text :=
  "module Blog\n".toList ++ "  class Post; end\n".toList ++ "  class Admin::Post; end\n".toList ++ "end\n".toList

def blogPost : NamedDefinition := ⟨.klass, [⟨"Blog", "Blog"⟩], ⟨"Post", "Post"⟩, ⟨2, 2⟩, ⟨2, 17⟩⟩

def blogAdminPost : NamedDefinition := ⟨.klass, [⟨"Blog", "Blog"⟩], ⟨"Post", "Admin::Post"⟩, ⟨3, 2⟩, ⟨3, 24⟩⟩

/-- A class in a module whose name is compact. -/
def compactAround : Text :=
  "module Blog::Admin\n".toList ++ "  class Post; end\n".toList ++ "end\n".toList

/-- A compact name in front of a plain one with the same last part. -/
def compactBefore : Text :=
  "module Blog\n".toList ++ "  class Admin::Post; end\n".toList ++ "  class Post; end\n".toList ++ "end\n".toList

/-- A class that is declared under a compact name first and in its module later. -/
def compactFirst : Text :=
  "class Blog::Post; end\n".toList ++ "module Blog\n".toList ++ "  class Post; end\n".toList ++ "end\n".toList

/-- The source has no faults, and the first class with this path is not found under it. What is found instead
is on the line given, or nothing is. -/
def PassedOver (t : Text) (path : String) (line? : Option Nat) : Prop :=
  (outline t).2 = false ∧ isQualified path ∧
    ∃ x ∈ classes t, (classes t).find? (·.path == path) = some x ∧
      (Index.ofSource t).resolve? path ≠ some x.declaration ∧ ((Index.ofSource t).resolve? path).map (·.line) = line?

end Ruby
end Marginalia
