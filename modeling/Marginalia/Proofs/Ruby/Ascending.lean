/-
# Where definitions begin

The keywords of the named definitions of a source stand one behind the other,
in the order in which the definitions are declared. While a source is read, the keywords met so
far stand so in the open stretches and what was closed inside them, outermost first, and
all of them above what is still to be read (`Ruby.Reader.Ascends`). A move of the
reader lets the places as they are or drops some, but for the keyword that opens a
definition, which stands behind all others.

Key definitions: `Outline.keywordPlaces`, `Ruby.Frame.keywordPlaces`, `Ruby.Reader.Ascends`.
Key theorems: `Ruby.Reader.Reaches.ascends`, `Ruby.pairwise_declarations`.
-/
import Marginalia.Proofs.Ruby.Moving
import Marginalia.Proofs.Ruby.Nesting

namespace Marginalia

theorem Place.atMost_refl (p : Place) : p.atMost p := by simp [Place.atMost_iff]

namespace Outline

mutual

/-- Where the keywords of the named definitions stand, in document order. -/
def keywordPlaces : Outline → List Place
  | group _ _ parts => keywordPlacesOf parts
  | definition _ none _ _ parts => keywordPlacesOf parts
  | definition _ (some _) start _ parts => start :: keywordPlacesOf parts

/-- Where the keywords of the named definitions stand in outlines side by side. -/
def keywordPlacesOf : List Outline → List Place
  | [] => []
  | o :: os => keywordPlaces o ++ keywordPlacesOf os

end

mutual

theorem map_place_declarationsIn : ∀ (scopes : List String) (o : Outline),
    (declarationsIn scopes o).map (·.place) = keywordPlaces o
  | scopes, group _ _ parts => map_place_declarationsOf scopes parts
  | scopes, definition _ none _ _ parts => map_place_declarationsOf scopes parts
  | scopes, definition _ (some name) start _ parts =>
    congrArg (start :: ·) (map_place_declarationsOf (scopes ++ [name.last]) parts)

theorem map_place_declarationsOf : ∀ (scopes : List String) (os : List Outline),
    (declarationsOf scopes os).map (·.place) = keywordPlacesOf os
  | _, [] => rfl
  | scopes, o :: os => by
    rw [declarationsOf, keywordPlacesOf, List.map_append, map_place_declarationsIn, map_place_declarationsOf]

end

theorem keywordPlacesOf_append : ∀ (os os' : List Outline),
    keywordPlacesOf (os ++ os') = keywordPlacesOf os ++ keywordPlacesOf os'
  | [], _ => rfl
  | o :: os, os' => by
    rw [List.cons_append, keywordPlacesOf, keywordPlacesOf, keywordPlacesOf_append os os', List.append_assoc]

end Outline

namespace Ruby

open Outline (keywordPlacesOf keywordPlacesOf_append)

/-- Where the keywords of the definitions stand that a stretch is or holds. -/
def Frame.keywordPlaces (f : Frame) : List Place :=
  (if f.opening.isDefinition then [f.start] else []) ++ keywordPlacesOf f.parts.reverse

/-- A definition without a name is dropped when it is closed. -/
theorem Frame.keywordPlaces_outline (f : Frame) (stop : Place) : (f.outline stop).keywordPlaces.Sublist f.keywordPlaces := by
  obtain ⟨opening, start, parts⟩ := f
  cases opening with
  | definition kind phase written name =>
    cases name with
    | none => exact List.sublist_append_right _ _
    | some name => exact List.Sublist.refl _
  | _ => exact List.sublist_append_right _ _

/-- Where the keywords of all open stretches stand. -/
def keywordPlacesIn : List Frame → List Place
  | [] => []
  | f :: fs => keywordPlacesIn fs ++ f.keywordPlaces

namespace Reader

variable {r s : Reader}

/-- The keywords of definitions stand one behind the other, and above what is still to be read. -/
structure Ascends (r : Reader) : Prop where
  /-- One behind the other. -/
  pairwise : (keywordPlacesIn r.frames).Pairwise Place.before
  /-- What is still to be read is behind them. -/
  before_place : ∀ p ∈ keywordPlacesIn r.frames, p.before r.place

theorem Ascends.of_sublist (h : r.Ascends) (hs : (keywordPlacesIn s.frames).Sublist (keywordPlacesIn r.frames))
    (hp : s.place = r.place) : s.Ascends where
  pairwise := h.pairwise.sublist hs
  before_place p hm := hp ▸ h.before_place p (hs.subset hm)

theorem before_next (h : r.rest ≠ []) : r.place.before r.next.place := by
  unfold next
  split
  · next hr => exact absurd hr h
  · next c rest _ =>
    have hsize : 0 < c.utf8Size := c.utf8Size_pos
    dsimp only
    split
    · exact .inl (Nat.lt_succ_self _)
    · exact .inr ⟨rfl, Nat.lt_add_of_pos_right hsize⟩

theorem atMost_next (r : Reader) : r.place.atMost r.next.place := by
  by_cases hr : r.rest = []
  · rw [next, hr]
    exact r.place.atMost_refl
  · exact (before_next hr).atMost

theorem atMost_skip : ∀ (n : Nat) (r : Reader), r.place.atMost (r.skip n).place
  | 0, r => r.place.atMost_refl
  | n + 1, r => (atMost_next r).trans (atMost_skip n r.next)

theorem Ascends.skip (h : r.Ascends) (n : Nat) : (r.skip n).Ascends := by
  constructor
  · rw [frames_skip]
    exact h.pairwise
  · intro p hm
    rw [frames_skip] at hm
    exact (h.before_place p hm).trans_atMost (atMost_skip n r)

/-- A definition that is open may become anything, what is none stays none. -/
theorem sublist_setOpening {o : Opening} (ho : o.isDefinition → r.opening.isDefinition) :
    (keywordPlacesIn (r.setOpening o).frames).Sublist (keywordPlacesIn r.frames) := by
  unfold setOpening
  unfold opening at ho
  split
  · next f fs hf =>
    rw [hf] at ho ⊢
    refine List.Sublist.append_left (List.Sublist.append_right ?_ _) _
    dsimp only at ho ⊢
    split
    · next hd => exact (if_pos (ho hd)) ▸ List.Sublist.refl _
    · exact List.nil_sublist _
  · exact List.Sublist.refl _

theorem sublist_pop (r : Reader) (p : Place) :
    (keywordPlacesIn (r.pop p).frames).Sublist (keywordPlacesIn r.frames) := by
  unfold pop
  split
  · next f g fs hf =>
    rw [hf, keywordPlacesIn, keywordPlacesIn, keywordPlacesIn, List.append_assoc]
    refine List.Sublist.append_left ?_ _
    rw [Frame.keywordPlaces, Frame.keywordPlaces, List.reverse_cons, keywordPlacesOf_append, ← List.append_assoc]
    refine List.Sublist.append_left ?_ _
    rw [keywordPlacesOf, keywordPlacesOf, List.append_nil]
    exact f.keywordPlaces_outline p
  · exact List.Sublist.refl _

theorem sublist_dissolve (r : Reader) :
    (keywordPlacesIn r.dissolve.frames).Sublist (keywordPlacesIn r.frames) := by
  unfold dissolve
  split
  · next f g fs hf =>
    rw [hf, keywordPlacesIn, keywordPlacesIn, keywordPlacesIn, List.append_assoc]
    refine List.Sublist.append_left ?_ _
    rw [Frame.keywordPlaces, Frame.keywordPlaces, List.reverse_append, keywordPlacesOf_append, ← List.append_assoc]
    exact List.Sublist.append_left (List.sublist_append_right _ _) _
  · exact List.Sublist.refl _

theorem sublist_follow (r : Reader) (part : NamePart) :
    (keywordPlacesIn (r.follow part).frames).Sublist (keywordPlacesIn r.frames) := by
  unfold follow
  split
  · next kind phase written name ho =>
    have hset (o : Opening) : (keywordPlacesIn (r.setOpening o).frames).Sublist (keywordPlacesIn r.frames) :=
      sublist_setOpening fun _ => by rw [ho]; rfl
    have hdrop := sublist_dissolve r
    have hkeep := List.Sublist.refl (keywordPlacesIn r.frames)
    dsimp only
    (repeat' split) <;> first | exact hset _ | exact hdrop | exact hkeep
  · exact List.Sublist.refl _

theorem sublist_endHead (r : Reader) :
    (keywordPlacesIn r.endHead.frames).Sublist (keywordPlacesIn r.frames) := by
  unfold endHead
  split
  · exact List.Sublist.refl _
  · exact sublist_setOpening fun h => by cases h
  · exact List.Sublist.refl _

theorem Ascends.setOpening {o : Opening} (h : r.Ascends) (ho : o.isDefinition → r.opening.isDefinition) :
    (r.setOpening o).Ascends := h.of_sublist (sublist_setOpening ho) (place_setOpening r o)

theorem Ascends.follow (h : r.Ascends) (part : NamePart) : (r.follow part).Ascends :=
  h.of_sublist (sublist_follow r part) (place_follow r part)

theorem Ascends.push {o : Opening} (h : r.Ascends) (ho : o.isDefinition = false) (p : Place) : (r.push o p).Ascends := by
  have hplaces : keywordPlacesIn (r.push o p).frames = keywordPlacesIn r.frames := by
    rw [Reader.push, keywordPlacesIn, Frame.keywordPlaces, ho]
    exact List.append_nil _
  exact h.of_sublist (hplaces ▸ List.Sublist.refl _) rfl

theorem Ascends.pop (h : r.Ascends) (p : Place) : (r.pop p).Ascends := by
  refine h.of_sublist (sublist_pop r p) ?_
  unfold Reader.pop
  split <;> rfl

/-- The keyword of a definition stands behind all others. -/
theorem Ascends.define {name : Text} (h : r.Ascends) (hn : name <+: r.rest) (h0 : name ≠ []) (kind : Declaration.Kind)
    (d : Due) : (((r.skip name.length).token d).push (.definition kind .due [] none) r.place).Ascends := by
  have hbehind : r.place.before (r.skip name.length).place := by
    obtain ⟨n, hlen⟩ := Nat.exists_eq_succ_of_ne_zero (mt List.length_eq_zero_iff.1 h0)
    have hrest : r.rest ≠ [] := fun he => h0 (List.prefix_nil.1 (he ▸ hn))
    rw [hlen]
    exact (before_next hrest).trans_atMost (atMost_skip n r.next)
  have hplaces : keywordPlacesIn (((r.skip name.length).token d).push (.definition kind .due [] none) r.place).frames =
      keywordPlacesIn r.frames ++ [r.place] := by
    show keywordPlacesIn (r.skip name.length).frames ++ [r.place] = _
    rw [frames_skip]
  constructor
  · rw [hplaces]
    exact List.pairwise_append.2 ⟨h.pairwise, List.pairwise_singleton _ _, by simpa using h.before_place⟩
  · intro p hm
    rw [hplaces, List.mem_append, List.mem_singleton] at hm
    rcases hm with hm | rfl
    · exact (h.before_place p hm).trans_atMost hbehind.atMost
    · exact hbehind

theorem Ascends.plainName (h : r.Ascends) (name : Text) : (r.plainName name).Ascends := by
  have hmeet : (r.meet (if isConstant name then .constant name else .operand)).Ascends :=
    (h.follow _).of_sublist (sublist_endHead _) (place_endHead _)
  refine Ascends.of_sublist (Ascends.skip ?_ name.length) (List.Sublist.refl _) rfl
  exact hmeet.of_sublist (List.Sublist.refl _) rfl

/-- No move brings a keyword out of order. -/
theorem Reaches.ascends (h : Reaches s r) (hs : s.Ascends) : r.Ascends := by
  induction h with
  | refl => exact hs
  | note _ _ _ _ _ _ _ _ ih => exact ih.of_sublist (List.Sublist.refl _) rfl
  | next _ ih => exact ih.skip 1
  | token _ d ih => exact ih.of_sublist (List.Sublist.refl _) rfl
  | setOpening _ ho ih => exact ih.setOpening fun h => absurd h (by simp [ho])
  | push _ ho p ih => exact ih.push ho p
  | pop _ p ih => exact ih.pop p
  | dissolve _ ih => exact ih.of_sublist (sublist_dissolve _) (place_dissolve _)
  | define _ hn h0 kind d ih => exact ih.define hn h0 kind d
  | follow _ _ ih => exact ih.follow _
  | constant _ _ _ ih => exact ih.plainName _
  | unname _ ho _ ih => exact ih.setOpening fun _ => by rw [ho]; rfl

theorem ascends_start (t : Text) : (start t).Ascends := ⟨.nil, by simp [start, keywordPlacesIn, Frame.keywordPlaces,
  Opening.isDefinition, keywordPlacesOf]⟩

end Reader

theorem sublist_keywordPlacesIn_of_getLast? : ∀ {fs : List Frame} {f : Frame}, fs.getLast? = some f →
    f.keywordPlaces.Sublist (keywordPlacesIn fs)
  | [f], _, rfl => List.Sublist.refl _
  | f :: g :: fs, h, hf => by
    rw [List.getLast?_cons_cons] at hf
    exact (sublist_keywordPlacesIn_of_getLast? hf).trans (List.sublist_append_left _ _)

/-- **Definitions are declared in the order of their keywords.** In the outline of a source the keyword of each
declaration stands behind those of the declarations before it. -/
theorem pairwise_declarations (t : Text) :
    (outline t).1.declarations.Pairwise fun a b => a.place.before b.place := by
  obtain ⟨r, hr, he⟩ := exists_reaches_outline t
  have h : r.Ascends := hr.ascends (Reader.ascends_start t)
  rw [← List.pairwise_map (f := Declaration.place), Outline.declarations, Outline.map_place_declarationsIn, he]
  cases hf : r.frames.getLast? with
  | none => exact .nil
  | some f =>
    exact h.pairwise.sublist ((f.keywordPlaces_outline r.place).trans (sublist_keywordPlacesIn_of_getLast? hf))

end Ruby
end Marginalia
