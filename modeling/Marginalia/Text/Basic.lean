/-
# Texts

A text is the list of its characters. It is cut in two ways: into raw lines,
each with the newline that ends it (`rawLines`, from which the text is read
back by `List.flatten`), and at the first place where a given word stands
(`splitFirst?`). Offsets and columns count bytes of the UTF-8 form.

Key definitions: `rawLines`, `lines`, `splitFirst?`, `splitIndent`.
Key theorems: `rawLines_flatten`, `splitFirst?_eq`, `splitIndent_append`.
-/

namespace Marginalia

/-- A text: the list of its characters. -/
abbrev Text := List Char

namespace Text

/-- The number of bytes of the text in UTF-8. -/
def byteLength (t : Text) : Nat := t.foldr (fun c n => c.utf8Size + n) 0

/-- Drops the longest end of the list all of whose members satisfy `p`. -/
def dropEndWhile (p : α → Bool) (l : List α) : List α := (l.reverse.dropWhile p).reverse

/-- The longest end of the list all of whose members satisfy `p`. -/
def takeEndWhile (p : α → Bool) (l : List α) : List α := (l.reverse.takeWhile p).reverse

theorem dropEndWhile_append_takeEndWhile (p : α → Bool) (l : List α) :
    dropEndWhile p l ++ takeEndWhile p l = l := by
  simp only [dropEndWhile, takeEndWhile, ← List.reverse_append, List.takeWhile_append_dropWhile,
    List.reverse_reverse]

/-- The rest of the list after `pre`, if the list begins with `pre`. -/
def after? [DecidableEq α] : List α → List α → Option (List α)
  | [], l => some l
  | _ :: _, [] => none
  | p :: pre, a :: l => if p = a then after? pre l else none

theorem after?_eq [DecidableEq α] : ∀ {pre l rest : List α}, after? pre l = some rest → pre ++ rest = l
  | [], _, _, h => by simpa [after?] using h.symm
  | _ :: _, [], _, h => by simp [after?] at h
  | p :: pre, a :: l, rest, h => by
    simp only [after?] at h
    split at h
    · next e => simp [e, after?_eq h]
    · cases h

/-! ### Lines -/

/-- The lines of a text, each with the newline that ends it; only the last
one may lack a newline, and no line is empty. -/
def rawLines : Text → List Text
  | [] => []
  | c :: cs =>
    if c = '\n' then [c] :: rawLines cs
    else match rawLines cs with
      | [] => [[c]]
      | l :: ls => (c :: l) :: ls

theorem rawLines_flatten : ∀ t : Text, (rawLines t).flatten = t
  | [] => rfl
  | c :: cs => by
    have ih := rawLines_flatten cs
    simp only [rawLines]
    split
    · simp [ih]
    · cases h : rawLines cs with
      | nil => rw [h] at ih; simp [← ih]
      | cons l ls => rw [h] at ih; simpa using ih

/-- A raw line without its line end: a newline, and a carriage return before it. -/
def dropLineEnd (l : Text) : Text :=
  match l.reverse with
  | '\n' :: '\r' :: r => r.reverse
  | '\n' :: r => r.reverse
  | _ => l

/-- The lines of a text without their line ends. A carriage return belongs to
the line end only where a newline follows it. -/
def lines (t : Text) : List Text := (rawLines t).map dropLineEnd

/-- Lines put one below the other, with a newline between each two. -/
def joinLines (ls : List Text) : Text := ['\n'].intercalate ls

/-! ### Search -/

/-- The text before and after the first place where `word` stands. -/
def splitFirst? (word : Text) : Text → Option (Text × Text)
  | [] => if word = [] then some ([], []) else none
  | c :: cs =>
    match after? word (c :: cs) with
    | some rest => some ([], rest)
    | none => (splitFirst? word cs).map fun p => (c :: p.1, p.2)

theorem splitFirst?_eq (word : Text) : ∀ {t before rest : Text},
    splitFirst? word t = some (before, rest) → before ++ word ++ rest = t
  | [], before, rest, h => by
    simp only [splitFirst?] at h
    split at h
    · next e => cases h; simp [e]
    · cases h
  | c :: cs, before, rest, h => by
    simp only [splitFirst?] at h
    split at h
    · next e => cases h; simpa using after?_eq e
    · obtain ⟨⟨b, r⟩, hb, he⟩ := Option.map_eq_some_iff.1 h
      cases he
      simpa using splitFirst?_eq word hb

/-- The number of places where `word` stands. -/
def occurrences (word : Text) : Text → Nat
  | [] => if word = [] then 1 else 0
  | c :: cs => (if (after? word (c :: cs)).isSome then 1 else 0) + occurrences word cs

/-! ### Indentation -/

/-- A character that indents a line: a space or a tab. -/
def isIndent (c : Char) : Bool := c == ' ' || c == '\t'

/-- The spaces and tabs at the start of a text. -/
def indentOf (t : Text) : Text := t.takeWhile isIndent

/-- Cuts off the indentation of the line on which the text ends, if nothing
but indentation stands on that line; else nothing is cut off. -/
def splitIndent (t : Text) : Text × Text :=
  match dropEndWhile isIndent t, takeEndWhile isIndent t with
  | [], indent => ([], indent)
  | c :: cs, indent => if (c :: cs).getLast? = some '\n' then (c :: cs, indent) else (t, [])

theorem splitIndent_append (t : Text) : (splitIndent t).1 ++ (splitIndent t).2 = t := by
  have h := dropEndWhile_append_takeEndWhile isIndent t
  unfold splitIndent
  split
  · next e => rw [e] at h; exact h
  · next e =>
    split
    · rw [e] at h; exact h
    · simp

/-! ### Newlines at the two ends -/

/-- Whether the character is a newline. -/
def isNewline (c : Char) : Bool := c == '\n'

/-- The text without the newlines at its start. -/
def dropNewlines (t : Text) : Text := t.dropWhile isNewline

/-- The text without the newlines at its end. -/
def dropEndNewlines (t : Text) : Text := dropEndWhile isNewline t

/-- The number of newlines at the start of the text. -/
def leadingNewlines (t : Text) : Nat := (t.takeWhile isNewline).length

/-- The number of newlines at the end of the text. -/
def trailingNewlines (t : Text) : Nat := (takeEndWhile isNewline t).length

/-- Every run of three or more newlines is cut to two. -/
def foldBlankRuns (t : Text) : Text :=
  go 0 t
where
  /-- The rest of a text before which `run` newlines were kept. -/
  go (run : Nat) : Text → Text
    | [] => []
    | c :: cs =>
      if c = '\n' then
        if 2 ≤ run then go run cs else c :: go (run + 1) cs
      else c :: go 0 cs

end Text

end Marginalia
