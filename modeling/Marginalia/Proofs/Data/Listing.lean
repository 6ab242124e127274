/-
# Records by lines read back

A record of texts, truth values and lists of texts is written with a field, or an item of a list, on each line
or block of lines. The reader goes from the start of one such line to the start of the next
(`Yaml.node?_scalar`, `Yaml.blockItems?_texts`, `Yaml.blockFields?_fields`), and what it gives back is the
record, with its keys and the plain ones of its texts as unquoted words (`Yaml.read?_print`).

Key definitions: `Yaml.Slot`, `Yaml.lineStart`, `Yaml.StartsField`.
Key theorems: `Yaml.node?_scalar`, `Yaml.blockItems?_texts`, `Yaml.blockFields?_fields`, `Yaml.read?_print`.
-/
import Marginalia.Proofs.Data.Chomping
import Marginalia.Proofs.Data.Quoting

namespace Marginalia
namespace Yaml

/-! ### From token to token -/

/-- The start of a line. -/
def lineStart (anchors : List (Text × Value)) (u : Text) : Cursor := { rest := u, anchors := anchors }

section LineStart

variable (anchors : List (Text × Value)) (u : Text)

@[simp] theorem lineStart_rest : (lineStart anchors u).rest = u := rfl

@[simp] theorem lineStart_column : (lineStart anchors u).column = 0 := rfl

@[simp] theorem lineStart_fresh : (lineStart anchors u).fresh = true := rfl

end LineStart

namespace Cursor

variable {c : Cursor} {token u : Text}

/-- A token on one line. -/
theorem past_of_not_mem (hc : c.rest = token ++ u) (h : '\n' ∉ token) :
    c.past u = { c with column := c.column + token.length, fresh := false, rest := u } := by
  have htoken : c.rest.take (c.rest.length - u.length) = token := by
    rw [hc, List.length_append, Nat.add_sub_cancel, List.take_left]
  have hline : Text.takeEndWhile (· != '\n') token = token := by
    refine (Text.dropEndWhile_append (a := []) (fun d hd => ?_) fun d hd => by cases hd).2
    rw [bne_iff_ne]
    rintro rfl
    exact h hd
  simp only [past, htoken, hline, Nat.lt_irrefl, if_false]

@[simp] theorem past_rest (c : Cursor) (u : Text) : (c.past u).rest = u := rfl

/-- Past a line end the columns are counted anew. -/
theorem past_newline (hc : c.rest = '\n' :: u) : (c.past u).column = 0 := by
  simp only [past, hc, List.length_cons, Nat.add_sub_cancel_left]
  rfl

theorem next_of_startsToken (h : StartsToken c.rest) : c.next = c := by
  unfold next
  cases hc : c.rest with
  | nil => rfl
  | cons d u =>
    obtain ⟨hw, hblank, hn, hhash⟩ := h d (by rw [hc, List.head?_cons])
    have htab : d ≠ '\t' := by
      rintro rfl
      exact absurd hw (by decide)
    rw [List.length_cons, toToken]
    split
    case h_5 => rfl
    all_goals
      next hr =>
        rw [hc] at hr
        obtain ⟨rfl, -⟩ := List.cons.inj hr
        contradiction

theorem next_blank (hc : c.rest = ' ' :: u) (hu : StartsToken u) :
    c.next = { c with column := c.column + 1, rest := u } := by
  have h := next_of_startsToken (c := { c with column := c.column + 1, rest := u }) hu
  rw [next, hc, List.length_cons, toToken, hc]
  exact h

/-- The line below. -/
theorem next_newline (hc : c.rest = '\n' :: u) (hu : StartsToken u) : c.next = lineStart c.anchors u := by
  have h := next_of_startsToken (c := lineStart c.anchors u) hu
  rw [next, hc, List.length_cons, toToken, hc]
  exact h

theorem isAtEnd_of_ne_zero (hc : c.column ≠ 0) (hr : c.rest ≠ []) : c.isAtEnd = false := by
  simp [isAtEnd, isAtMark, hc, hr]

end Cursor

theorem StartsToken.takeWhile_eq_nil {u : Text} (hu : StartsToken u) :
    u.takeWhile (fun d => isBlank d || d == '\n') = [] := by
  cases u with
  | nil => rfl
  | cons d u =>
    obtain ⟨hw, hblank, hn, -⟩ := hu d rfl
    exact List.takeWhile_cons_of_neg (by simp [IsPlain.isBlank_iff hw, hblank, hn])

/-! ### Scalars -/

section Scalars

variable {s : Text} {u : Text} {c : Cursor}

theorem quoted?_eq_none {d : Char} {r : Text} (hc : c.rest = d :: r) (hd : isIndicator d = false) : quoted? c = none := by
  unfold quoted?
  rw [hc]
  split
  case h_3 => rfl
  all_goals
    next hr =>
      obtain ⟨rfl, -⟩ := List.cons.inj hr
      exact absurd hd (by decide)

theorem quoted?_plain (h : IsPlain s) (hc : c.rest = s ++ u) : quoted? c = none := by
  obtain ⟨d, ds, rfl, -, -, hi, -⟩ := h.exists_cons
  exact quoted?_eq_none hc hi

/-- A plain text ends with its line, since the next one is not indented. -/
theorem plain?_plain (h : IsPlain s) {least : Nat} (hl : 0 < least) (hu : StartsToken u) (hc : c.rest = s ++ '\n' :: u) :
    plain? false least c = some (.bare (String.ofList s), c.past ('\n' :: u)) := by
  have hchunk : plainChunk false c.rest = s := by rw [hc, h.plainChunk_append (stops_newline u)]
  have hdrop : c.rest.drop s.length = '\n' :: u := by rw [hc, List.drop_left]
  have hlines (fuel : Nat) : plainLines false least fuel s (c.past ('\n' :: u)) = (s, c.past ('\n' :: u)) := by
    cases fuel with
    | zero => rfl
    | succ fuel =>
      have hcolumn : ((c.past ('\n' :: u)).past u).column = 0 := Cursor.past_newline rfl
      have hgap : u.takeWhile (fun d => isBlank d || d == '\n') = [] := hu.takeWhile_eq_nil
      have hblanks : ('\n' :: u).takeWhile isBlank = [] := rfl
      rw [plainLines]
      simp [hblanks, hgap, hcolumn, hl]
  have hstarts : startsPlain false c.rest = true := by rw [hc, h.startsPlain_append]
  simp only [plain?, hchunk, hdrop, hlines, hstarts, if_true]

theorem quoted?_single (h : '\n' ∉ s) (hc : c.rest = '\x27' :: s.flatMap singleChar ++ ['\x27'] ++ '\n' :: u) :
    quoted? c = some (.str (String.ofList s), c.past ('\n' :: u)) := by
  obtain ⟨qs, hqs, hread⟩ := singleQuoted?_spells h (u := '\n' :: u) (by simp)
  rw [List.append_assoc, List.cons_append, List.singleton_append] at hc
  rw [quoted?, hc]
  simp only [hread, Option.map_some, foldGaps_spells hqs, List.nil_append]

theorem quoted?_double (hc : c.rest = '"' :: s.flatMap escaped ++ ['"'] ++ '\n' :: u) :
    quoted? c = some (.str (String.ofList s), c.past ('\n' :: u)) := by
  have hlength : s.length < (s.flatMap escaped ++ '"' :: '\n' :: u).length := by
    have := length_le_flatMap_escaped s
    rw [List.length_append, List.length_cons]
    omega
  obtain ⟨qs, hqs, hread⟩ := doubleQuoted?_spells hlength ('\n' :: u)
  rw [List.append_assoc, List.cons_append, List.singleton_append] at hc
  rw [quoted?, hc]
  simp only [hread, Option.map_some, foldGaps_spells hqs, List.nil_append]

/-- The signs that tell another node than a scalar on one line. -/
def opensNode (d : Char) : Bool := ['&', '!', '*', '|', '>', '[', '\x7b'].contains d

theorem opensNode_eq_false {d : Char} (hd : isIndicator d = false) : opensNode d = false := by
  have hall : ∀ e ∈ ['&', '!', '*', '|', '>', '[', '\x7b'], isIndicator e = true := List.all_eq_true.1 rfl
  rw [Bool.eq_false_iff]
  intro h
  rw [hall d (List.contains_iff_mem.1 h)] at hd
  cases hd

theorem node?_token {fuel least : Nat} {entries : Bool} {d : Char} {r : Text} (hc : c.rest = d :: r)
    (hd : opensNode d = false) (hitem : c.isAtItem = false) (hkey : key? c = none) :
    node? (fuel + 1) least entries c = (quoted? c).orElse fun _ => plain? false least c := by
  rw [node?]
  split
  case h_8 => simp [hitem, hkey]
  all_goals
    next hr =>
      rw [hc] at hr
      obtain ⟨rfl, -⟩ := List.cons.inj hr
      exact absurd hd (by decide)

theorem key?_of_quoted {k : Value} (hq : quoted? c = some (k, c.past ('\n' :: u))) : key? c = none := by
  rw [key?, hq]
  simp [show ('\n' :: u).dropWhile isBlank = '\n' :: u from rfl]

theorem key?_of_plain (h : IsPlain s) (hc : c.rest = s ++ '\n' :: u) : key? c = none := by
  have hchunk : plainChunk false c.rest = s := by rw [hc, h.plainChunk_append (stops_newline u)]
  have hdrop : c.rest.drop s.length = '\n' :: u := by rw [hc, List.drop_left]
  have hstarts : startsPlain false c.rest = true := by rw [hc, h.startsPlain_append]
  rw [key?, quoted?_plain h hc]
  simp [hstarts, hchunk, hdrop, show ('\n' :: u).dropWhile isBlank = '\n' :: u from rfl]

theorem isAtItem_of_ne {d : Char} {r : Text} (hc : c.rest = d :: r) (hd : d ≠ '-') : c.isAtItem = false := by
  unfold Cursor.isAtItem
  rw [hc]
  split
  · next hr => exact absurd (List.cons.inj hr).1 hd
  · rfl

theorem isAtItem_plain (h : IsPlain s) (hc : c.rest = s ++ u) : c.isAtItem = false := by
  obtain ⟨d, ds, rfl, -, -, -, hend⟩ := h.exists_cons
  unfold Cursor.isAtItem
  rw [hc]
  split
  · next hr =>
    obtain ⟨rfl, rfl⟩ := List.cons.inj hr
    exact hend (.inr (.inr rfl)) u
  · rfl

theorem node?_plain {fuel : Nat} {entries : Bool} (h : IsPlain s) (hc : c.rest = s ++ '\n' :: u) (hu : StartsToken u) :
    node? (fuel + 1) 1 entries c = some (.bare (String.ofList s), c.past ('\n' :: u)) := by
  obtain ⟨d, ds, hs, -, -, hi, -⟩ := h.exists_cons
  rw [node?_token (r := ds ++ '\n' :: u) (by rw [hc, hs]; rfl) (opensNode_eq_false hi) (isAtItem_plain h hc)
    (key?_of_plain h hc), quoted?_plain h hc, Option.orElse_none, plain?_plain h Nat.one_pos hu hc]

theorem node?_quoted {fuel least : Nat} {entries : Bool} {d : Char} {r : Text} {v : Value} (hc : c.rest = d :: r)
    (hd : d = '\x27' ∨ d = '"') (hq : quoted? c = some (v, c.past ('\n' :: u))) :
    node? (fuel + 1) least entries c = some (v, c.past ('\n' :: u)) := by
  have hopen : opensNode d = false ∧ d ≠ '-' := by rcases hd with rfl | rfl <;> decide
  rw [node?_token hc hopen.1 (isAtItem_of_ne hc hopen.2) (key?_of_quoted hq), hq, Option.orElse_some]

theorem node?_block {fuel least : Nat} {entries : Bool} {r : Text} (hc : c.rest = '|' :: r) :
    node? (fuel + 1) least entries c = block? false least c := by
  rw [node?]
  simp [hc]

end Scalars

/-- The value that is read for a text: an unquoted word where the text is written as it is. -/
def opened (s : String) : Value := if formOf s = .plain then .bare s else .str s

theorem opened_of_ne {s : String} (h : formOf s ≠ .plain) : opened s = .str s := if_neg h

/-- A text is read from its written form, up to the end of its last line. -/
theorem node?_scalar (s : String) {c : Cursor} {u : Text} (hc : c.rest = scalar 2 s ++ '\n' :: u) (hu : StartsToken u)
    (fuel : Nat) (entries : Bool) :
    ∃ d, node? (fuel + 1) 1 entries c = some (opened s, d) ∧ d.next = lineStart c.anchors u := by
  have hnext : (c.past ('\n' :: u)).next = lineStart c.anchors u := Cursor.next_newline rfl hu
  have hfits := fits_formOf s
  cases hform : formOf s with
  | plain =>
    have h := isPlain_of_formOf hform
    simp only [scalar, hform] at hc
    exact ⟨_, by rw [node?_plain h hc hu, opened, if_pos hform, String.ofList_toList], hnext⟩
  | single =>
    rw [hform] at hfits
    simp only [scalar, hform] at hc
    have hq := quoted?_single (s := s.toList) hfits.1 hc
    refine ⟨c.past ('\n' :: u), ?_, hnext⟩
    rw [node?_quoted hc (by decide) hq, opened_of_ne (by simp [hform]), String.ofList_toList]
  | double =>
    simp only [scalar, hform] at hc
    have hq := quoted?_double (s := s.toList) hc
    refine ⟨c.past ('\n' :: u), ?_, hnext⟩
    rw [node?_quoted hc (by decide) hq, opened_of_ne (by simp [hform]), String.ofList_toList]
  | block =>
    rw [hform] at hfits
    obtain ⟨hn, hb⟩ := hfits
    rw [canBeBlock, Bool.and_eq_true] at hb
    have hr : '\r' ∉ s.toList := fun h => absurd (isWritable_of_isRegular hb.1 _ h) (by decide)
    simp only [scalar, hform] at hc
    have hread := block?_blockOf (List.ne_nil_of_mem hn) hr hu hc
    refine ⟨lineStart c.anchors u, ?_, Cursor.next_of_startsToken hu⟩
    rw [String.ofList_toList] at hread
    rw [node?_block (hc.trans (by rw [blockOf_eq])), hread, opened_of_ne (by simp [hform])]
    rfl

theorem isWritable_scalar (s : String) : ∀ c ∈ scalar 2 s, isWritable c = true := by
  have hfits := fits_formOf s
  have hquotes (d : Char) (hd : isWritable d = true) {t : Text} (ht : ∀ c ∈ t, isWritable c = true) :
      ∀ c ∈ d :: t ++ [d], isWritable c = true := by
    rw [List.forall_mem_append, List.forall_mem_cons, List.forall_mem_singleton]
    exact ⟨⟨hd, ht⟩, hd⟩
  unfold scalar
  cases hform : formOf s with
  | plain => exact (isPlain_of_formOf hform).writable
  | single =>
    rw [hform] at hfits
    obtain ⟨-, hs⟩ := hfits
    rw [canBeSingle, Bool.and_eq_true] at hs
    refine hquotes _ (by decide) fun c hc => ?_
    obtain ⟨d, hd, hc⟩ := List.mem_flatMap.1 hc
    exact isWritable_singleChar (isWritable_of_isRegular hs.1 d hd) c hc
  | double =>
    refine hquotes _ (by decide) fun c hc => ?_
    obtain ⟨d, -, hc⟩ := List.mem_flatMap.1 hc
    exact isWritable_escaped d c hc
  | block =>
    rw [hform] at hfits
    obtain ⟨-, hb⟩ := hfits
    rw [canBeBlock, Bool.and_eq_true] at hb
    exact isWritable_blockOf (isWritable_of_isRegular hb.1)

theorem startsToken_of_plain {s : Text} (h : IsPlain s) (u : Text) : StartsToken (s ++ u) := by
  obtain ⟨d, ds, rfl, hb, hn, hi, -⟩ := h.exists_cons
  rintro c ⟨⟩
  refine ⟨h.writable d List.mem_cons_self, ?_, hn, ?_⟩
  · rintro rfl
    cases hb
  · rintro rfl
    cases hi

/-- A written text begins with a token. -/
theorem startsToken_scalar (s : String) (u : Text) : StartsToken (scalar 2 s ++ u) := by
  unfold scalar
  cases hform : formOf s with
  | plain => exact startsToken_of_plain (isPlain_of_formOf hform) u
  | single | double | block =>
    rintro c ⟨⟩
    decide

theorem scalar_append_ne_nil (s : String) {u : Text} (hu : u ≠ []) : scalar 2 s ++ u ≠ [] := by simp [hu]

/-! ### Items -/

/-- The next line is the start of a field, if there is one. -/
def StartsField (u : Text) : Prop := u = [] ∨ ∃ k v, IsPlain k ∧ u = k ++ ':' :: v

namespace StartsField

variable {u : Text} (h : StartsField u) (anchors : List (Text × Value))
include h

theorem startsToken : StartsToken u := by
  rcases h with rfl | ⟨k, v, hk, rfl⟩
  · rintro c ⟨⟩
  · exact startsToken_of_plain hk _

theorem isAtItem : (lineStart anchors u).isAtItem = false := by
  rcases h with rfl | ⟨k, v, hk, rfl⟩
  · rfl
  · exact isAtItem_plain hk rfl

/-- A field is no line of a directive. -/
theorem ne_cons (r : Text) : u ≠ '%' :: r := by
  rcases h with rfl | ⟨k, v, hk, rfl⟩
  · exact (List.cons_ne_nil _ _).symm
  · obtain ⟨d, ds, rfl, -, -, hi, -⟩ := hk.exists_cons
    intro he
    obtain ⟨rfl, -⟩ := List.cons.inj he
    cases hi

theorem isAtMark {m : String} (hm : m ∈ ["---", "..."]) : (lineStart anchors u).isAtMark m = false := by
  rcases h with rfl | ⟨k, v, hk, rfl⟩
  · rcases List.mem_pair.1 hm with rfl | rfl <;> rfl
  · simp [Cursor.isAtMark, lineStart, hk.after?_eq_none hm]

/-- The document ends only where the text does. -/
theorem isAtEnd : (lineStart anchors u).isAtEnd = u.isEmpty := by
  rw [Cursor.isAtEnd, h.isAtMark anchors (by simp), h.isAtMark anchors (by simp), Bool.or_false, Bool.or_false]
  rfl

end StartsField

/-- The texts of a list, each on a line or block of lines. -/
def itemLines (ss : List String) : Text := ss.flatMap fun s => '-' :: ' ' :: scalar 2 s ++ ['\n']

theorem itemLines_cons (s : String) (ss : List String) :
    itemLines (s :: ss) = '-' :: ' ' :: (scalar 2 s ++ '\n' :: itemLines ss) := by
  simp [itemLines]

theorem itemsAt_strs (first : Bool) (ss : List String) : itemsAt 0 first (ss.map .str) = itemLines ss := by
  induction ss generalizing first with
  | nil => cases first <;> rfl
  | cons s ss ih =>
    cases first <;> simp [itemsAt, itemAt, inline, ih, itemLines]

theorem startsToken_itemLines {u : Text} (hu : StartsField u) (ss : List String) : StartsToken (itemLines ss ++ u) := by
  cases ss with
  | nil => exact hu.startsToken
  | cons s ss =>
    rw [itemLines_cons]
    rintro c ⟨⟩
    decide

/-- The value of an item stands in the third column. -/
theorem next_item (anchors : List (Text × Value)) {u : Text} (hu : StartsToken u) :
    ((lineStart anchors ('-' :: ' ' :: u)).past (' ' :: u)).next = ⟨2, false, u, anchors⟩ := by
  have hrest : (lineStart anchors ('-' :: ' ' :: u)).rest = ['-'] ++ ' ' :: u := rfl
  rw [Cursor.past_of_not_mem hrest (by decide), Cursor.next_blank rfl hu]
  rfl

theorem startsItem (anchors : List (Text × Value)) (s : String) (ss : List String) (u : Text) :
    (lineStart anchors (itemLines (s :: ss) ++ u)).isAtEnd = false ∧
      (lineStart anchors (itemLines (s :: ss) ++ u)).isAtItem = true := by
  rw [itemLines_cons]
  exact ⟨rfl, rfl⟩

/-- One item is read, and the list goes on if another begins on the line below. -/
theorem blockItems?_item (anchors : List (Text × Value)) {w : Text} (hw : StartsToken w) (s : String) (fuel : Nat)
    (items : List Value) :
    blockItems? (fuel + 2) 0 items (lineStart anchors ('-' :: ' ' :: (scalar 2 s ++ '\n' :: w))) =
      if (lineStart anchors w).isAtEnd = false ∧ (lineStart anchors w).isAtItem = true then
        blockItems? (fuel + 1) 0 (items ++ [opened s]) (lineStart anchors w)
      else some (.sequence (items ++ [opened s]), lineStart anchors w) := by
  have hfirst := next_item anchors (startsToken_scalar s ('\n' :: w))
  obtain ⟨d, hread, hd⟩ := node?_scalar s (c := ⟨2, false, scalar 2 s ++ '\n' :: w, anchors⟩) rfl hw fuel true
  rw [blockItems?]
  simp only [lineStart_rest, List.drop_one, List.tail_cons, hfirst, hread, hd,
    Cursor.isAtEnd_of_ne_zero (c := ⟨2, false, scalar 2 s ++ '\n' :: w, anchors⟩) (by simp) (scalar_append_ne_nil s (by simp)),
    Bool.false_and, Bool.or_false, Bool.false_eq_true, if_false, lineStart_column, lineStart_fresh, Nat.lt_irrefl, decide_false, Bool.and_false,
    Bool.not_true]
  cases (lineStart anchors w).isAtEnd <;> simp

/-- The items of a list are read from line to line. -/
theorem blockItems?_texts (anchors : List (Text × Value)) {u : Text} (hu : StartsField u) :
    ∀ {ss : List String}, ss ≠ [] → ∀ {fuel : Nat}, (itemLines ss).length ≤ fuel → ∀ items : List Value,
    blockItems? fuel 0 items (lineStart anchors (itemLines ss ++ u)) =
      some (.sequence (items ++ ss.map opened), lineStart anchors u)
  | [], h, _, _, _ => absurd rfl h
  | s :: ss, _, fuel, hfuel, items => by
    have hline : itemLines (s :: ss) ++ u = '-' :: ' ' :: (scalar 2 s ++ '\n' :: (itemLines ss ++ u)) := by
      simp [itemLines_cons]
    rw [itemLines_cons, List.length_cons, List.length_cons, List.length_append, List.length_cons] at hfuel
    obtain ⟨fuel, rfl⟩ : ∃ n, fuel = n + 2 := ⟨fuel - 2, by omega⟩
    rw [hline, blockItems?_item anchors (startsToken_itemLines hu ss)]
    cases ss with
    | nil => rw [if_neg (by simp [itemLines, hu.isAtItem])]; rfl
    | cons s' ss =>
      rw [if_pos (startsItem anchors s' ss u), blockItems?_texts anchors hu (List.cons_ne_nil s' ss) (by omega), List.append_assoc]
      rfl

/-! ### Fields -/

/-- What a field of a record may hold. -/
inductive Slot where
  /-- A text. -/
  | text (s : String)
  /-- A truth value. -/
  | truth (b : Bool)
  /-- A list of texts. -/
  | texts (ss : List String)

namespace Slot

/-- The value as it is written. -/
def value : Slot → Value
  | text s => .str s
  | truth b => .bool b
  | texts ss => .strs ss

/-- The value as it is read. -/
def opened : Slot → Value
  | text s => Yaml.opened s
  | truth b => .bare (if b then "true" else "false")
  | texts ss => .sequence (ss.map Yaml.opened)

end Slot

/-- A plain text before a colon is read as a key. -/
theorem key?_key {k u : Text} {c : Cursor} (hk : IsPlain k) (hu : endsToken u = true) (hc : c.rest = k ++ ':' :: u) :
    key? c = some (.bare (String.ofList k), ⟨c.column + k.length + 1, false, u, c.anchors⟩) := by
  have hchunk : plainChunk false c.rest = k := by rw [hc, hk.plainChunk_append (stops_colon hu)]
  have hdrop : c.rest.drop k.length = ':' :: u := by rw [hc, List.drop_left]
  have hstarts : startsPlain false c.rest = true := by rw [hc, hk.startsPlain_append]
  have htake : c.rest.take (c.rest.length - (':' :: u).length) = k := by
    rw [hc, List.length_append, Nat.add_sub_cancel, List.take_left]
  have hpast : (c.past (':' :: u)).past u = ⟨c.column + k.length + 1, false, u, c.anchors⟩ := by
    have hcolon : (c.past (':' :: u)).rest = [':'] ++ u := rfl
    rw [Cursor.past_of_not_mem hcolon (by decide), Cursor.past_of_not_mem hc hk.oneLine]
    rfl
  rw [key?, quoted?_plain hk hc]
  have hone : k.contains '\n' = false := by simpa using hk.oneLine
  have hblank : (':' :: u).dropWhile isBlank = ':' :: u := rfl
  simp only [hstarts, hchunk, hdrop, if_true, Option.bind_eq_bind, Option.bind_some, Cursor.past_rest, htake, hone,
    Bool.false_eq_true, if_false, hblank, hu, hpast]

/-- What is read behind a key, from the token below it. -/
def fieldValue? (fuel column : Nat) (d : Cursor) : Option (Value × Cursor) :=
  if d.isAtEnd then some (.bare "", d)
  else if !d.fresh then node? fuel (column + 1) false d
  else if column < d.column then node? fuel (column + 1) true d
  else if d.column = column && d.isAtItem then blockItems? fuel column [] d
  else some (.bare "", d)

theorem blockFields?_eq (fuel column : Nat) (fields : List (Value × Value)) (c : Cursor) :
    blockFields? (fuel + 1) column fields c =
      match key? c with
      | none => none
      | some (k, d) =>
        match fieldValue? fuel column d.next with
        | none => none
        | some (v, d) =>
          let d := d.next
          if d.isAtEnd || (d.fresh && d.column < column) then some (recordOf (fields ++ [(k, v)]), d)
          else if !d.fresh || column < d.column || d.isAtItem then none
          else blockFields? fuel column (fields ++ [(k, v)]) d := rfl

theorem valueAt_texts (s : String) (ss : List String) :
    valueAt 0 (Slot.texts (s :: ss)).value = '\n' :: itemLines (s :: ss) := by
  rw [Slot.value, Value.strs, List.map_cons, valueAt, ← List.map_cons, itemsAt_strs]

theorem isPlain_truth (b : Bool) : IsPlain (if b then "true" else "false").toList := by
  cases b <;> exact ⟨by decide, List.all_eq_true.1 rfl, by decide, by decide, by decide, by decide, by decide⟩

/-- The empty list is read in its brackets. -/
theorem node?_brackets {c : Cursor} {u : Text} (hc : c.rest = '[' :: ']' :: u) (fuel least : Nat) (entries : Bool) :
    node? (fuel + 3) least entries c = some (.sequence [], (c.past (']' :: u)).past u) := by
  rw [node?]
  simp only [hc]
  rw [flowNode?]
  simp only [hc]
  rfl

section Values

variable {c : Cursor} {w : Text} {fuel : Nat}

/-- A value on the line of its key. -/
theorem fieldValue?_inline {x : Text} (hx : StartsToken x) (h0 : x ≠ []) (hf : c.fresh = false) (hc : c.rest = ' ' :: x) :
    fieldValue? fuel 0 c.next = node? fuel 1 false { c with column := c.column + 1, rest := x } := by
  rw [Cursor.next_blank hc hx, fieldValue?, Cursor.isAtEnd_of_ne_zero (by simp) h0]
  simp [hf]

/-- A value is read behind its key, up to the line below it. -/
theorem fieldValue?_slot (e : Slot) (hw : StartsField w) (hf : c.fresh = false)
    (hc : c.rest = valueAt 0 e.value ++ w) (hfuel : (valueAt 0 e.value).length ≤ fuel) :
    ∃ d, fieldValue? fuel 0 c.next = some (e.opened, d) ∧ d.next = lineStart c.anchors w := by
  have hstart := hw.startsToken
  cases e with
  | text s =>
    have hline : valueAt 0 (Slot.text s).value = ' ' :: (scalar 2 s ++ ['\n']) := rfl
    rw [hline, List.length_cons] at hfuel
    obtain ⟨fuel, rfl⟩ : ∃ n, fuel = n + 1 := ⟨fuel - 1, by omega⟩
    have hx : c.rest = ' ' :: (scalar 2 s ++ '\n' :: w) := by simpa [hline] using hc
    rw [fieldValue?_inline (startsToken_scalar s _) (scalar_append_ne_nil s (by simp)) hf hx]
    exact node?_scalar s rfl hstart fuel false
  | truth b =>
    have hline : valueAt 0 (Slot.truth b).value = ' ' :: ((if b then "true" else "false").toList ++ ['\n']) := by
      cases b <;> rfl
    rw [hline, List.length_cons] at hfuel
    obtain ⟨fuel, rfl⟩ : ∃ n, fuel = n + 1 := ⟨fuel - 1, by omega⟩
    have hx : c.rest = ' ' :: ((if b then "true" else "false").toList ++ '\n' :: w) := by simpa [hline] using hc
    rw [fieldValue?_inline (startsToken_of_plain (isPlain_truth b) _) (by simp) hf hx, node?_plain (isPlain_truth b) rfl hstart,
      String.ofList_toList]
    exact ⟨_, rfl, Cursor.next_newline rfl hstart⟩
  | texts ss =>
    cases ss with
    | nil =>
      have hx : c.rest = ' ' :: '[' :: ']' :: '\n' :: w := hc
      obtain ⟨fuel, rfl⟩ : ∃ n, fuel = n + 3 := ⟨fuel - 3, by have : 4 ≤ fuel := hfuel; omega⟩
      have hbracket : StartsToken ('[' :: ']' :: '\n' :: w) := by
        rintro d ⟨⟩
        decide
      rw [fieldValue?_inline hbracket (by simp) hf hx, node?_brackets rfl]
      exact ⟨_, rfl, Cursor.next_newline rfl hstart⟩
    | cons s ss =>
      rw [valueAt_texts, List.length_cons] at hfuel
      have hx : c.rest = '\n' :: (itemLines (s :: ss) ++ w) := by rw [hc, valueAt_texts, List.cons_append]
      have hitems := blockItems?_texts c.anchors hw (List.cons_ne_nil s ss) (Nat.le_of_succ_le hfuel) []
      refine ⟨lineStart c.anchors w, ?_, Cursor.next_of_startsToken hstart⟩
      obtain ⟨hend, hitem⟩ := startsItem c.anchors s ss w
      rw [Cursor.next_newline hx (startsToken_itemLines hw (s :: ss)), fieldValue?, hend, hitem, hitems]
      rfl

end Values

/-- The fields of a record, each on a line or some lines. -/
def fieldLines (fs : List (String × Slot)) : Text := fs.flatMap fun f => f.1.toList ++ ':' :: valueAt 0 f.2.value

theorem fieldLines_cons (k : String) (e : Slot) (fs : List (String × Slot)) :
    fieldLines ((k, e) :: fs) = k.toList ++ ':' :: (valueAt 0 e.value ++ fieldLines fs) := by
  simp [fieldLines]

theorem startsField_fieldLines {fs : List (String × Slot)} (h : ∀ f ∈ fs, formOf f.1 = .plain) :
    StartsField (fieldLines fs) := by
  cases fs with
  | nil => exact .inl rfl
  | cons f fs =>
    exact .inr ⟨f.1.toList, _, isPlain_of_formOf (h f List.mem_cons_self), fieldLines_cons f.1 f.2 fs⟩

theorem endsToken_valueAt (e : Slot) (w : Text) : endsToken (valueAt 0 e.value ++ w) = true := by
  cases e with
  | text s => rfl
  | truth b => cases b <;> rfl
  | texts ss => cases ss <;> rfl

/-- One field is read, and the record goes on if another begins on the line below. -/
theorem blockFields?_field (anchors : List (Text × Value)) {k : String} (hk : formOf k = .plain) (e : Slot) {w : Text}
    (hw : StartsField w) {fuel : Nat} (hfuel : (valueAt 0 e.value).length ≤ fuel) (fields : List (Value × Value)) :
    blockFields? (fuel + 1) 0 fields (lineStart anchors (k.toList ++ ':' :: (valueAt 0 e.value ++ w))) =
      if w = [] then some (recordOf (fields ++ [(.bare k, e.opened)]), lineStart anchors w)
      else blockFields? fuel 0 (fields ++ [(.bare k, e.opened)]) (lineStart anchors w) := by
  have hkey := key?_key (c := lineStart anchors _) (isPlain_of_formOf hk) (endsToken_valueAt e w) rfl
  obtain ⟨d, hread, hd⟩ := fieldValue?_slot (c := ⟨0 + k.toList.length + 1, false, _, anchors⟩) e hw rfl rfl hfuel
  rw [blockFields?_eq, hkey, String.ofList_toList]
  simp only [lineStart] at hread ⊢
  rw [hread]
  simp only [hd, hw.isAtEnd, hw.isAtItem, lineStart_column, lineStart_fresh]
  cases w <;> rfl

/-- The fields of a record as they are read. -/
def openedFields (fs : List (String × Slot)) : List (Value × Value) := fs.map fun f => (.bare f.1, f.2.opened)

/-- The fields of a record are read from line to line. -/
theorem blockFields?_fields (anchors : List (Text × Value)) : ∀ {fs : List (String × Slot)}, fs ≠ [] →
    (∀ f ∈ fs, formOf f.1 = .plain) → ∀ {fuel : Nat}, (fieldLines fs).length ≤ fuel → ∀ fields : List (Value × Value),
    blockFields? fuel 0 fields (lineStart anchors (fieldLines fs)) =
      some (recordOf (fields ++ openedFields fs), lineStart anchors [])
  | [], h, _, _, _, _ => absurd rfl h
  | (k, e) :: fs, _, hplain, fuel, hfuel, fields => by
    rw [List.forall_mem_cons] at hplain
    have hnext := startsField_fieldLines hplain.2
    rw [fieldLines_cons] at hfuel ⊢
    rw [List.length_append, List.length_cons, List.length_append] at hfuel
    obtain ⟨fuel, rfl⟩ : ∃ n, fuel = n + 1 := ⟨fuel - 1, by omega⟩
    rw [blockFields?_field anchors hplain.1 e hnext (by omega)]
    cases fs with
    | nil => rfl
    | cons f fs =>
      have hne : fieldLines (f :: fs) ≠ [] := by simp [fieldLines]
      rw [if_neg hne, blockFields?_fields anchors (List.cons_ne_nil f fs) hplain.2 (by omega), List.append_assoc]
      rfl

/-! ### Documents -/

theorem isPrintable_of_isWritable {c : Char} (h : isWritable c = true) : isPrintable c = true := by
  simp only [isWritable, isPrintable, Bool.or_eq_true, Bool.and_eq_true, decide_eq_true_eq, beq_iff_eq] at h ⊢
  by_cases hn : c = '\n'
  · simp [hn]
  · simp only [hn, false_or, or_false] at h ⊢
    omega

theorem unifyLineEnds_of_writable : ∀ {t : Text}, (∀ c ∈ t, isWritable c = true) → unifyLineEnds t = t
  | [], _ => rfl
  | c :: t, h => by
    rw [List.forall_mem_cons] at h
    have hc : c ≠ '\r' ∧ c ≠ '\u0085' := by
      constructor <;> rintro rfl <;> exact absurd h.1 (by decide)
    rw [unifyLineEnds, unifyLineEnds_of_writable h.2]
    all_goals simp [hc]

theorem isWritable_valueAt (e : Slot) : ∀ c ∈ valueAt 0 e.value, isWritable c = true := by
  have hline (s : String) : ∀ c ∈ scalar 2 s ++ ['\n'], isWritable c = true :=
    List.forall_mem_append.2 ⟨isWritable_scalar s, List.all_eq_true.1 rfl⟩
  cases e with
  | text s => exact List.forall_mem_cons.2 ⟨by decide, hline s⟩
  | truth b => cases b <;> exact List.all_eq_true.1 rfl
  | texts ss =>
    cases ss with
    | nil => exact List.all_eq_true.1 rfl
    | cons s ss =>
      rw [valueAt_texts, List.forall_mem_cons]
      refine ⟨by decide, fun c hc => ?_⟩
      obtain ⟨s', -, hc⟩ := List.mem_flatMap.1 hc
      rw [List.cons_append, List.cons_append, List.mem_cons, List.mem_cons] at hc
      rcases hc with rfl | rfl | hc
      · decide
      · decide
      · exact hline s' c hc

theorem isWritable_fieldLines {fs : List (String × Slot)} (h : ∀ f ∈ fs, formOf f.1 = .plain) :
    ∀ c ∈ fieldLines fs, isWritable c = true := by
  intro c hc
  obtain ⟨f, hf, hc⟩ := List.mem_flatMap.1 hc
  rcases List.mem_append.1 hc with hc | hc
  · exact (isPlain_of_formOf (h f hf)).writable c hc
  · rcases List.mem_cons.1 hc with rfl | hc
    · decide
    · exact isWritable_valueAt f.2 c hc

/-- The record of the fields. -/
def written (fs : List (String × Slot)) : Value := .object (fs.map fun f => (f.1, f.2.value))

theorem fieldsAt_slots (first : Bool) {fs : List (String × Slot)} (h : ∀ f ∈ fs, formOf f.1 = .plain) :
    fieldsAt 0 first (fs.map fun f => ((⟨f.1, false⟩ : Key), f.2.value)) = fieldLines fs := by
  induction fs generalizing first with
  | nil => cases first <;> rfl
  | cons f fs ih =>
    rw [List.forall_mem_cons] at h
    have hkey : inline (0 + 2) (.str f.1) = f.1.toList := by rw [inline, scalar, h.1]
    rw [List.map_cons, fieldsAt, hkey, ih false h.2, fieldLines_cons]
    cases first <;> simp

theorem print_written {fs : List (String × Slot)} (h0 : fs ≠ []) (h : ∀ f ∈ fs, formOf f.1 = .plain) :
    print (written fs) = fieldLines fs := by
  obtain ⟨f, fs, rfl⟩ := List.exists_cons_of_ne_nil h0
  rw [← fieldsAt_slots true h]
  simp [written, Value.object, print, Function.comp_def]

theorem recordOf_opened (fs : List (String × Slot)) :
    recordOf (openedFields fs) = .record (fs.map fun f => (⟨f.1, true⟩, f.2.opened)) := by
  have hkeys : ((openedFields fs).mapM fun f => (keyOf? f.1).map fun k => (k, f.2)) =
      some (fs.map fun f => ((⟨f.1, true⟩ : Key), f.2.opened)) := by
    induction fs with
    | nil => rfl
    | cons f fs ih =>
      rw [openedFields, List.map_cons, List.mapM_cons, ← openedFields, ih]
      rfl
  rw [recordOf, hkeys]

/-- A record begins with its first key. -/
theorem node?_fields {k v : Text} (hk : IsPlain k) (hv : endsToken v = true) (anchors : List (Text × Value)) (fuel : Nat) :
    node? (fuel + 1) 0 true (lineStart anchors (k ++ ':' :: v)) =
      blockFields? fuel 0 [] (lineStart anchors (k ++ ':' :: v)) := by
  obtain ⟨d, ds, hs, -, -, hi, -⟩ := hk.exists_cons
  have hopen := opensNode_eq_false hi
  have hkey := key?_key (c := lineStart anchors _) hk hv rfl
  have hitem := isAtItem_plain (c := lineStart anchors _) hk (u := ':' :: v) rfl
  have hrest : (lineStart anchors (k ++ ':' :: v)).rest = d :: (ds ++ ':' :: v) := by rw [hs]; rfl
  rw [node?]
  split
  case h_8 =>
    rw [hitem, hkey]
    rfl
  all_goals
    next hr =>
      rw [hrest] at hr
      obtain ⟨rfl, -⟩ := List.cons.inj hr
      exact absurd hopen (by decide)

/-- A document without marks and directives is read as its node. -/
theorem read?_of_node {t : Text} (hw : ∀ c ∈ t, isWritable c = true) (hfield : StartsField t) {v : Value} (h0 : t ≠ [])
    (hnode : node? (3 * t.length + 10) 0 true (lineStart [] t) = some (v, lineStart [] [])) : read? t = some v := by
  have hall : t.all isPrintable = true := List.all_eq_true.2 fun c hc => isPrintable_of_isWritable (hw c hc)
  have hnext : ({ rest := t } : Cursor).next = lineStart [] t := Cursor.next_of_startsToken hfield.startsToken
  have hdirectives (fuel : Nat) : dropDirectives fuel (lineStart [] t) = lineStart [] t := by
    cases fuel with
    | zero => rfl
    | succ fuel =>
      rw [dropDirectives]
      split
      · next r hr =>
        exact absurd hr (hfield.ne_cons r)
      · rfl
  rw [read?, unifyLineEnds_of_writable hw]
  · have hmark := hfield.isAtMark [] (by simp : "---" ∈ ["---", "..."])
    have hend := hfield.isAtEnd []
    have hlast : (lineStart [] []).next = lineStart [] [] := rfl
    have hdots : (lineStart [] []).isAtMark "..." = false := rfl
    simp [hall, hnext, hdirectives, hmark, hend, hnode, h0, hlast, hdots]
  · rintro r rfl
    exact absurd (hw _ List.mem_cons_self) (by decide)

/-- **What is written is read.** A record of texts, truth values and lists of texts under plain keys is read from
its written form, its keys, truth values and plain texts as unquoted words. -/
theorem read?_print {fs : List (String × Slot)} (h0 : fs ≠ []) (h : ∀ f ∈ fs, formOf f.1 = .plain) :
    read? (print (written fs)) = some (.record (fs.map fun f => (⟨f.1, true⟩, f.2.opened))) := by
  have hfuel : (fieldLines fs).length ≤ 3 * (fieldLines fs).length + 9 := by omega
  have hread := blockFields?_fields [] h0 h hfuel []
  rw [List.nil_append, recordOf_opened] at hread
  rw [print_written h0 h]
  obtain ⟨⟨k, e⟩, fs, rfl⟩ := List.exists_cons_of_ne_nil h0
  have hk := isPlain_of_formOf (h _ List.mem_cons_self)
  refine read?_of_node (isWritable_fieldLines h) (startsField_fieldLines h) (by simp [fieldLines]) ?_
  rw [← hread, fieldLines_cons]
  exact node?_fields hk (endsToken_valueAt e (fieldLines fs)) [] _

end Yaml
end Marginalia
