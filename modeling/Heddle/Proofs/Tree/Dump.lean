import Mathlib
import Heddle.Tree.Dump
import Heddle.Proofs.Text.Quoted

/-!
# Dumps read back

A dump is a list of lines, and a line of a dump is an entry at a depth: the head of a node or a
piece of data. Three things make the list as good as the tree. A line feed stands nowhere but at the
end of a line, so the text falls into its lines in one way only. A line tells its depth by its
blanks, and behind them its entry (`Entry.line_injective`): the name of a kind begins with a small
letter, the name of a tag with a capital one, so that a piece of data is never taken for a head,
whatever its text looks like. And a list of entries is planted from its end to its beginning as
**one forest per depth, where a head takes all that has grown one level below it**
(`Forest.foldr_plant`).

So a dump determines what it shows: all but trivia, and of an extent the line and the column
(`Node.dump_eq_iff`).
-/

set_option autoImplicit false

namespace Heddle

/-! ## What a dump shows -/

/-- Where a construct begins, as a dump tells it. -/
def Location.place (l : Location) : Nat × Nat := (l.line, l.column)

/-- An extent of which only the beginning is known. It makes a `Forest` again of what a dump
shows, so that two dumps are compared as trees. -/
def Location.ofPlace (place : Nat × Nat) : Location := ⟨none, place.1, place.2, 0, 0⟩

/-- The children without trivia, and of their extents only where they begin. File, offset and
length are not in a dump. -/
def Forest.shown : Forest → Forest
  | nil => nil
  | data tag text next => if tag.isTrivia then next.shown else data tag text next.shown
  | node kind location children next =>
    node kind (location.map fun l => .ofPlace l.place) children.shown next.shown

/-- The node without trivia, and of the extents in it only where they begin. -/
def Node.shown (n : Node) : Node :=
  ⟨n.kind, n.location.map fun l => .ofPlace l.place, n.children.shown⟩

/-- What a line of a dump is about. The text of a dump is made of the lines of its entries, and
each step back, from the text to the lines and from a line to its entry, is a lemma of its own. -/
inductive Entry where
  | head (kind : NodeKind) (place : Option (Nat × Nat))
  | data (tag : DataTag) (text : String)

/-- The line of an entry. -/
def Entry.line (depth : Nat) : Entry → String
  | head kind place => headLine depth kind (place.map .ofPlace)
  | data tag text => dataLine depth tag text

/-- The entries of children, each with its depth. -/
def Forest.entries (depth : Nat) : Forest → List (Nat × Entry)
  | nil => []
  | data tag text next =>
    (if tag.isTrivia then [] else [(depth, .data tag text)]) ++ next.entries depth
  | node kind location children next =>
    (depth, .head kind (location.map (·.place))) :: children.entries (depth + 1) ++
      next.entries depth

theorem headLine_shown (depth : Nat) (kind : NodeKind) (location : Option Location) :
    headLine depth kind (location.map fun l => .ofPlace l.place) =
      headLine depth kind location := by
  cases location with
  | none => rfl
  | some l => rfl

/-- The lines of children are the lines of their entries. -/
theorem Forest.lines_eq (f : Forest) (depth : Nat) :
    f.lines depth = (f.entries depth).map fun e => e.2.line e.1 := by
  induction f generalizing depth with
  | nil => rfl
  | data tag text next ih =>
    rw [lines, entries, ih, List.map_append]
    split
    · rfl
    · rfl
  | node kind location children next ihc ihn =>
    have hhead : (Entry.head kind (location.map (·.place))).line depth =
        headLine depth kind location := by
      rw [Entry.line, Option.map_map]
      exact headLine_shown depth kind location
    rw [lines, entries, ihc, ihn, List.cons_append, List.cons_append, List.map_cons, hhead,
      List.map_append]

/-- Nothing is lost of the lines: trees that show the same are dumped alike. It is the easy
direction of `Node.dump_eq_iff`. -/
theorem Forest.lines_shown (f : Forest) (depth : Nat) : f.shown.lines depth = f.lines depth := by
  induction f generalizing depth with
  | nil => rfl
  | data tag text next ih =>
    rw [shown, lines]
    split <;> rename_i ht
    · exact ih depth
    · rw [lines, if_neg ht, ih]
  | node kind location children next ihc ihn =>
    rw [shown, lines, lines, ihc, ihn, headLine_shown]

theorem Node.dump_shown (n : Node) : n.shown.dump = n.dump := by
  have hlines : n.shown.lines = n.lines := by
    rw [lines, lines, shown, Forest.lines_shown, headLine_shown]
  rw [dump, dump, hlines]

/-! ## From entries to forests -/

/-- Puts an entry in front of what has grown at each depth. A head takes what has grown below it
as its children, and leaves nothing there. -/
def Entry.plant (e : Nat × Entry) (grown : Nat → Forest) : Nat → Forest :=
  match e.2 with
  | head kind place =>
    let node := .node kind (place.map .ofPlace) (grown (e.1 + 1)) (grown e.1)
    Function.update (Function.update grown (e.1 + 1) .nil) e.1 node
  | data tag text => Function.update grown e.1 (.data tag text (grown e.1))

/-- **The entries of children grow to what is shown of the children**, if nothing has grown at a
greater depth that they could be taken to hold. The induction is on the forest. The fold goes from
the last entry to the first, so when the head of a node is planted its children have grown
already, and so has what follows the node. -/
theorem Forest.foldr_plant (f : Forest) (depth : Nat) {grown : Nat → Forest}
    (h : ∀ d, depth < d → grown d = .nil) :
    (f.entries depth).foldr Entry.plant grown =
      Function.update grown depth (f.shown ++ grown depth) := by
  induction f generalizing depth grown with
  | nil => exact (Function.update_eq_self depth grown).symm
  | data tag text next ih =>
    rw [entries, List.foldr_append, ih depth h, shown]
    split
    · rfl
    · simp [Entry.plant]
  | node kind location children next ihc ihn =>
    have hdeeper : ∀ d, depth + 1 < d →
        Function.update grown depth (next.shown ++ grown depth) d = .nil := by
      intro d hd
      rw [Function.update_of_ne (by omega)]
      exact h d (by omega)
    have hbelow : grown (depth + 1) = .nil := h (depth + 1) (Nat.lt_succ_self depth)
    rw [entries, List.cons_append, List.foldr_cons, List.foldr_append, ihn depth h,
      ihc (depth + 1) hdeeper, shown]
    funext d
    by_cases hd : d = depth
    · subst hd
      simp [Entry.plant, Option.map_map, Function.comp_def, hbelow]
    · by_cases hd' : d = depth + 1
      · subst hd'
        simp [Entry.plant, hbelow]
      · simp [Entry.plant, hd, hd']

/-! ## From lines to entries -/

/-- The name of a kind: small letters and hyphens, the first a letter. -/
theorem NodeKind.name_chars (k : NodeKind) :
    (k.name.toList.all fun c => c.isLower || c == '-') = true ∧
      k.name.toList.head?.any Char.isLower = true := by
  cases k <;> exact ⟨rfl, rfl⟩

/-- The name of a tag: letters, the first a capital. -/
theorem DataTag.name_chars (t : DataTag) :
    t.name.toList.all Char.isAlpha = true ∧ t.name.toList.head?.any Char.isUpper = true := by
  cases t <;> exact ⟨rfl, rfl⟩

theorem NodeKind.not_mem_name {c : Char} (hc : (c.isLower || c == '-') = false) (k : NodeKind) :
    c ∉ k.name.toList := by
  intro h
  have hname := List.all_eq_true.1 k.name_chars.1 c h
  rw [hc] at hname
  cases hname

theorem DataTag.not_mem_name {c : Char} (hc : c.isAlpha = false) (t : DataTag) :
    c ∉ t.name.toList := by
  intro h
  have hname := List.all_eq_true.1 t.name_chars.1 c h
  rw [hc] at hname
  cases hname

theorem NodeKind.name_injective : Function.Injective name := by
  intro k k' h
  have hread := congrArg ofName? h
  rw [ofName?_name, ofName?_name] at hread
  exact Option.some.inj hread

theorem DataTag.name_injective : Function.Injective name := by
  intro t t' h
  have hread := congrArg ofName? h
  rw [ofName?_name, ofName?_name] at hread
  exact Option.some.inj hread

/-- What ends at the first `c`, or with the whole, ends at one place only. A name ends in this way
at a blank, and a line number at a colon. -/
theorem eq_of_append_of_head? {c : Char} {xs ys us vs : List Char} (hx : c ∉ xs) (hy : c ∉ ys)
    (hu : ∀ d ∈ us.head?, d = c) (hv : ∀ d ∈ vs.head?, d = c) (h : xs ++ us = ys ++ vs) :
    xs = ys ∧ us = vs := by
  have hnil {mid us vs zs : List Char} (hz : c ∉ zs ++ mid) (hu : ∀ d ∈ us.head?, d = c)
      (h : us = mid ++ vs) : mid = [] := by
    cases mid with
    | nil => rfl
    | cons d mid =>
      obtain rfl := hu d (by rw [h]; rfl)
      exact absurd (List.mem_append_right zs List.mem_cons_self) hz
  rcases List.append_eq_append_iff.1 h with ⟨mid, rfl, hmid⟩ | ⟨mid, rfl, hmid⟩
  · obtain rfl := hnil hy hu hmid
    exact ⟨(List.append_nil _).symm, hmid⟩
  · obtain rfl := hnil hx hv hmid
    exact ⟨List.append_nil _, hmid.symm⟩

theorem eq_of_append_cons {c : Char} {xs ys us vs : List Char} (hx : c ∉ xs) (hy : c ∉ ys)
    (h : xs ++ c :: us = ys ++ c :: vs) : xs = ys ∧ us = vs := by
  have hhead (zs : List Char) : ∀ d ∈ (c :: zs).head?, d = c := fun d hd =>
    (Option.mem_some_iff.1 hd).symm
  obtain ⟨hfront, hbehind⟩ := eq_of_append_of_head? hx hy (hhead us) (hhead vs) h
  exact ⟨hfront, (List.cons.inj hbehind).2⟩

/-- The blanks in front of a line are told from the line, so the depth of a line is read off it.
-/
theorem eq_of_replicate_append {m n : Nat} {xs ys : List Char} (hx : xs.head? ≠ some ' ')
    (hy : ys.head? ≠ some ' ')
    (h : List.replicate m ' ' ++ xs = List.replicate n ' ' ++ ys) : m = n ∧ xs = ys := by
  induction m generalizing n with
  | zero =>
    cases n with
    | zero => exact ⟨rfl, h⟩
    | succ n => exact absurd (congrArg List.head? h) hx
  | succ m ih =>
    cases n with
    | zero => exact absurd (congrArg List.head? h).symm hy
    | succ n =>
      obtain ⟨hm, hxy⟩ := ih (List.cons.inj h).2
      exact ⟨congrArg Nat.succ hm, hxy⟩

namespace Entry

/-- What the head of a node shows behind the name: nothing, or a line and a column. -/
def placeChars : Option (Nat × Nat) → List Char
  | none => []
  | some p => ' ' :: '@' :: (p.1.repr.toList ++ ':' :: p.2.repr.toList)

/-- What stands behind the blanks of a line. -/
def chars : Entry → List Char
  | head kind place => kind.name.toList ++ placeChars place
  | data tag text => tag.name.toList ++ ' ' :: (Text.Quoted.encode text).toList

theorem toList_line (depth : Nat) (e : Entry) :
    (e.line depth).toList = List.replicate (2 * depth) ' ' ++ e.chars := by
  cases e with
  | data tag text => simp [line, dataLine, indentation, chars]
  | head kind place =>
    cases place with
    | none => simp [line, headLine, indentation, chars, placeChars]
    | some p =>
      simp [line, headLine, indentation, chars, placeChars, Location.ofPlace,
        Nat.toString_eq_repr]

theorem isDigit_of_mem_repr {n : Nat} {c : Char} (h : c ∈ n.repr.toList) : c.isDigit = true := by
  rw [Nat.repr_eq_ofList_toDigits, String.toList_ofList] at h
  exact Nat.isDigit_of_mem_toDigits (by decide) (by decide) h

theorem placeChars_injective : Function.Injective placeChars := by
  have hcolon (n : Nat) : ':' ∉ n.repr.toList := fun h =>
    absurd (isDigit_of_mem_repr h) (by decide)
  intro p q h
  cases p with
  | none =>
    cases q with
    | none => rfl
    | some q => cases h
  | some p =>
    cases q with
    | none => cases h
    | some q =>
      have hdigits := (List.cons.inj (List.cons.inj h).2).2
      obtain ⟨hline, hcolumn⟩ := eq_of_append_cons (hcolon p.1) (hcolon q.1) hdigits
      exact congrArg some (Prod.ext (Nat.repr_injective (String.toList_injective hline))
        (Nat.repr_injective (String.toList_injective hcolumn)))

theorem head?_placeChars (place : Option (Nat × Nat)) :
    ∀ c ∈ (placeChars place).head?, c = ' ' := by
  cases place with
  | none => exact fun c hc => absurd hc (Option.not_mem_none c)
  | some p => exact fun c hc => (Option.mem_some_iff.1 hc).symm

theorem any_head?_append {P : Char → Bool} {xs : List Char} (h : xs.head?.any P = true)
    (ys : List Char) : (xs ++ ys).head?.any P = true := by
  cases xs with
  | nil => cases h
  | cons x xs => exact h

theorem isLower_head (kind : NodeKind) (place : Option (Nat × Nat)) :
    (head kind place).chars.head?.any Char.isLower = true :=
  any_head?_append kind.name_chars.2 _

theorem isUpper_data (tag : DataTag) (text : String) :
    (data tag text).chars.head?.any Char.isUpper = true :=
  any_head?_append tag.name_chars.2 _

/-- A head begins with a small letter and data with a capital one. -/
theorem chars_ne (kind : NodeKind) (place : Option (Nat × Nat)) (tag : DataTag) (text : String) :
    (head kind place).chars ≠ (data tag text).chars := by
  intro h
  have hlower := isLower_head kind place
  have hupper := isUpper_data tag text
  rw [h] at hlower
  obtain ⟨c, hc, hlower⟩ := (Option.any_eq_true _ _).1 hlower
  rw [hc] at hupper
  have hupper : c.isUpper = true := hupper
  grind [Char.isLower, Char.isUpper]

/-- What stands behind the blanks of a line tells the entry. Heads are told by their names and
numbers, data by its tag and its quoted text. -/
theorem chars_injective : Function.Injective chars := by
  intro e e' h
  cases e with
  | head kind place =>
    cases e' with
    | data tag text => exact absurd h (chars_ne kind place tag text)
    | head kind' place' =>
      obtain ⟨hkind, hplace⟩ := eq_of_append_of_head? (kind.not_mem_name (by decide))
        (kind'.not_mem_name (by decide)) (head?_placeChars place) (head?_placeChars place') h
      rw [NodeKind.name_injective (String.toList_injective hkind), placeChars_injective hplace]
  | data tag text =>
    cases e' with
    | head kind place => exact absurd h.symm (chars_ne kind place tag text)
    | data tag' text' =>
      obtain ⟨htag, htext⟩ := eq_of_append_cons (c := ' ') (tag.not_mem_name (by decide))
        (tag'.not_mem_name (by decide)) h
      rw [DataTag.name_injective (String.toList_injective htag),
        Text.Quoted.encode_injective (String.toList_injective htext)]

theorem head?_chars (e : Entry) : e.chars.head? ≠ some ' ' := by
  intro h
  cases e with
  | head kind place =>
    have hlower := isLower_head kind place
    rw [h] at hlower
    exact absurd hlower (by decide)
  | data tag text =>
    have hupper := isUpper_data tag text
    rw [h] at hupper
    exact absurd hupper (by decide)

/-- **A line tells its depth and its entry.** The blanks are told from the rest as no entry begins
with a blank. -/
theorem line_injective : Function.Injective fun e : Nat × Entry => e.2.line e.1 := by
  rintro ⟨depth, e⟩ ⟨depth', e'⟩ h
  have hchars := congrArg String.toList h
  simp only [toList_line] at hchars
  obtain ⟨hdepth, he⟩ := eq_of_replicate_append e.head?_chars e'.head?_chars hchars
  rw [Nat.eq_of_mul_eq_mul_left (by decide) hdepth, chars_injective he]

theorem newline_not_mem_placeChars (place : Option (Nat × Nat)) : '\n' ∉ placeChars place := by
  have hdigits (n : Nat) : '\n' ∉ n.repr.toList := fun h =>
    absurd (isDigit_of_mem_repr h) (by decide)
  cases place with
  | none => exact List.not_mem_nil
  | some p =>
    simp only [placeChars, List.mem_cons, List.mem_append, not_or]
    exact ⟨by decide, by decide, hdigits p.1, by decide, hdigits p.2⟩

/-- A line is one line. Only the text of data could hold a line feed, and it is written quoted. -/
theorem newline_not_mem_line (depth : Nat) (e : Entry) : '\n' ∉ (e.line depth).toList := by
  rw [toList_line, List.mem_append, not_or]
  refine ⟨fun h => absurd (List.eq_of_mem_replicate h) (by decide), ?_⟩
  cases e with
  | head kind place =>
    rw [chars, List.mem_append, not_or]
    exact ⟨kind.not_mem_name (by decide),
      newline_not_mem_placeChars place⟩
  | data tag text =>
    rw [chars, List.mem_append, List.mem_cons, not_or, not_or]
    exact ⟨tag.not_mem_name (by decide), by decide,
      Text.Quoted.newline_not_mem_encode text⟩

end Entry

/-! ## From texts to lines -/

/-- Texts fall into lines in one way only. -/
theorem eq_of_join_lines {ls ms : List String} (hl : ∀ l ∈ ls, '\n' ∉ l.toList)
    (hm : ∀ m ∈ ms, '\n' ∉ m.toList)
    (h : String.join (ls.map (· ++ "\n")) = String.join (ms.map (· ++ "\n"))) : ls = ms := by
  replace h := congrArg String.toList h
  simp only [String.toList_join, List.flatMap_map, String.toList_append] at h
  induction ls generalizing ms with
  | nil =>
    cases ms with
    | nil => rfl
    | cons m ms => simp at h
  | cons l ls ih =>
    cases ms with
    | nil => simp at h
    | cons m ms =>
      rw [List.forall_mem_cons] at hl hm
      rw [List.flatMap_cons, List.flatMap_cons, List.append_assoc, List.append_assoc] at h
      obtain ⟨hfirst, hothers⟩ := eq_of_append_cons hl.1 hm.1 h
      rw [String.toList_injective hfirst, ih hl.2 hm.2 hothers]

/-- The lines of a node are those of a forest with nothing else in it. -/
theorem Node.lines_eq (n : Node) :
    n.lines = ((Forest.ofNode n).entries 0).map fun e => e.2.line e.1 := by
  rw [← Forest.lines_eq, lines, Forest.ofNode, Forest.lines, Forest.lines, List.append_nil]

/-- **Two nodes have the same dump if and only if they are the same up to trivia and all of their
extents but the line and the column.** From the dumps being the same it goes back in three steps:
to lines, to entries, and to what they grow to. -/
theorem Node.dump_eq_iff {m n : Node} : m.dump = n.dump ↔ m.shown = n.shown := by
  constructor
  · intro h
    have hline (n : Node) : ∀ l ∈ n.lines, '\n' ∉ l.toList := by
      intro l hl
      rw [lines_eq] at hl
      obtain ⟨e, -, rfl⟩ := List.mem_map.1 hl
      exact Entry.newline_not_mem_line e.1 e.2
    have hlines : m.lines = n.lines := eq_of_join_lines (hline m) (hline n) h
    rw [lines_eq, lines_eq] at hlines
    have hentries := List.map_injective_iff.2 Entry.line_injective hlines
    have hgrown := congrArg (List.foldr Entry.plant fun _ => Forest.nil) hentries
    rw [Forest.foldr_plant _ _ fun _ _ => rfl, Forest.foldr_plant _ _ fun _ _ => rfl] at hgrown
    have hshown := congrFun hgrown 0
    rw [Function.update_self, Function.update_self, Forest.append_nil, Forest.append_nil] at hshown
    obtain ⟨hkind, hlocation, hchildren, -⟩ := Forest.node.inj hshown
    rw [shown, shown, hkind, hlocation, hchildren]
  · intro h
    rw [← m.dump_shown, h, n.dump_shown]

end Heddle
