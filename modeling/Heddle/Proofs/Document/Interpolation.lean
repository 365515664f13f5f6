import Heddle.Proofs.Document.Values
import Heddle.Proofs.Printed.Interpolation

/-!
# Texts with placeholders

A quoted text can be put together from plain text and placeholders. A placeholder is a dotted name
behind a percent sign, or in braces any text that can be assigned by itself. **The children of the
string are the pieces it was put together from** (`interpolated_read`), and the expression in braces
is the one of the assignment.

The text in the braces has to end where it does in the assignment. A comment that hides the brace
may hide nothing behind the semicolon of an assignment, and blanks in the braces belong to the
string and not to the expression (`not_interpolated_read`).
-/

set_option autoImplicit false

namespace Heddle

open Text Token Lookahead Phrase Printed

variable {o : Options}

/-! ## Pieces -/

/-- What a placeholder is filled with: a dotted name, or any text in braces. -/
inductive Filling where
  | named (name : Name) (others : List Name)
  | braced (value : String)

/-- A placeholder, and the plain text behind it. A text with placeholders is plain text and such
pieces. -/
structure Piece where
  filling : Filling
  chunk : List Char

def Filling.chars : Filling → List Char
  | named name others => '%' :: name.dotted others
  | braced value => '%' :: '\x7b' :: (value.toList ++ ['\x7d'])

namespace Piece

def chars (p : Piece) : List Char := p.filling.chars ++ p.chunk

/-- The plain text behind a placeholder means just itself. Behind names it does not go on with
them. In braces there is the value of an assignment that nests two levels less than what is
allowed: the expression and the string around the placeholder are not in it. -/
structure Fits (o : Options) (p : Piece) : Prop where
  plain : ∀ c ∈ p.chunk, isPlainText '\x22' c = true
  ends : ∀ name others, p.filling = .named name others → EndsPath p.chunk
  assigns : ∀ value, p.filling = .braced value →
    ∃ s, Assigns o value s ∧ s.children.height + 2 < maxNesting

end Piece

/-- What is read of a placeholder: the sign and the path, or the signs around the expression that
the assignment of the value has, with the trivia on both sides of it. The trivia is a part of the
assigned text and belongs to the string here, since an expression does not keep the trivia around
it. -/
inductive Filling.Reads (o : Options) : Filling → Forest → Prop
  | named (name : Name) (others : List Name) :
    Reads o (.named name others) (.data .punctuation "%" (pathOf name others))
  | braced {value : String} {s : Node} {before inside after : Forest}
    (sole : (Parsed.ofSource o (Heddle.assigns value)).sole? = some s)
    (expression : ⟨.expression, none, inside⟩ ∈ s.unplaced.nodes)
    (text : value.toList = before.chars ++ (inside.chars ++ after.chars))
    (trivia : before.isTrivia = true ∧ after.isTrivia = true) :
    Reads o (.braced value) (.data .punctuation "%" (.data .punctuation "\x7b"
      (before ++ .node .expression none inside (after ++ .ofData .punctuation "\x7d"))))

/-- The piece is read as the insert, and its plain text stays what it is. An `Insert` is what
`Printed.Interpolation` reads back: a tree with a text in front of which it may stand. -/
structure Piece.Becomes (o : Options) (p : Piece) (i : Insert) : Prop where
  reads : p.filling.Reads o i.tree
  chunk : i.chunk = p.chunk

/-- A text between quotes, put together from the plain text `first` and the pieces. -/
def interpolated (first : List Char) (pieces : List Piece) : String :=
  String.ofList ('\x22' :: (first ++ (pieces.flatMap Piece.chars ++ ['\x22'])))

/-- An assignment of a string. -/
def assignedString (children : Forest) : Node :=
  ⟨.assignment, none, assigning
    (.node .expression none (.node .string none children .nil) .nil)⟩

/-! ## From pieces to inserts -/

namespace Piece

/-- What has to be known of an insert to use it for the piece. It is `Becomes` with what the
reading of the string asks for. -/
structure Fills (o : Options) (p : Piece) (i : Insert) : Prop extends Becomes o p i where
  chars : i.chars = p.chars
  stands : i.Stands o
  height : i.tree.height + 2 < maxNesting

/-- **Every piece is read as some insert.** A name is an insert as it is printed; for a value in
braces the insert is taken out of the tree of its assignment (`Document.Values`). -/
theorem Fits.exists_insert (ho : o.spacedCalls = false) {p : Piece} (h : p.Fits o) :
    ∃ i : Insert, p.Fills o i := by
  obtain ⟨filling, chunk⟩ := p
  obtain ⟨hplain, hends, hassigns⟩ := h
  cases filling with
  | named name others =>
    refine ⟨.named name others chunk, ⟨.named name others, rfl⟩, ?_, ?_, ?_⟩
    · simp [Insert.named, Insert.chars, chars, Filling.chars, chars_pathOf]
    · exact Insert.stands_named hplain (hends _ _ rfl) ho name others
    · simp [Insert.named, pathOf, Forest.height, maxNesting]
  | braced value =>
    obtain ⟨s, hs, hheight⟩ := hassigns value rfl
    obtain ⟨before, inside, after, hmem, hv⟩ := hs.exists_value ho
    refine ⟨.braced (before ++ .node .expression none inside .nil) after chunk, ⟨?_, rfl⟩, ?_, ?_,
      ?_⟩
    · have hreads := Filling.Reads.braced hs.sole hmem hv.text
        ⟨hv.before_isTrivia, hv.after_isTrivia⟩
      simpa [Insert.braced, Forest.append_assoc] using hreads
    · simp [Insert.braced, Insert.chars, chars, Filling.chars, hv.text]
    · refine Insert.stands_braced hplain (fun c hc => hs.inner c ?_)
        (fun rest => hv.reads _ (delimits_rightBrace rest))
        (fun rest => hv.readsAfter _ (delimits_rightBrace rest))
      simpa [hv.text] using hc
    -- The value is a node of the assignment, so it is lower than the assignment is.
    · have hinside := Forest.height_of_mem_nodes hmem
      rw [Node.unplaced, Forest.height_unplaced] at hinside
      have htree : (Insert.braced (before ++ .node .expression none inside .nil) after
          chunk).tree.height = inside.height + 1 := by
        simp [Insert.braced, Forest.height, Forest.ofData,
          Forest.height_of_isTrivia hv.before_isTrivia, Forest.height_of_isTrivia hv.after_isTrivia]
      exact Nat.lt_of_le_of_lt (Nat.add_le_add_right (htree ▸ hinside) 2) hheight

end Piece

/-! ## The whole text -/

theorem inside_map {pieces : List Piece} {insert : Piece → Insert}
    (h : ∀ p ∈ pieces, (insert p).chars = p.chars) :
    Insert.inside (pieces.map insert) = pieces.flatMap Piece.chars := by
  rw [Insert.inside, List.flatMap_map]
  exact List.flatMap_congr h

/-- **A text is read as the pieces that it was put together from.** An insert is chosen for every
piece, and then the text is printed as a string with these inserts, which is read back. -/
theorem interpolated_read (o : Options) {first : List Char} {pieces : List Piece}
    (hf : ∀ c ∈ first, isPlainText '\x22' c = true)
    (hp : ∀ p ∈ pieces, p.Fits { o with spacedCalls := false }) :
    ∃ insert : Piece → Insert,
      (∀ p ∈ pieces, p.Becomes { o with spacedCalls := false } (insert p)) ∧
      (Parsed.ofSource o (assigns (interpolated first pieces))).sole?.map (·.unplaced) =
        some (assignedString (Insert.children ('\x22' :: first) (pieces.map insert))) := by
  have : Nonempty Insert := ⟨⟨false, .nil, []⟩⟩
  choose! insert hinsert using fun p hp' => (hp p hp').exists_insert rfl
  refine ⟨insert, fun p hp => (hinsert p hp).toBecomes, ?_⟩
  have hmap {P : Insert → Prop} (h : ∀ p ∈ pieces, P (insert p)) : ∀ i ∈ pieces.map insert, P i :=
    List.forall_mem_map.2 h
  let value : Forest := .node .expression none
    (.node .string none (Insert.children ('\x22' :: first) (pieces.map insert)) .nil) .nil
  have hchars : value.chars = (interpolated first pieces).toList := by
    simp [value, interpolated, inside_map fun p hp => (hinsert p hp).chars]
  have hopens : Opens value.chars := ⟨'\x22', by simp [hchars, interpolated], by decide⟩
  have hread : ReadsBack o (node .expression) value [';'] :=
    Insert.reads_stringValue (hmap fun p hp => (hinsert p hp).stands) hf
      ⟨.semicolon, by decide, [], rfl⟩
  have hheight : value.height < maxNesting := by
    have hinserts := Insert.height_children (m := maxNesting - 3)
      (hmap fun p hp => by have := (hinsert p hp).height; omega) ('\x22' :: first)
    simp only [value, Forest.height, maxNesting] at hinserts ⊢
    omega
  refine sole?_of_readsBack o ?_ ⟨'x', by simp [assigning], by decide⟩ ?_
    (reads_assigning o hopens hread)
  · refine String.toList_injective ?_
    show _ = (assigning value).chars
    simp [assigns, assigning, hchars]
  · simpa [assigning, Forest.height, Forest.ofData, value] using hheight

/-- The text `"a%x.x. %\x7b x + 1 \x7d"`, in which blanks stand around the expression. -/
theorem interpolated_read_mixed :
    let o : Options := {}
    let inside : Options := { o with spacedCalls := false }
    let pieces : List Piece :=
      [⟨.named variableName [variableName], ['.', ' ']⟩, ⟨.braced " x + 1 ", []⟩]
    (∀ c ∈ ['a'], isPlainText '\x22' c = true) ∧ (∀ p ∈ pieces, p.Fits inside) ∧
    ∃ insert : Piece → Insert, (∀ p ∈ pieces, p.Becomes inside (insert p)) ∧
      (Parsed.ofSource o (assigns (interpolated ['a'] pieces))).sole?.map (·.unplaced) =
        some (assignedString (Insert.children ['\x22', 'a'] (pieces.map insert))) := by
  intro o inside pieces
  have hf : ∀ c ∈ ['a'], isPlainText '\x22' c = true := by simp [isPlainText]
  have hends : EndsPath ['.', ' '] := by
    refine ⟨⟨apart_cons (by decide) _, fun c cs he => ?_⟩, by decide, by decide⟩
    obtain ⟨rfl, -⟩ := List.cons.inj (List.cons.inj he).2
    decide
  -- The one assignment is evaluated; everything else is read off its text.
  have hassigns : ∃ s, Assigns inside " x + 1 " s ∧ s.children.height + 2 < maxNesting := by
    have hsole : ((Parsed.ofSource inside (assigns " x + 1 ")).sole?.any fun s =>
        s.kind == .assignment && decide (s.children.height + 2 < maxNesting)) = true := by cbv
    have hlast :
        (tokenize (assigns " x + 1 ")).getLast?.all (·.kind == .mark .semicolon) = true := by cbv
    obtain ⟨s, hs, hkind⟩ := (Option.any_eq_true _ _).1 hsole
    obtain ⟨hkind, hheight⟩ := Bool.and_eq_true_iff.1 hkind
    refine ⟨s, ⟨by simp [isInner], hs, beq_iff_eq.1 hkind, fun t ht => ?_⟩,
      of_decide_eq_true hheight⟩
    exact beq_iff_eq.1 ((Option.all_eq_true _ _).1 hlast t ht)
  have hp : ∀ p ∈ pieces, p.Fits inside := by
    refine List.forall_mem_cons.2 ⟨⟨by simp [isPlainText], fun _ _ _ => hends, ?_⟩,
      List.forall_mem_cons.2 ⟨⟨by simp, ?_, fun value hvalue => ?_⟩, List.forall_mem_nil _⟩⟩
    · intro value hvalue
      cases hvalue
    · intro name others hnamed
      cases hnamed
    · cases hvalue
      exact hassigns
  exact ⟨hf, hp, interpolated_read o hf hp⟩

/-- Behind the first semicolon a comment hides the second one in an assignment, and the brace in a
placeholder. A blank in front of an expression belongs to what is around it. -/
theorem not_interpolated_read :
    ((∀ c ∈ "1;//".toList, isInner c = true) ∧
      (Parsed.ofSource { spacedCalls := false } (assigns "1;//")).sole?.any
        (·.kind == .assignment) = true ∧
      (Parsed.ofSource {} (assigns (interpolated [] [⟨.braced "1;//", []⟩]))).errors ≠ []) ∧
    (∀ c ∈ " 1".toList, isInner c = true) ∧
      (Parsed.ofSource { spacedCalls := false } (assigns " 1")).sole?.any
        (·.kind == .assignment) = true ∧
      (Parsed.ofSource {} (assigns (interpolated [] [⟨.braced " 1", []⟩]))).sole?.map (·.unplaced) =
        some (assignedString (.data .stringChunk "\x22" (.data .punctuation "%"
          (.data .punctuation "\x7b" (.data .whitespace " " (.node .expression none
            (.node .number none (.ofData .number "1") .nil)
            (.data .punctuation "\x7d" (.ofData .stringChunk "\x22")))))))) := by
  have herrors :
      (Parsed.ofSource {} (assigns (interpolated [] [⟨.braced "1;//", []⟩]))).errors.isEmpty =
        false := by cbv
  exact ⟨⟨by simp [isInner], by cbv, fun hn => by simp [hn] at herrors⟩, by simp [isInner], by cbv,
    by cbv⟩

end Heddle
