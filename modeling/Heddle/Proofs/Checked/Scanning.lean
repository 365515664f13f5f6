import Heddle.Proofs.Checked.Steps
import Heddle.Proofs.Token.Pieces

/-!
# Scanning in checked steps

`Lexeme.scan` says what the first token of a text is. Here it is found by a scanner that moves along
the text character by character and counts every move, with the counters, the differences and the
pieces that this takes: the depth of the braces of a placeholder, the tags of an embedded block.
**Where all of the text can be counted no step is refused, and the scanner arrives behind the token
that `Lexeme.scan` gives** (`Checked.scan_eq`).

Each reader of `Heddle.Token.Lexeme` has its checked form here and one lemma that says where that
arrives.
-/

set_option autoImplicit false

namespace Heddle

open Text

/-- The kind of a lexeme and the scanner behind it, when it begins at `p`. Every lemma below says
of a checked reader that it arrives there for the lexeme which the plain reader gives. -/
def Lexeme.arrival (l : Lexeme) (p : Position) : TokenKind × Checked.Scanner :=
  (l.kind, ⟨p.past l.text, l.rest⟩)

namespace Checked

/-! ## Words and numbers -/

/-- A run of one class. -/
def run (kind : TokenKind) (member : Char → Bool) (s : Scanner) :
    Checked (TokenKind × Scanner) := do
  return (kind, ← advanceWhile member s.place s.rest)

/-- A point with the digits behind it, if at least one digit follows the point. Without a digit
the point is left alone, as it may be an operator. -/
def fraction (digit : Char → Bool) (s : Scanner) : Checked (Bool × Scanner) :=
  if s.rest.head? = some '.' && s.rest.tail.head?.any digit then do
    let s ← s.advance
    return (true, ← advanceWhile digit s.place s.rest)
  else .ok (false, s)

/-- The percent sign behind a number, and the form that follows. -/
def percentage (kind : NumberForm → TokenKind) (isFraction : Bool) (s : Scanner) :
    Checked (TokenKind × Scanner) :=
  if s.rest.head? = some '%' then do return (kind .percentage, ← s.advance)
  else .ok (kind (if isFraction then .fraction else .integer), s)

/-- Digits and an optional fraction; the answer says whether there is one. -/
def digits (digit : Char → Bool) (s : Scanner) : Checked (Bool × Scanner) := do
  fraction digit (← advanceWhile digit s.place s.rest)

/-- A number of digits of one sort. -/
def numeral (kind : NumberForm → TokenKind) (digit : Char → Bool) (s : Scanner) :
    Checked (TokenKind × Scanner) := do
  let (isFraction, s) ← digits digit s
  percentage kind isFraction s

/-- A number that begins with a decimal digit. -/
def number (s : Scanner) : Checked (TokenKind × Scanner) :=
  match Lexeme.hexSign? s.rest with
  | some _ => do
    let s ← s.advance
    let s ← s.advance
    run (.hexNumber .integer) isHexDigit s
  | none => numeral .number isDigit s

/-- A run read with a preference for hexadecimal digits. If it is refused, the scanner goes back
to where the run began, and nothing that was counted on the way is kept. -/
def hexRun (s : Scanner) : Checked (TokenKind × Scanner) := do
  let (isFraction, behind) ← digits isHexDigit s
  if behind.rest.head?.any isWord then
    if s.rest.head?.any isDigit then number s else run .word isWord s
  else percentage .hexNumber isFraction behind

variable {p : Position} {cs : List Char}

theorem run_eq (kind : TokenKind) (member : Char → Bool) (h : p.Counts cs) :
    run kind member ⟨p, cs⟩ = .ok ((Lexeme.run kind member cs).arrival p) := by
  rw [run, advanceWhile_eq member h]
  rfl

theorem fraction_eq (digit : Char → Bool) (h : p.Counts cs) :
    fraction digit ⟨p, cs⟩ = .ok (!(Lexeme.fraction digit cs).1.isEmpty,
      ⟨p.past (Lexeme.fraction digit cs).1, (Lexeme.fraction digit cs).2⟩) := by
  unfold Lexeme.fraction
  split
  · rename_i d cs
    split <;> rename_i hd
    · simp only [fraction, List.head?_cons, List.tail_cons, Option.any_some, hd, decide_true,
        Bool.and_self, if_true, advance_cons h, ok_bind, advanceWhile_eq digit h.after, pure_eq]
      rfl
    · simp [fraction, hd]
  · rename_i hne
    rw [fraction, if_neg]
    · rfl
    · intro hc
      obtain ⟨hp, hd⟩ := Bool.and_eq_true_iff.1 hc
      obtain ⟨xs, rfl⟩ := List.head?_eq_some_iff.1 (of_decide_eq_true hp)
      cases xs with
      | nil => cases hd
      | cons d xs => exact hne d xs rfl

theorem digits_eq (digit : Char → Bool) (h : p.Counts cs) :
    digits digit ⟨p, cs⟩ =
      .ok (!(Lexeme.fraction digit (cs.dropWhile digit)).1.isEmpty,
        ⟨(p.past (cs.takeWhile digit)).past (Lexeme.fraction digit (cs.dropWhile digit)).1,
          (Lexeme.fraction digit (cs.dropWhile digit)).2⟩) := by
  rw [digits, advanceWhile_eq digit h, ok_bind, fraction_eq digit (h.dropWhile digit)]

/-- Behind the digits what follows them can be counted. -/
theorem counts_digits (digit : Char → Bool) (h : p.Counts cs) :
    ((p.past (cs.takeWhile digit)).past (Lexeme.fraction digit (cs.dropWhile digit)).1).Counts
      (Lexeme.fraction digit (cs.dropWhile digit)).2 :=
  .past (by rw [Lexeme.fraction_append]; exact h.dropWhile digit)

/-- The form of a number follows from its fraction and from the sign behind it. The lemma speaks
of the place that `digits_eq` arrives at, so that the two compose without a further rewrite. -/
theorem percentage_eq (kind : NumberForm → TokenKind) (digit : Char → Bool) (h : p.Counts cs) :
    percentage kind (!(Lexeme.fraction digit (cs.dropWhile digit)).1.isEmpty)
      ⟨(p.past (cs.takeWhile digit)).past (Lexeme.fraction digit (cs.dropWhile digit)).1,
        (Lexeme.fraction digit (cs.dropWhile digit)).2⟩ =
      .ok ((Lexeme.numeral kind digit cs).arrival p) := by
  have hr := counts_digits digit h
  unfold Lexeme.numeral percentage
  -- Only what is behind the number decides its form.
  generalize Lexeme.fraction digit (cs.dropWhile digit) = pair at hr ⊢
  obtain ⟨part, rest⟩ := pair
  simp only at hr ⊢
  by_cases hc : rest.head? = some '%'
  · obtain ⟨rest, rfl⟩ := List.head?_eq_some_iff.1 hc
    rw [if_pos hc, advance_cons hr]
    simp [Lexeme.arrival]
  · rw [if_neg hc]
    have hform : (if (!part.isEmpty) = true then NumberForm.fraction else .integer) =
        if part.isEmpty then .integer else .fraction := by cases part <;> rfl
    rw [hform]
    generalize (if part.isEmpty then NumberForm.integer else .fraction) = form
    split
    · exact absurd rfl hc
    · simp [Lexeme.arrival]

theorem numeral_eq (kind : NumberForm → TokenKind) (digit : Char → Bool) (h : p.Counts cs) :
    numeral kind digit ⟨p, cs⟩ = .ok ((Lexeme.numeral kind digit cs).arrival p) := by
  rw [numeral, digits_eq digit h, ok_bind]
  exact percentage_eq kind digit h

theorem number_eq (h : p.Counts cs) :
    number ⟨p, cs⟩ = .ok ((Lexeme.number cs).arrival p) := by
  unfold number Lexeme.number
  cases hs : Lexeme.hexSign? cs with
  | none => exact numeral_eq .number isDigit h
  | some pair =>
    obtain ⟨sign, behind⟩ := pair
    unfold Lexeme.hexSign? at hs
    split at hs
    · rename_i x d xs
      split at hs
      · cases hs
        simp only [advance_cons h, advance_cons h.after, ok_bind, run_eq _ _ h.after.after]
        rfl
      · cases hs
    · cases hs

theorem hexRun_eq (h : p.Counts cs) :
    hexRun ⟨p, cs⟩ = .ok ((Lexeme.hexRun cs).arrival p) := by
  rw [hexRun, digits_eq isHexDigit h, ok_bind]
  unfold Lexeme.hexRun
  simp only
  split
  · split
    · exact number_eq h
    · exact run_eq .word isWord h
  · exact percentage_eq .hexNumber isHexDigit h

/-! ## Quoted texts -/

/-- The inside of a braced placeholder, `depth` braces being open. It ends behind the brace that
closes the first one, or in front of the quote that delimits the text. An escaped character is
passed unseen, whatever it is.

The depth is a counter with both its risks: it is raised with a checked sum, and it is lowered
with a checked difference, which would be refused at a closing brace that nothing has opened. -/
def skipBraced (quote : Char) (depth : Nat) (p : Position) : List Char → Checked Scanner
  | [] => .ok ⟨p, []⟩
  | c :: cs =>
    if c = '\\' then do
      let p ← after p c
      match cs with
      | [] => .ok ⟨p, []⟩
      | d :: cs => skipBraced quote depth (← after p d) cs
    else if c = '\x7b' then do
      let depth ← add depth 1
      skipBraced quote depth (← after p c) cs
    else if c = '\x7d' then do
      let depth ← sub depth 1
      let p ← after p c
      if depth = 0 then .ok ⟨p, cs⟩ else skipBraced quote depth p cs
    else if c = quote then .ok ⟨p, c :: cs⟩
    else do skipBraced quote depth (← after p c) cs

/-- The rest of a dotted name. A point belongs to it only if a name goes on behind it, so that a
sentence may end with a placeholder. -/
def skipDotted (p : Position) : List Char → Checked Scanner
  | [] => .ok ⟨p, []⟩
  | c :: cs =>
    if isWord c || (c == '.' && cs.head?.any isNameStart) then do skipDotted (← after p c) cs
    else .ok ⟨p, c :: cs⟩

/-- What stands at a percent sign, at which the scanner is: two signs stand for one and are no
placeholder, a brace and a name begin a placeholder, and any other character is text. -/
def percent (quote : Char) (s : Scanner) : Checked (Option Placeholder × Scanner) :=
  match s.rest.tail.head? with
  | some '%' => do
    let behind ← s.advance
    return (none, ← behind.advance)
  | some '\x7b' => do
    let behind ← s.advance
    let behind ← skipBraced quote 0 behind.place behind.rest
    return (some ⟨s.place, behind.place.byte, true⟩, behind)
  | some c =>
    if isNameStart c then do
      let behind ← s.advance
      let behind ← skipDotted behind.place behind.rest
      return (some ⟨s.place, behind.place.byte, false⟩, behind)
    else do return (none, ← s.advance)
  | none => do return (none, ← s.advance)

/-- The inside of a quoted text and its closing quote, behind the placeholders `found`. Without a
closing quote there is no quoted text.

The rounds are counted, since a round may pass more than one character and the recursion is not on
the text. More rounds than there are characters are a fault, and `quotedBody_eq` shows that it is
not met. -/
def quotedBody (quote : Char) : Nat → List Placeholder → Scanner →
    Checked (Option (List Placeholder) × Scanner)
  | 0, _, _ => .error .endless
  | rounds + 1, found, s =>
    match s.rest with
    | [] => .ok (none, s)
    | c :: _ =>
      if c = '\\' then do
        let s ← s.advance
        quotedBody quote rounds found (← s.advance)
      else if c = '%' then do
        let (placeholder, s) ← percent quote s
        quotedBody quote rounds (found ++ placeholder.toList) s
      else if c = quote then do return (some found, ← s.advance)
      else do quotedBody quote rounds found (← s.advance)

/-- A quoted text, from its opening quote on. There is one round more than there are characters:
the last one finds the end of the source. -/
def quoted (style : QuoteStyle) (s : Scanner) : Checked (TokenKind × Scanner) := do
  let s ← s.advance
  let (found, s) ← quotedBody style.mark (s.rest.length + 1) [] s
  return ((found.map (.quoted style)).getD .invalid, s)

/-- Behind the first brace, with as many braces open as the text shows, no brace closes too much.
The scanner counts the first brace and `Lexeme.braced` does not, hence the successor. The second
hypothesis is the room for the depth, which can grow with every byte. -/
theorem skipBraced_eq (quote : Char) (depth : Nat) (h : p.Counts cs)
    (hd : depth + 1 + byteSize cs < wordBound) :
    skipBraced quote (depth + 1) p cs =
      .ok ⟨p.past (Lexeme.braced quote depth cs).1, (Lexeme.braced quote depth cs).2⟩ := by
  -- The scanner counts the brace that the text counts from, so it is one brace ahead.
  fun_induction Lexeme.braced quote depth cs generalizing p with
  | case1 => rfl
  | case2 depth =>
    rw [skipBraced, if_pos rfl, after_eq h]
    rfl
  | case3 depth c cs inside rest heq ih =>
    rw [byteSize_cons, byteSize_cons] at hd
    rw [skipBraced, if_pos rfl, after_eq h, ok_bind]
    simp only
    rw [after_eq h.after, ok_bind, ih h.after.after (by omega), heq]
    rfl
  -- A brace opens: the depth and the text behind it together have not grown.
  | case4 depth cs inside rest heq _ _ ih =>
    rw [byteSize_cons] at hd
    have hone : Char.utf8Size '\x7b' = 1 := rfl
    rw [skipBraced, if_neg (by decide), if_pos rfl, add_eq (by omega), ok_bind, after_eq h, ok_bind,
      ih h.after (by omega), heq]
    rfl
  -- The first brace is closed, and with it the placeholder.
  | case5 cs =>
    rw [skipBraced, if_neg (by decide), if_neg (by decide), if_pos rfl, sub_eq (Nat.le_refl _),
      ok_bind, after_eq h]
    rfl
  | case6 cs depth inside rest heq _ _ _ ih =>
    rw [byteSize_cons] at hd
    rw [skipBraced, if_neg (by decide), if_neg (by decide), if_pos rfl,
      sub_eq (Nat.le_add_left _ _), ok_bind, after_eq h, ok_bind, Nat.add_sub_cancel,
      if_neg (Nat.succ_ne_zero depth), ih h.after (by omega), heq]
    rfl
  -- The quote ends the text and leaves the placeholder open.
  | case7 depth cs h₁ h₂ ho hc =>
    rw [skipBraced, if_neg (Lexeme.ne_backslash h₁ h₂), if_neg ho, if_neg hc, if_pos rfl]
    rfl
  | case8 depth c cs h₁ h₂ ho hc hq inside rest heq ih =>
    rw [byteSize_cons] at hd
    rw [skipBraced, if_neg (Lexeme.ne_backslash h₁ h₂), if_neg ho, if_neg hc, if_neg hq, after_eq h,
      ok_bind, ih h.after (by omega), heq]
    rfl

/-- The braces of a placeholder are counted from its opening brace on, none being open there. -/
theorem skipBraced_zero (quote : Char) (h : p.Counts ('\x7b' :: cs)) :
    skipBraced quote 0 p ('\x7b' :: cs) =
      .ok ⟨p.past ('\x7b' :: (Lexeme.braced quote 0 cs).1), (Lexeme.braced quote 0 cs).2⟩ := by
  have hsize := h.size_lt
  rw [byteSize_cons] at hsize
  have hone : Char.utf8Size '\x7b' = 1 := rfl
  rw [skipBraced, if_neg (by decide), if_pos rfl, add_eq (by omega), ok_bind, after_eq h, ok_bind,
    skipBraced_eq quote 0 h.after (by omega)]
  rfl

theorem skipDotted_eq (h : p.Counts cs) :
    skipDotted p cs = .ok ⟨p.past (Lexeme.dotted cs).1, (Lexeme.dotted cs).2⟩ := by
  fun_induction Lexeme.dotted cs generalizing p with
  | case1 => rfl
  | case2 c cs hc name rest heq ih =>
    rw [skipDotted, if_pos hc, after_eq h, ok_bind, ih h.after, heq]
    rfl
  | case3 c cs hc =>
    rw [skipDotted, if_neg hc]
    rfl

/-- At a percent sign both readers see the same, and what is passed is the text that
`Lexeme.percent` takes. Where it begins a placeholder, its bounds are the places of the scanner.
-/
theorem percent_eq (quote : Char) (h : p.Counts ('%' :: cs)) :
    percent quote ⟨p, '%' :: cs⟩ =
      .ok ((Lexeme.percent quote cs).placeholder.map fun isBraced =>
          ⟨p, (p.past (Lexeme.percent quote cs).taken).byte, isBraced⟩,
        ⟨p.past (Lexeme.percent quote cs).taken, (Lexeme.percent quote cs).left⟩) := by
  unfold Lexeme.percent
  split
  · simp only [percent, List.tail_cons, List.head?_cons, advance_cons h, ok_bind,
      advance_cons h.after, pure_eq]
    rfl
  · simp only [percent, List.tail_cons, List.head?_cons, advance_cons h, ok_bind,
      skipBraced_zero quote h.after, pure_eq]
    rfl
  · split <;> rename_i hc
    · simp [percent, advance_cons h, skipDotted_eq h.after, hc]
    · simp [percent, advance_cons h, hc]
  · simp [percent, advance_cons h]

/-- Where the quoted text ends: behind its closing quote, or behind all there is. It puts what was
`found` so far in front of what the plain reader finds in the rest. -/
def bodyEnd (found : List Placeholder) (p : Position) (cs : List Char) :
    Option (List Placeholder × List Char × List Char) → Option (List Placeholder) × Scanner
  | some (ps, text, rest) => (some (found ++ ps), ⟨p.past text, rest⟩)
  | none => (none, ⟨p.past cs, []⟩)

/-- What was found first and the text it was found in come in front. The plain reader puts the
results together behind the recursion, and the scanner keeps them while it goes: this is the step
between the two. -/
theorem bodyEnd_behind (found qs : List Placeholder) (p : Position) (xs ys : List Char)
    (r : Option (List Placeholder × List Char × List Char)) :
    bodyEnd (found ++ qs) (p.past xs) ys r =
      bodyEnd found p (xs ++ ys) (r.map fun (ps, text, rest) => (qs ++ ps, xs ++ text, rest)) := by
  cases r with
  | none => simp [bodyEnd]
  | some r => simp [bodyEnd]

/-- **The inside of a quoted text is scanned as the plain reader reads it**, and a round is left
whenever one is needed. The induction is on the rounds, and the cases are those of
`Lexeme.quotedBody?`, one for each way in which a text may go on. -/
theorem quotedBody_eq (quote : Char) (found : List Placeholder) {rounds : Nat}
    (h : p.Counts cs) (hr : cs.length < rounds) :
    quotedBody quote rounds found ⟨p, cs⟩ =
      .ok (bodyEnd found p cs (Lexeme.quotedBody? quote p cs)) := by
  induction rounds generalizing p cs found with
  | zero => omega
  | succ n ih =>
    -- The scanner passes `xs`, finds `qs` in it and goes on behind it.
    have again (qs : List Placeholder) (xs ys : List Char) (h : p.Counts (xs ++ ys))
        (hl : ys.length < n) : quotedBody quote n (found ++ qs) ⟨p.past xs, ys⟩ =
          .ok (bodyEnd found p (xs ++ ys) ((Lexeme.quotedBody? quote (p.past xs) ys).map
            fun (ps, text, rest) => (qs ++ ps, xs ++ text, rest))) := by
      rw [ih (found ++ qs) h.past hl, bodyEnd_behind]
    have pass := again []
    simp only [List.append_nil, List.nil_append] at pass
    fun_cases Lexeme.quotedBody? quote p cs with
    | case1 => rfl
    -- A backslash is the last character: there is nothing that it escapes.
    | case2 =>
      rw [quotedBody]
      dsimp only
      rw [if_pos rfl, advance_cons h, ok_bind, advance_nil, ok_bind]
      have := pass ['\\'] [] h (Nat.lt_of_succ_lt_succ hr)
      rwa [Lexeme.quotedBody?] at this
    | case3 c cs =>
      rw [quotedBody]
      dsimp only
      rw [if_pos rfl, advance_cons h, ok_bind, advance_cons h.after, ok_bind]
      exact pass ['\\', c] cs h (Nat.lt_of_succ_lt_succ (Nat.lt_of_succ_lt hr))
    -- A percent sign may take several characters, so the rounds are compared by length.
    | case4 cs =>
      have hl : (Lexeme.percent quote cs).left.length < n :=
        Nat.lt_of_le_of_lt (Lexeme.length_left_percent_le quote cs) (Nat.lt_of_succ_lt_succ hr)
      have hp := Lexeme.percent_append quote cs
      rw [quotedBody]
      dsimp only
      rw [if_neg (by decide), if_pos rfl, percent_eq quote h, ok_bind]
      have := again ((Lexeme.percent quote cs).placeholder.map fun isBraced =>
        ⟨p, (p.past (Lexeme.percent quote cs).taken).byte, isBraced⟩).toList _ _ (hp ▸ h) hl
      rwa [hp] at this
    | case5 cs h₁ h₂ hp =>
      rw [quotedBody]
      dsimp only
      rw [if_neg (Lexeme.ne_backslash h₁ h₂), if_neg hp, if_pos rfl, advance_cons h, ok_bind,
        pure_eq, bodyEnd, List.append_nil]
      rfl
    | case6 c cs h₁ h₂ hp hq =>
      rw [quotedBody]
      dsimp only
      rw [if_neg (Lexeme.ne_backslash h₁ h₂), if_neg hp, if_neg hq, advance_cons h, ok_bind]
      exact pass [c] cs h (Nat.lt_of_succ_lt_succ hr)

/-- A quoted text, or the invalid rest of the source where the closing quote is missing. -/
theorem quoted_eq (style : QuoteStyle) (h : p.Counts (style.mark :: cs)) :
    quoted style ⟨p, style.mark :: cs⟩ = .ok ((Lexeme.quoted style p cs).arrival p) := by
  rw [quoted, advance_cons h, ok_bind, quotedBody_eq style.mark [] h.after (Nat.lt_succ_self _),
    ok_bind, Lexeme.quoted]
  cases Lexeme.quotedBody? style.mark (p.after style.mark) cs with
  | none => rfl
  | some r => rfl

/-! ## Comments, raw texts and embedded blocks -/

/-- The rest of a block comment, and whether it is closed. Block comments do not nest. -/
def commentBody (p : Position) : List Char → Checked (Bool × Scanner)
  | [] => .ok (false, ⟨p, []⟩)
  | c :: cs => do
    let p ← after p c
    if c = '*' then
      match cs with
      | '/' :: cs => return (true, ⟨← after p '/', cs⟩)
      | cs => commentBody p cs
    else commentBody p cs

/-- The rest of a raw text, and whether it is closed. -/
def rawBody (p : Position) : List Char → Checked (Bool × Scanner)
  | [] => .ok (false, ⟨p, []⟩)
  | c :: cs => do
    let p ← after p c
    if c = '\x60' then return (true, ⟨p, cs⟩) else rawBody p cs

/-- The byte at which `tag` occurs first. The result counts from the beginning of the text in
which it is looked for, and is turned into a place of the source by `foreignFrom`. -/
def find? (tag : List Char) : List Char → Option Nat
  | [] => if tag.isEmpty then some 0 else none
  | c :: cs =>
    if tag.isPrefixOf (c :: cs) then some 0 else (find? tag cs).map (c.utf8Size + ·)

/-- Moves up to the byte `stop`. A stop behind the end of the text would never be reached, and is
the fault of a loop that does not end. -/
def advanceTo (stop : Nat) (p : Position) : List Char → Checked Scanner
  | [] => if p.byte < stop then .error .endless else .ok ⟨p, []⟩
  | c :: cs =>
    if p.byte < stop then do advanceTo stop (← after p c) cs else .ok ⟨p, c :: cs⟩

/-- The language of an embedded block, if the text behind a `<` goes on as its opening tag. The
name is as long as there are ASCII letters, which are one byte each, so that both pieces are cut
between characters. -/
def language? (inside : List Char) : Checked (Option (List Char)) := do
  let size := byteSize (inside.takeWhile isAsciiLetter)
  if size = 0 then return none
  let behind ← piece size (byteSize inside) inside
  if behind.head? = some '>' then return some (← piece 0 size inside) else return none

/-- The rest of an embedded block whose language is known, from the `<` of its opening tag on.
Behind the `<`, at the byte `first`, stands `inside`.

The place of the closing tag is computed by three sums from an offset inside of a piece. That none
of them is too large follows from the closing tag being part of the text, not from the text being
long enough. -/
def foreignFrom (language : List Char) (first : Nat) (inside : List Char) (s : Scanner) :
    Checked (Option (TokenKind × Scanner)) := do
  let closing := '<' :: '/' :: language ++ ['>']
  let start ← add (byteSize language) 1
  let body ← piece start (byteSize inside) inside
  match find? closing body with
  | none => return none
  | some found => do
    let stop ← add found start
    let stop ← add (← add first stop) (byteSize closing)
    return some (.foreign (String.ofList language), ← advanceTo stop s.place s.rest)

/-- An embedded block, from the `<` of its opening tag on. -/
def foreign? (s : Scanner) : Checked (Option (TokenKind × Scanner)) := do
  let first ← add s.place.byte 1
  let inside ← piece 1 (byteSize s.rest) s.rest
  match ← language? inside with
  | some language => foreignFrom language first inside s
  | none => return none

theorem commentBody_eq (h : p.Counts cs) :
    commentBody p cs = .ok (match Lexeme.commentBody? cs with
      | some (text, rest) => (true, ⟨p.past text, rest⟩)
      | none => (false, ⟨p.past cs, []⟩)) := by
  fun_induction Lexeme.commentBody? cs generalizing p with
  | case1 => rfl
  | case2 cs =>
    rw [commentBody, after_eq h, ok_bind, if_pos rfl]
    dsimp only
    rw [after_eq h.after]
    rfl
  | case3 c cs hc ih =>
    have hgo : commentBody p (c :: cs) = commentBody (p.after c) cs := by
      rw [commentBody, after_eq h, ok_bind]
      split
      · split
        · exact (hc _ ‹_› rfl).elim
        · rfl
      · rfl
    rw [hgo, ih h.after]
    cases Lexeme.commentBody? cs with
    | none => rfl
    | some r => rfl

theorem rawBody_eq (h : p.Counts cs) :
    rawBody p cs = .ok (match Lexeme.rawBody? cs with
      | some (text, rest) => (true, ⟨p.past text, rest⟩)
      | none => (false, ⟨p.past cs, []⟩)) := by
  fun_induction Lexeme.rawBody? cs generalizing p with
  | case1 => rfl
  | case2 cs =>
    rw [rawBody, after_eq h, ok_bind, if_pos rfl]
    rfl
  | case3 c cs hc ih =>
    rw [rawBody, after_eq h, ok_bind, if_neg hc, ih h.after]
    cases Lexeme.rawBody? cs with
    | none => rfl
    | some r => rfl

/-- The search ends where the text in front of the tag does. The plain reader takes the text
through the tag, so the tag is taken off again. -/
theorem find?_eq (tag cs : List Char) :
    find? tag cs =
      (Lexeme.throughTag? tag cs).map fun (text, _) => byteSize text - byteSize tag := by
  fun_induction Lexeme.throughTag? tag cs with
  | case1 h => simp [find?, h]
  | case2 h => simp [find?, h]
  | case3 c cs h => simp [find?, h]
  | case4 c cs h ih =>
    rw [find?, if_neg h, ih]
    cases hr : Lexeme.throughTag? tag cs with
    | none => rfl
    | some r =>
      obtain ⟨content, hc⟩ := Lexeme.throughTag?_spec hr
      simp only [Option.map_some, hc, byteSize_cons, byteSize_append, Nat.add_sub_cancel,
        ← Nat.add_assoc]

/-- The scanner stops behind any part of the text whose last byte it is sent to. -/
theorem advanceTo_eq {xs ys : List Char} (h : p.Counts (xs ++ ys)) :
    advanceTo (p.byte + byteSize xs) p (xs ++ ys) = .ok ⟨p.past xs, ys⟩ := by
  induction xs generalizing p with
  | nil =>
    cases ys with
    | nil => simp [advanceTo]
    | cons y ys => simp [advanceTo]
  | cons x xs ih =>
    have hpos := x.utf8Size_pos
    have hbyte : p.byte + byteSize (x :: xs) = (p.after x).byte + byteSize xs := by
      rw [byteSize_cons, Position.byte_after, Nat.add_assoc]
    rw [List.cons_append, advanceTo, if_pos (by rw [byteSize_cons]; omega), after_eq h, ok_bind,
      hbyte, ih h.after]
    rfl

theorem language?_eq (cs : List Char) :
    language? cs = .ok (
      if !(cs.takeWhile isAsciiLetter).isEmpty && (cs.dropWhile isAsciiLetter).head? = some '>'
      then some (cs.takeWhile isAsciiLetter) else none) := by
  have hcs := @List.takeWhile_append_dropWhile _ isAsciiLetter cs
  rw [language?]
  generalize cs.takeWhile isAsciiLetter = name at hcs ⊢
  generalize cs.dropWhile isAsciiLetter = behind at hcs ⊢
  subst hcs
  cases name with
  | nil => rfl
  | cons x xs =>
    have hsize : ¬ byteSize (x :: xs) = 0 := by
      have := x.utf8Size_pos
      rw [byteSize_cons]
      omega
    have hbehind := piece_eq (x :: xs) behind []
    have hname := piece_eq [] (x :: xs) behind
    rw [List.append_nil] at hbehind
    rw [List.nil_append, byteSize_nil] at hname
    rw [if_neg hsize, hbehind, ok_bind, hname]
    by_cases hc : behind.head? = some '>' <;> simp [hc]

/-- **An embedded block is left behind its closing tag.** The source is written as the opening tag
and the `body` behind it. Where the closing tag is found, the body is its content, the tag and a
rest, and the room for the sums is read off these parts. -/
theorem foreignFrom_eq {language body : List Char}
    (h : p.Counts ('<' :: (language ++ '>' :: body))) :
    foreignFrom language (p.byte + 1) (language ++ '>' :: body)
        ⟨p, '<' :: (language ++ '>' :: body)⟩ =
      .ok ((Lexeme.throughTag? ('<' :: '/' :: language ++ ['>']) body).map fun (text, rest) =>
        (Lexeme.mk (.foreign (String.ofList language)) ('<' :: language ++ '>' :: text)
          rest).arrival p) := by
  have hclose : byteSize ('<' :: '/' :: language ++ ['>']) = 3 + byteSize language := by
    rw [byteSize_append]
    show 1 + (1 + _) + 1 = _
    omega
  have hroom := h.byte
  rw [byteSize_cons, byteSize_append, byteSize_cons] at hroom
  have hone : Char.utf8Size '<' = 1 ∧ Char.utf8Size '>' = 1 := ⟨rfl, rfl⟩
  -- The piece behind the opening tag is the body, on which the search is made.
  have hbody : piece (byteSize language + 1) (byteSize (language ++ '>' :: body))
      (language ++ '>' :: body) = .ok body := by
    have hp := piece_eq (language ++ ['>']) body []
    rw [List.append_nil, byteSize_append language ['>'], List.append_assoc] at hp
    exact hp
  rw [foreignFrom]
  dsimp only
  rw [add_eq (by omega), ok_bind, hbody, ok_bind, find?_eq]
  cases hr : Lexeme.throughTag? ('<' :: '/' :: language ++ ['>']) body with
  | none => rfl
  | some r =>
    obtain ⟨text, rest⟩ := r
    -- What is taken ends with the tag, and the rest of the body follows it.
    obtain ⟨content, rfl⟩ := Lexeme.throughTag?_spec hr
    obtain rfl := Lexeme.throughTag?_append hr
    simp only [byteSize_append, hclose] at hroom
    have hmove := @advanceTo_eq p
      ('<' :: language ++ '>' :: (content ++ ('<' :: '/' :: language ++ ['>']))) rest
      (by simpa using h)
    -- The three sums together are the place behind everything that was taken.
    have hstop : p.byte +
        byteSize ('<' :: language ++ '>' :: (content ++ ('<' :: '/' :: language ++ ['>']))) =
        p.byte + 1 + (byteSize content + (byteSize language + 1)) + (3 + byteSize language) := by
      rw [byteSize_append, byteSize_cons, byteSize_cons, byteSize_append, hclose]
      omega
    rw [hstop] at hmove
    simp only [Option.map_some, byteSize_append, hclose, Nat.add_sub_cancel]
    rw [add_eq (by omega), ok_bind, add_eq (by omega), ok_bind, add_eq (by omega), ok_bind]
    simp only [List.cons_append, List.append_assoc] at hmove ⊢
    rw [hmove]
    rfl

/-- What a `<` begins as an embedded block, if it begins one: letters, a `>` behind them, and a
closing tag with the same letters later on. -/
theorem foreign?_eq (h : p.Counts ('<' :: cs)) :
    foreign? ⟨p, '<' :: cs⟩ = .ok ((Lexeme.foreign? cs).map (·.arrival p)) := by
  have hcs := @List.takeWhile_append_dropWhile _ isAsciiLetter cs
  have hinside : piece 1 (byteSize ('<' :: cs)) ('<' :: cs) = .ok cs := by
    have hp := piece_eq ['<'] cs []
    rwa [List.append_nil] at hp
  have hroom := h.byte
  rw [byteSize_cons, show Char.utf8Size '<' = 1 from rfl] at hroom
  unfold foreign? Lexeme.foreign?
  dsimp only
  rw [add_eq (by omega), ok_bind, hinside, ok_bind, language?_eq, ok_bind]
  generalize cs.takeWhile isAsciiLetter = name at hcs ⊢
  generalize cs.dropWhile isAsciiLetter = behind at hcs ⊢
  subst hcs
  cases name with
  | nil => rfl
  | cons x xs =>
    cases behind with
    | nil => rfl
    | cons c body =>
      by_cases hc : c = '>'
      · subst hc
        refine (foreignFrom_eq h).trans ?_
        simp only [List.isEmpty_cons, Option.map_map]
        rfl
      · simp [hc]

/-! ## Marks, and what they begin -/

/-- One to three points, each looked for one character ahead. -/
def points (s : Scanner) : Checked (TokenKind × Scanner) := do
  let s ← s.advance
  if s.rest.head? = some '.' then
    let s ← s.advance
    if s.rest.head? = some '.' then return (.mark .ellipsis, ← s.advance)
    else return (.mark .doubleDot, s)
  else return (.mark .dot, s)

/-- A mark, the longer reading first: the second character is only passed if the two form a mark.
-/
def operator (c : Char) (s : Scanner) : Checked (TokenKind × Scanner) := do
  let s ← s.advance
  match s.rest.head?.bind (Lexeme.pairMark? c) with
  | some m => return (.mark m, ← s.advance)
  | none => return (((Lexeme.singleMark? c).map .mark).getD .invalid, s)

/-- What a slash begins: a comment or the mark. A block comment without an end is an invalid token
that reaches to the end of the source. -/
def slash (s : Scanner) : Checked (TokenKind × Scanner) := do
  let s ← s.advance
  if s.rest.head? = some '/' then run .lineComment (· != '\n') s
  else if s.rest.head? = some '*' then
    let s ← s.advance
    let (closed, s) ← commentBody s.place s.rest
    return (if closed then .blockComment else .invalid, s)
  else return (.mark .slash, s)

/-- What a `<` begins: an embedded block or a comparison. The scanner is still at the `<` when
there is no embedded block, as nothing was passed to find that out. -/
def angle (s : Scanner) : Checked (TokenKind × Scanner) := do
  match ← foreign? s with
  | some block => return block
  | none =>
    let s ← s.advance
    if s.rest.head? = some '=' then return (.mark .lessEqual, ← s.advance)
    else return (.mark .less, s)

/-- A raw text, in which a backslash is nothing special. -/
def raw (s : Scanner) : Checked (TokenKind × Scanner) := do
  let s ← s.advance
  let (closed, s) ← rawBody s.place s.rest
  return (if closed then .rawText else .invalid, s)

/-- A text that does not go on with the character. -/
theorem head?_ne {c : Char} (h : ∀ ds, cs = c :: ds → False) : cs.head? ≠ some c := fun hc => by
  obtain ⟨ds, rfl⟩ := List.head?_eq_some_iff.1 hc
  exact h ds rfl

theorem points_eq (h : p.Counts ('.' :: cs)) :
    points ⟨p, '.' :: cs⟩ = .ok ((Lexeme.points cs).arrival p) := by
  rw [points, advance_cons h, ok_bind]
  fun_cases Lexeme.points cs with
  | case1 cs => simp [advance_cons h.after, advance_cons h.after.after, Lexeme.arrival]
  | case2 cs hne => simp [advance_cons h.after, head?_ne hne, Lexeme.arrival]
  | case3 cs _ hne => simp [head?_ne hne, Lexeme.arrival]

theorem operator_eq {c : Char} (h : p.Counts (c :: cs)) :
    operator c ⟨p, c :: cs⟩ = .ok ((Lexeme.operator c cs).arrival p) := by
  rw [operator, advance_cons h, ok_bind]
  cases cs with
  | nil => rfl
  | cons d cs =>
    rw [Lexeme.operator]
    dsimp only [List.head?_cons, Option.bind_some]
    cases Lexeme.pairMark? c d with
    | none => rfl
    | some m => simp [advance_cons h.after, Lexeme.arrival]

theorem slash_eq (h : p.Counts ('/' :: cs)) :
    slash ⟨p, '/' :: cs⟩ = .ok ((Lexeme.slash cs).arrival p) := by
  rw [slash, advance_cons h, ok_bind]
  dsimp only
  by_cases h₁ : cs.head? = some '/'
  · rw [if_pos h₁]
    obtain ⟨cs, rfl⟩ := List.head?_eq_some_iff.1 h₁
    rw [run_eq _ _ h.after]
    rfl
  by_cases h₂ : cs.head? = some '*'
  · rw [if_neg h₁, if_pos h₂]
    obtain ⟨cs, rfl⟩ := List.head?_eq_some_iff.1 h₂
    rw [advance_cons h.after, ok_bind, commentBody_eq h.after.after, ok_bind]
    unfold Lexeme.slash
    cases hc : Lexeme.commentBody? cs with
    | none => simp [hc, Lexeme.arrival]
    | some r => simp [hc, Lexeme.arrival]
  · rw [if_neg h₁, if_neg h₂]
    unfold Lexeme.slash
    split
    · exact absurd rfl h₁
    · exact absurd rfl h₂
    · rfl

theorem angle_eq (h : p.Counts ('<' :: cs)) :
    angle ⟨p, '<' :: cs⟩ = .ok ((Lexeme.angle cs).arrival p) := by
  rw [angle, foreign?_eq h, ok_bind]
  unfold Lexeme.angle
  cases Lexeme.foreign? cs with
  | some l => rfl
  | none =>
    dsimp only [Option.map_none]
    rw [advance_cons h, ok_bind]
    dsimp only
    by_cases h₁ : cs.head? = some '='
    · rw [if_pos h₁]
      obtain ⟨cs, rfl⟩ := List.head?_eq_some_iff.1 h₁
      rw [advance_cons h.after]
      rfl
    · rw [if_neg h₁]
      split
      · exact absurd rfl h₁
      · rfl

theorem raw_eq (h : p.Counts ('\x60' :: cs)) :
    raw ⟨p, '\x60' :: cs⟩ = .ok ((Lexeme.raw cs).arrival p) := by
  rw [raw, advance_cons h, ok_bind, rawBody_eq h.after, ok_bind, Lexeme.raw]
  cases Lexeme.rawBody? cs with
  | none => rfl
  | some r => rfl

/-! ## The first token -/

/-- The kind of the token that the character `c` begins, at which the scanner is. The character
decides which reader goes on; with a preference for hexadecimal digits, letters may begin a number
as well. -/
def scan (preferHex : Bool) (c : Char) (s : Scanner) : Checked (TokenKind × Scanner) :=
  if isBlank c then run .blank isBlank s
  else if isNameStart c then
    if preferHex && c != '_' then hexRun s else run .word isWord s
  else if isDigit c then
    if preferHex then hexRun s else number s
  else if c = '\x22' then quoted .double s
  else if c = '\x27' then quoted .single s
  else if c = '\x60' then raw s
  else if c = '/' then slash s
  else if c = '<' then angle s
  else if c = '.' then points s
  else operator c s

/-- **No step of scanning is refused**, and the scanner arrives behind the first token. This is
all that the cursor needs to know of the readers above. -/
theorem scan_eq (preferHex : Bool) {c : Char} (h : p.Counts (c :: cs)) :
    scan preferHex c ⟨p, c :: cs⟩ = .ok ((Lexeme.scan preferHex p c cs).arrival p) := by
  unfold scan Lexeme.scan
  split
  · exact run_eq .blank isBlank h
  split
  · split
    · exact hexRun_eq h
    · exact run_eq .word isWord h
  split
  · split
    · exact hexRun_eq h
    · exact number_eq h
  split
  · subst c; exact quoted_eq .double h
  split
  · subst c; exact quoted_eq .single h
  split
  · subst c; exact raw_eq h
  split
  · subst c; exact slash_eq h
  split
  · subst c; exact angle_eq h
  split
  · subst c; exact points_eq h
  · exact operator_eq h

end Checked

end Heddle
