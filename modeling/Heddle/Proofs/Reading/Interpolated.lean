import Heddle.Proofs.Reading.Conservation
import Heddle.Proofs.Token.Placeholders

/-!
# The pieces of a quoted text

A quoted text is cut at bytes: its placeholders, the plain text between them and the closing quote
are slices of one token, and where a slice begins depends on where the reading of the placeholder
in front of it stopped. Every property of what is read there would have to begin by finding the
slices. `Interpolates` finds them once. **What is read of a quoted text is a list of placeholders,
each behind a piece of plain text, with a last piece that ends with the quote**, and of each it is
said which characters of the token stand in front of it.

A property of quoted texts is then an induction over the pieces: extents, spellings, the number of
errors and the places of errors are proved in this way, where they are asked for.
-/

set_option autoImplicit false

namespace Heddle

open Text

namespace Attempt

variable {file : Option String} {read : Bool → Tape → Attempt}

/-- What is read of the quoted text `t` from behind the characters `xs` on. The placeholders that
are in it are those which no earlier one has read past, and each of them is read from its percent
sign up to the closing quote. -/
inductive Interpolates (file : Option String) (read : Bool → Tape → Attempt) (t : Token)
    (quote : Char) : List Char → Trace → Prop where
  /-- The plain text at the end holds the quote, so it is never empty. -/
  | last {xs ys : List Char} (ht : t.chars = xs ++ ys ++ [quote]) :
      Interpolates file read t quote xs (piece .stringChunk (ys ++ [quote]))
  | next {xs lead cs : List Char} {p : Placeholder} {reach : Nat} {rest : Trace}
      (hp : p ∈ t.kind.placeholders?.getD [])
      (ht : t.chars = xs ++ lead ++ ('%' :: cs) ++ [quote])
      (hplace : p.position = t.position.past (xs ++ lead))
      (hbrace : p.braced = true → cs.head? = some '\x7b')
      (hslice : t.slice? p.position.byte (t.stop - 1) = some ('%' :: cs))
      (hrest : Interpolates file read t quote
        (xs ++ lead ++ (placeholder file (read p.braced) t reach p).trace.text) rest) :
      Interpolates file read t quote xs (pieceIfAny .stringChunk lead ++
        ((placeholder file (read p.braced) t reach p).trace ++ rest))

/-- The pieces from a place in the body on. The placeholders are those that are still to come, and
the ones that begin in front of the place are passed over. -/
theorem interpolates_interpolated
    (hr : ∀ isBraced window, window.Lexed → Conserves window (read isBraced window)) {t : Token}
    {body : List Char} {quote : Char} (hc : t.chars = body ++ [quote]) (hq : quote.utf8Size = 1)
    (ps : List Placeholder)
    (hps : ∀ p ∈ ps, p ∈ t.kind.placeholders?.getD [] ∧ p.StandsIn t.position body ∧
      Boundary t.position.byte body p.stop)
    {start : Nat} (reach : Nat) {xs ys : List Char} (hbody : body = xs ++ ys)
    (hstart : start = t.position.byte + byteSize xs) :
    Interpolates file read t quote xs (interpolated file read t start reach ps) := by
  -- The induction is on the placeholders that are left, with the place in the body arbitrary:
  -- where the next round begins is up to the reading of the placeholder.
  induction ps generalizing start reach xs ys with
  | nil =>
    have ht : t.chars = xs ++ ys ++ [quote] := by rw [hc, hbody]
    have hs : t.slice? start t.stop = some (ys ++ [quote]) := by
      have hpieces : t.chars = xs ++ (ys ++ [quote]) ++ [] := by
        rw [ht, List.append_assoc, List.append_nil]
      rw [hstart, Token.stop, ← Token.byteSize_chars, ht, List.append_assoc]
      exact Token.slice?_eq hpieces
    rw [interpolated, cut, hs]
    exact .last ht
  | cons p ps ih =>
    obtain ⟨hp, hstands, hstop⟩ := hps p List.mem_cons_self
    replace ih := @ih fun q hm => hps q (List.mem_cons_of_mem _ hm)
    rw [interpolated]
    split
    · exact ih reach hbody hstart
    · rename_i hle
      obtain ⟨lead, cs, rfl, hplace, hbrace⟩ :=
        (hbody ▸ hstands).after (hstart ▸ Nat.le_of_not_lt hle)
      have ht : t.chars = xs ++ lead ++ ('%' :: cs) ++ [quote] := by
        rw [hc, hbody, ← List.append_assoc xs]
      have hbyte : p.position.byte = t.position.byte + byteSize (xs ++ lead) := by
        rw [hplace, Position.byte_past]
      have hslice : t.slice? p.position.byte (t.stop - 1) = some ('%' :: cs) := by
        rw [hbyte, show 1 = byteSize [quote] by rw [byteSize_cons, hq]; rfl]
        exact Token.slice?_inner ht
      have hlead : t.slice? start p.position.byte = some lead := by
        rw [hstart, hbyte]
        exact Token.slice?_eq (by rw [ht, List.append_assoc (xs ++ lead)])
      rw [hbody, ← List.append_assoc] at hstop
      obtain ⟨_, rest, htaken, rfl, hresumed⟩ :=
        @text_placeholder file _ (hr p.braced) _ _ _ _ ht hq _ hbyte hstop reach
      have hcut : cut t start p.position.byte (pieceIfAny .stringChunk) =
          pieceIfAny .stringChunk lead := by rw [cut, hlead]
      simp only [hcut, Trace.append_assoc]
      have hsplit : body =
          xs ++ lead ++ (placeholder file (read p.braced) t reach p).trace.text ++ rest := by
        rw [hbody, htaken, ← List.append_assoc, ← List.append_assoc]
      exact .next hp ht hplace hbrace hslice (ih _ hsplit hresumed)

/-- What becomes of a text that is asked for: nothing is there, or the next token is taken. If it
has placeholders, it is a quoted text and is read in pieces. Proofs about quoted texts take the
case distinction from here and the pieces by induction. -/
theorem quoted_cases (file : Option String)
    (hr : ∀ isBraced window, window.Lexed → Conserves window (read isBraced window)) {tape : Tape}
    (h : tape.Lexed) :
    quoted file read tape = fail (tape.missing .string) tape ∨
      ∃ t ts trace, tape.ahead = t :: ts ∧
        quoted file read tape = ofTaken (trace, { tape with ahead := ts, reach := t.stop }) ∧
          (trace = .ofData .stringChunk t.text ∨ ∃ style ps, t.kind = .quoted style ps ∧
            Interpolates file read t style.mark [] trace) := by
  unfold Attempt.quoted
  cases ha : tape.ahead with
  | nil => exact .inl rfl
  | cons t ts =>
    refine .inr ⟨t, ts, ?_⟩
    simp only
    cases hps : t.kind.placeholders?.getD [] with
    | nil => exact ⟨_, trivial, rfl, .inl rfl⟩
    | cons p ps =>
      have hsome : t.kind.placeholders? = some (p :: ps) := by
        cases hk : t.kind.placeholders? with
        | none => rw [hk] at hps; cases hps
        | some all => rw [hk] at hps; exact congrArg some hps
      obtain ⟨style, hk⟩ := TokenKind.placeholders?_eq_some hsome
      have hall := h.ahead ▸ ha
      obtain ⟨body, hbody, hbounds⟩ := Token.pieces_quoted hall hk
      have hstands := Token.standsIn_quoted hall hk hbody
      have hq : style.mark.utf8Size = 1 := by cases style <;> rfl
      refine ⟨_, trivial, rfl, .inr ⟨style, _, hk, ?_⟩⟩
      exact interpolates_interpolated hr hbody hq (p :: ps)
        (fun q hm => ⟨hps ▸ hm, hstands q hm, (hbounds q hm).2⟩) t.stop
        (List.nil_append body).symm rfl

/-- The pieces of a quoted text are its text. -/
theorem Interpolates.text {t : Token} {quote : Char} {xs : List Char} {trace : Trace}
    (h : Interpolates file read t quote xs trace) : t.chars = xs ++ trace.text := by
  induction h with
  | last ht => rw [ht, text_piece, List.append_assoc]
  | next _ _ _ _ _ _ ih =>
    rw [ih, Trace.text_append, Trace.text_append, text_pieceIfAny]
    simp only [List.append_assoc]

end Attempt

end Heddle
