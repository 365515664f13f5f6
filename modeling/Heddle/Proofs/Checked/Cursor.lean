import Heddle.Proofs.Checked.Scanning
import Heddle.Proofs.Cursor.Facing

/-!
# A cursor in checked steps

A cursor refuses two uses while a look ahead is pending and a jump into the middle of a character.
Here its steps are checked ones: what it refuses is a fault, and so is whatever goes wrong while a
token is scanned and its text is cut out of the source.

`Cursor.Shows` says what a cursor can read, as a list of tokens. **A cursor that shows tokens takes
them one by one without a fault** (`Shows.take_cons`), **and looks at them without a fault**
(`Shows.step_cons`), whatever else its state is; a look that is given back has changed nothing
(`Shows.peek_eq`).
-/

set_option autoImplicit false

namespace Heddle

open Text

namespace Checked

/-- Moves behind the next token, whatever it is; the text of the token is cut out of the source.
It is the one step that taking and looking have in common: they differ in what they keep in mind.
-/
def step (c : Cursor) : Checked (Option Token × Cursor) :=
  match c.readable with
  | [] => .ok (none, c)
  | x :: xs => do
    let (kind, s) ← scan c.preferHex x ⟨c.place, x :: xs⟩
    let text ← piece c.place.byte s.place.byte c.source
    return (some ⟨kind, String.ofList text, c.place⟩, { c with place := s.place })

/-- Takes the next token. While a look is pending this is refused, since nobody would know what
the look is to be given back to. -/
def take (c : Cursor) : Checked (Option Token × Cursor) :=
  if c.isLooking then .error (.misuse .takeWhileLooking)
  else do
    match ← step c with
    | (some t, after) => return (some t, { after with previous := some c.place })
    | (none, after) => return (none, after)

/-- Looks at the next token; another look goes one token further. The first of them notes where
the look began. -/
def look (c : Cursor) : Checked (Option Token × Cursor) :=
  step c.beginLook

/-- Looks at the next token and gives the look back. Most readers need no more, and to them a peek
is a question that leaves the cursor as it is. -/
def peek (c : Cursor) : Checked (Option Token × Cursor) := do
  let (t, c) ← look c
  return (t, c.release)

/-- Jumps to another place of the source, unless a look is pending or the place is inside a
character. -/
def seek (c : Cursor) (place : Position) : Checked Cursor :=
  match c.seek place with
  | .ok c => .ok c
  | .error m => .error (.misuse m)

/-- The byte behind a token, as a sum that is checked. -/
def stop (t : Token) : Checked Nat :=
  add t.position.byte t.text.utf8ByteSize

/-- Where all that a cursor can read can be counted, its step is a checked one. Here the checked
cursor meets the plain one, and only here. -/
theorem step_eq {c : Cursor} {passed ahead : List Char} (h : c.Faces passed ahead)
    (hr : c.place.Counts ahead) : step c = .ok c.step := by
  rw [step, Cursor.step, h.readable]
  cases ahead with
  | nil => rfl
  | cons x xs =>
    obtain ⟨beyond, hs⟩ := h.source
    have hcut := Lexeme.cuts_scan c.preferHex c.place x xs
    have htext : piece c.place.byte
        (c.place.past (Lexeme.scan c.preferHex c.place x xs).text).byte c.source =
          .ok (Lexeme.scan c.preferHex c.place x xs).text := by
      have hp := piece_eq passed (Lexeme.scan c.preferHex c.place x xs).text
        ((Lexeme.scan c.preferHex c.place x xs).rest ++ beyond)
      rw [byteSize_append] at hp
      rw [Position.byte_past, h.byte, ← hs, ← hcut]
      simp only [List.append_assoc] at hp ⊢
      exact hp
    dsimp only
    rw [scan_eq c.preferHex hr, ok_bind]
    dsimp only [Lexeme.arrival]
    rw [htext, ok_bind]
    simp only [Token.read?, Token.behind, Lexeme.chars_token]
    rfl

end Checked

open Checked

namespace Cursor

/-- What the cursor can read, in the usual way, are the tokens `ts`, and there is room to count
them. This is what every simulation of a checked reading starts from (`Reader.Follows`).

The tokens are an index of the structure, so that taking a token goes from `t :: ts` to `ts` and
the simulations can follow the recursion of the plain readers, which is on the tokens. The cursor
is in no special mode: a color is read with a preference for hexadecimal digits, and shows no
tokens while it is. -/
structure Shows (c : Cursor) (ts : List Token) : Prop where
  text : ∃ passed, c.Faces passed (Token.spell ts)
  tokens : ts = Token.readAll c.place (Token.spell ts)
  counts : c.place.Counts (Token.spell ts)
  begun : 0 < c.place.line
  usual : c.preferHex = false

namespace Shows

variable {c : Cursor} {t : Token} {ts : List Token}

/-- Whether a look is pending and what could be taken back makes no difference. What counts is the
text, the limit, the place and the mode. -/
theorem keep (h : c.Shows ts) {d : Cursor} (hs : d.source = c.source) (hl : d.limit = c.limit)
    (hp : d.place = c.place) (hu : d.preferHex = false) : d.Shows ts := by
  obtain ⟨passed, hf⟩ := h.text
  refine ⟨⟨passed, hf.keep hs hl (by rw [hp])⟩, ?_, ?_, ?_, hu⟩
  · rw [hp]
    exact h.tokens
  · rw [hp]
    exact h.counts
  · rw [hp]
    exact h.begun

theorem place (h : c.Shows (t :: ts)) : t.position = c.place :=
  (Token.readAll_eq_cons h.tokens.symm).1

theorem read? (h : c.Shows (t :: ts)) :
    Token.read? false c.place (Token.spell (t :: ts)) = some (t, Token.spell ts) := by
  have ht := h.tokens
  cases hcs : Token.spell (t :: ts) with
  | nil => rw [hcs, Token.readAll_nil] at ht; cases ht
  | cons x xs =>
    rw [hcs, Token.readAll_cons] at ht
    obtain ⟨rfl, rfl⟩ := List.cons.inj ht
    rw [Token.read?, Token.spell_readAll]

theorem step_nil (h : c.Shows []) : Checked.step c = .ok (none, c) := by
  obtain ⟨passed, hf⟩ := h.text
  rw [step_eq hf h.counts]
  exact congrArg _ hf.step_nil

/-- A step takes the first token, and the cursor shows the tokens behind it. -/
theorem step_cons (h : c.Shows (t :: ts)) :
    Checked.step c = .ok (some t, { c with place := t.behind }) ∧
      ({ c with place := t.behind } : Cursor).Shows ts := by
  obtain ⟨passed, hf⟩ := h.text
  have hr := h.read?
  obtain ⟨hp, -, rest, hc, hts⟩ := Token.readAll_eq_cons h.tokens.symm
  have hrest : rest = Token.spell ts := by rw [hts, Token.spell_readAll]
  subst hrest
  have hcounts := h.counts
  rw [Token.spell_cons] at hcounts
  have hbehind : t.behind = c.place.past t.chars := by rw [Token.behind, hp]
  refine ⟨?_, ⟨⟨_, hf.behind hr rfl rfl rfl⟩, hts, ?_, ?_, h.usual⟩⟩
  · rw [step_eq hf h.counts]
    exact congrArg _ (hf.step_cons (h.usual ▸ hr))
  · show t.behind.Counts _
    rw [hbehind]
    exact hcounts.past
  · show 0 < t.behind.line
    rw [hbehind]
    exact Nat.lt_of_lt_of_le h.begun (Position.line_le_past _ _)

theorem take_nil (h : c.Shows []) (hi : c.origin = none) : Checked.take c = .ok (none, c) := by
  rw [Checked.take, isLooking, hi, h.step_nil]
  rfl

/-- Without a pending look the first token can be taken. The result is written out, since the
readers go on with this cursor. -/
theorem take_cons (h : c.Shows (t :: ts)) (hi : c.origin = none) :
    Checked.take c =
      .ok (some t, { c with place := t.behind, previous := some c.place }) := by
  rw [Checked.take, h.step_cons.1, isLooking, hi]
  rfl

/-- A look changes nothing but the place, and keeps in mind where it began. -/
theorem look_cons (h : c.Shows (t :: ts)) :
    Checked.look c = .ok (some t, { c.beginLook with place := t.behind }) :=
  (@keep _ _ h c.beginLook rfl rfl rfl h.usual).step_cons.1

theorem look_nil (h : c.Shows []) : Checked.look c = .ok (none, c.beginLook) :=
  (@keep _ _ h c.beginLook rfl rfl rfl h.usual).step_nil

/-- A look at one token that is given back. Here the two halves cancel: the cursor behind it is
the very cursor in front of it. -/
theorem peek_eq (h : c.Shows ts) (hi : c.origin = none) : Checked.peek c = .ok (ts.head?, c) := by
  obtain ⟨source, place, previous, origin, limit, preferHex⟩ := c
  obtain rfl : origin = none := hi
  cases ts with
  | nil => rw [Checked.peek, h.look_nil]; rfl
  | cons t ts => rw [Checked.peek, h.look_cons]; rfl

/-- There are not more tokens than bytes, as no token is empty. The loops of the readers count
their rounds in bytes and are compared with the plain loops by this. -/
theorem length_le (h : c.Shows ts) : ts.length ≤ byteSize (Token.spell ts) := by
  induction ts generalizing c with
  | nil => exact Nat.zero_le _
  | cons t ts ih =>
    have hn := (Token.readAll_eq_cons h.tokens.symm).2.1
    have hs := ih h.step_cons.2
    have hpos : 0 < byteSize t.chars := by
      cases ht : t.chars with
      | nil => exact absurd ht hn
      | cons x xs =>
        have := x.utf8Size_pos
        rw [byteSize_cons]
        omega
    rw [List.length_cons, Token.spell_cons, byteSize_append]
    omega

theorem length_lt (h : c.Shows ts) : ts.length < wordBound :=
  Nat.lt_of_le_of_lt h.length_le h.counts.size_lt

end Shows

end Cursor

end Heddle
