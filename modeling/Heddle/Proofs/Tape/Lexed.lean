import Heddle.Tape
import Heddle.Proofs.Token.Pieces

/-!
# Tapes that are cut from a text

A reading starts with the tokens of a text and takes them one by one, so at every moment its tape
is again *the tokens of what is left of the text*, beginning at the place that was reached. That
is `Tape.Lexed`, and every statement about a whole reading rests on it: it is what lets the three
constructs that look inside tokens cut out pieces that are there.

The definition is an equation between tapes and not a list of facts about tokens. Whatever is
needed about the tokens ahead is then read off `Token.readAll`, and a tape that is built by
`Tape.ofText` has nothing to prove.
-/

set_option autoImplicit false

namespace Heddle

open Text

/-! ## The first token of a text -/

theorem Token.readAll_nil (p : Position) : Token.readAll p [] = [] := by
  rw [Token.readAll]

theorem Token.readAll_cons (p : Position) (c : Char) (cs : List Char) :
    Token.readAll p (c :: cs) =
      (Lexeme.scan false p c cs).token p ::
        Token.readAll (p.past (Lexeme.scan false p c cs).text)
          (Lexeme.scan false p c cs).rest := by
  rw [Token.readAll]

/-- What the first of the tokens of a text is, and what the others are the tokens of. It is the
one place where the recursion of `readAll` is opened, and every statement about tokens goes token
by token with it. -/
theorem Token.readAll_eq_cons {p : Position} {cs : List Char} {t : Token} {ts : List Token}
    (h : Token.readAll p cs = t :: ts) :
    t.position = p ∧ t.chars ≠ [] ∧
      ∃ rest, cs = t.chars ++ rest ∧ ts = Token.readAll t.behind rest := by
  cases cs with
  | nil => rw [Token.readAll_nil] at h; exact absurd h (by simp)
  | cons c cs =>
    rw [Token.readAll_cons] at h
    obtain ⟨rfl, rfl⟩ := List.cons.inj h
    refine ⟨rfl, ?_, (Lexeme.scan false p c cs).rest, ?_, ?_⟩
    · rw [Lexeme.chars_token]
      exact Lexeme.text_scan_ne_nil false p c cs
    · rw [Lexeme.chars_token]
      exact (Lexeme.cuts_scan false p c cs).symm
    · rw [Token.behind, Lexeme.chars_token]
      rfl

theorem Token.readAll_eq_nil {p : Position} {cs : List Char}
    (h : Token.readAll p cs = []) : cs = [] := by
  have hs := Token.spell_readAll p cs
  rw [h] at hs
  exact hs.symm

/-- The first token of a text, read in either way. -/
theorem Token.read?_eq_some {preferHex : Bool} {p : Position} {cs : List Char} {t : Token}
    {rest : List Char} (h : Token.read? preferHex p cs = some (t, rest)) :
    t.position = p ∧ t.chars ≠ [] ∧ cs = t.chars ++ rest := by
  cases cs with
  | nil => cases h
  | cons c cs =>
    rw [Token.read?] at h
    obtain ⟨rfl, rfl⟩ := Prod.mk.inj (Option.some.inj h)
    rw [Lexeme.chars_token]
    exact ⟨rfl, Lexeme.text_scan_ne_nil preferHex p c cs,
      (Lexeme.cuts_scan preferHex p c cs).symm⟩

theorem Token.byte_behind (t : Token) : t.behind.byte = t.stop := by
  rw [Token.behind, Position.byte_past, Token.stop, Token.byteSize_chars]

namespace Tape

/-- The text that is still to be read. -/
def text (tape : Tape) : List Char := Token.spell tape.ahead

/-- The tape holds the tokens of the text that is still to be read. The reach is on both sides of
the equation, as it is a number that the text does not tell. -/
def Lexed (tape : Tape) : Prop := tape = .ofText tape.place tape.text tape.reach

@[simp] theorem text_ofText (p : Position) (cs : List Char) (reach : Nat) :
    (ofText p cs reach).text = cs :=
  Token.spell_readAll p cs

@[simp] theorem reach_ofText (p : Position) (cs : List Char) (reach : Nat) :
    (ofText p cs reach).reach = reach := rfl

@[simp] theorem ahead_ofText (p : Position) (cs : List Char) (reach : Nat) :
    (ofText p cs reach).ahead = Token.readAll p cs := rfl

@[simp] theorem place_ofText (p : Position) (cs : List Char) (reach : Nat) :
    (ofText p cs reach).place = p := by
  cases hr : Token.readAll p cs with
  | nil => simp [place, ofText, Token.readAll_eq_nil hr, Token.readAll_nil]
  | cons t ts => simp [place, ofText, hr, (Token.readAll_eq_cons hr).1]

theorem lexed_ofText (p : Position) (cs : List Char) (reach : Nat) :
    (ofText p cs reach).Lexed := by
  simp [Lexed]

theorem Lexed.ahead {tape : Tape} (h : tape.Lexed) :
    tape.ahead = Token.readAll tape.place tape.text := by
  rw [h]; simp

theorem Lexed.stop {tape : Tape} (h : tape.Lexed) : tape.stop = tape.place.past tape.text := by
  exact congrArg Tape.stop h

/-- At the end of a text nothing is left, and the next place is the last one. -/
theorem text_eq_nil {tape : Tape} (h : tape.ahead = []) : tape.text = [] := by
  simp [text, h]

theorem Lexed.ahead_eq_nil {tape : Tape} (h : tape.Lexed) (ht : tape.text = []) :
    tape.ahead = [] := by
  rw [h.ahead, ht, Token.readAll_nil]

/-- A tape with a token on it, and the same tape without the token. -/
theorem Lexed.cons {tape : Tape} (h : tape.Lexed) {t : Token} {ts : List Token}
    (ha : tape.ahead = t :: ts) (reach : Nat) :
    ({ tape with ahead := ts, reach } : Tape) =
      .ofText t.behind (Token.spell ts) reach ∧
    t.position = tape.place ∧ t.chars ≠ [] ∧ tape.text = t.chars ++ Token.spell ts := by
  obtain ⟨hp, hn, rest, hc, rfl⟩ := Token.readAll_eq_cons (h.ahead ▸ ha)
  refine ⟨?_, hp, hn, by rw [Token.spell_readAll]; exact hc⟩
  rw [Token.spell_readAll]
  simp only [ofText, mk.injEq, true_and, and_true]
  rw [h.stop, hc, Position.past_append, ← hp]
  rfl

/-- Taking a token off a tape leaves a tape that is cut from a text. -/
theorem Lexed.tail {tape : Tape} (h : tape.Lexed) {t : Token} {ts : List Token}
    (ha : tape.ahead = t :: ts) (reach : Nat) :
    ({ tape with ahead := ts, reach } : Tape).Lexed := by
  rw [(h.cons ha reach).1]
  exact lexed_ofText _ _ _

theorem Lexed.place_tail {tape : Tape} (h : tape.Lexed) {t : Token} {ts : List Token}
    (ha : tape.ahead = t :: ts) (reach : Nat) :
    ({ tape with ahead := ts, reach } : Tape).place = tape.place.past t.chars := by
  rw [(h.cons ha reach).1, place_ofText, Token.behind, (h.cons ha reach).2.1]

/-! ## Taking -/

theorem take_of_nil (tag : DataTag) {tape : Tape} (h : tape.ahead = []) :
    tape.take tag = (.nil, tape) := by
  rw [take, h]

/-- Taking a token; only one that is no trivia moves what has been reached. -/
theorem take_of_cons (tag : DataTag) {tape : Tape} {t : Token} {ts : List Token}
    (h : tape.ahead = t :: ts) :
    tape.take tag = (.ofData (t.kind.role tag) t.text,
      { tape with
        ahead := ts, reach := if (t.kind.role tag).isTrivia then tape.reach else t.stop }) := by
  rw [take, h]

theorem takeMany_succ (tag : DataTag) (n : Nat) (tape : Tape) :
    tape.takeMany tag (n + 1) = ((tape.take tag).1 ++ ((tape.take tag).2.takeMany tag n).1,
      ((tape.take tag).2.takeMany tag n).2) := rfl

theorem ahead_take (tag : DataTag) (tape : Tape) : (tape.take tag).2.ahead = tape.ahead.tail := by
  cases h : tape.ahead with
  | nil => rw [take_of_nil tag h, h]; rfl
  | cons t ts => rw [take_of_cons tag h]; rfl

theorem ahead_takeMany (tag : DataTag) (n : Nat) (tape : Tape) :
    (tape.takeMany tag n).2.ahead = tape.ahead.drop n := by
  induction n generalizing tape with
  | zero => rfl
  | succ n ih => rw [takeMany_succ, ih, ahead_take, List.drop_tail]

/-- Trivia is taken up to the next token that is none. -/
theorem ahead_takeTrivia (tape : Tape) :
    tape.takeTrivia.2.ahead = tape.ahead.dropWhile (·.kind.isTrivia) := by
  have h := @List.drop_left _ (tape.ahead.takeWhile (·.kind.isTrivia))
    (tape.ahead.dropWhile (·.kind.isTrivia))
  rw [List.takeWhile_append_dropWhile] at h
  rw [takeTrivia, ahead_takeMany]
  exact h

/-- Rounds are counted in bytes of the text that is left. No token is empty, so a round that takes
one makes the size smaller. -/
theorem size_eq (tape : Tape) : tape.size = byteSize tape.text := by
  obtain ⟨ts, stop, reach⟩ := tape
  simp only [size, text]
  induction ts with
  | nil => rfl
  | cons t ts ih => simp [ih, Token.byteSize_chars]

theorem Lexed.size_eq_zero {tape : Tape} (h : tape.Lexed) (hs : tape.size = 0) :
    tape.ahead = [] := by
  apply h.ahead_eq_nil
  rw [size_eq] at hs
  cases ht : tape.text with
  | nil => rfl
  | cons c cs =>
    have := c.utf8Size_pos
    rw [ht, byteSize_cons] at hs
    omega

end Tape

end Heddle
