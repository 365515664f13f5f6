import Mathlib.Algebra.Group.Nat.Defs
import Heddle.Cursor

/-!
# Steps that can be refused

A reading counts without bounds, takes differences that stop at zero, and asks for pieces of texts
that may not be there. Machine words have bounds, a difference below zero is an error, and so is a
piece that is not there. This module has the steps at which that shows: a `Checked` result is a
result or the `Fault` for which there is none. **A reading that goes through these steps and never
meets a fault makes none of these mistakes**, which is how the modules beside this one use them.

What makes the steps succeed is said once. `Position.Counts` says that all of a text can be counted
from a place on, and whoever moves along the text keeps it (`Position.Counts.past`). It holds of any
place that a cursor may be sent to. Where a loop counts its rounds as well, they are one more than
there are bytes, and that the line of a place is not zero makes the room for it
(`Position.Counts.succ_size_lt`).
-/

set_option autoImplicit false

namespace Heddle

open Text

/-- Why a step is refused. Each of the faults is a mistake that a program with bounded numbers
could make where the reading has none to make: a counter that wraps around, a difference that
would be negative, a piece of a text that is cut inside a character. -/
inductive Fault where
  /-- A cursor is used when it must not be. -/
  | misuse (m : Misuse)
  /-- A sum is too large for a machine word. -/
  | overflow (a b : Nat)
  /-- A difference is below zero. -/
  | underflow (a b : Nat)
  /-- A piece of a text does not lie between two of its characters. -/
  | noPiece (start stop : Nat)
  /-- A loop went on for longer than there is text. -/
  | endless
deriving DecidableEq, Repr

/-- A result, unless a step on the way was refused. The monad is `Except`, so that a computation
ends with the first fault, as a program does that aborts. -/
abbrev Checked (α : Type) := Except Fault α

namespace Checked

/-- One more than the largest machine word. The sizes, offsets, lines and columns are words of
this size. -/
def wordBound : Nat := 2 ^ 64

/-- The sum of two machine words. -/
def add (a b : Nat) : Checked Nat :=
  if a + b < wordBound then .ok (a + b) else .error (.overflow a b)

/-- The difference of two machine words. -/
def sub (a b : Nat) : Checked Nat :=
  if b ≤ a then .ok (a - b) else .error (.underflow a b)

/-- The piece of a text between two of its bytes. It is refused when one of the bounds lies inside
a character, or behind the text, or when they are in the wrong order. -/
def piece (start stop : Nat) (cs : List Char) : Checked (List Char) :=
  match slice? start stop cs with
  | some inside => .ok inside
  | none => .error (.noPiece start stop)

/-- There is no fault where the sum is small enough, and then it is the sum without bounds. -/
theorem add_eq {a b : Nat} (h : a + b < wordBound) : add a b = .ok (a + b) := if_pos h

theorem sub_eq {a b : Nat} (h : b ≤ a) : sub a b = .ok (a - b) := if_pos h

/-- Between two characters there is a piece. The bounds are written as sizes of what is in front
of them, since this is the form in which the readers know them. -/
theorem piece_eq (xs ys zs : List Char) :
    piece (byteSize xs) (byteSize (xs ++ ys)) (xs ++ ys ++ zs) = .ok ys := by
  rw [piece, slice?_byteSize]

/-- Behind a result a computation goes on. With this lemma a checked reader is walked through step
by step: every step is rewritten to its result and then dropped. -/
@[simp] theorem ok_bind {α β : Type} (a : α) (f : α → Checked β) :
    (Except.ok a >>= f : Checked β) = f a := rfl

@[simp] theorem pure_eq {α : Type} (a : α) : (pure a : Checked α) = .ok a := rfl

end Checked

/-! ## Room to count -/

open Checked

/-- All of a text can be counted from the place on, in bytes, lines and columns. A text is at
least as long as it has lines and as its lines have columns, so that its bytes bound all three
counters. -/
structure Position.Counts (p : Position) (cs : List Char) : Prop where
  byte : p.byte + byteSize cs < wordBound
  line : p.line + byteSize cs < wordBound
  column : p.column + byteSize cs < wordBound

namespace Position.Counts

variable {p : Position} {cs : List Char}

/-- Behind a character the others can be counted. -/
theorem after {c : Char} (h : p.Counts (c :: cs)) : (p.after c).Counts cs := by
  obtain ⟨hb, hl, hc⟩ := h
  have hpos := c.utf8Size_pos
  rw [byteSize_cons] at hb hl hc
  rw [Position.after]
  split
  · constructor <;> simp only <;> omega
  · constructor <;> simp only <;> omega

/-- Behind a part of a text the rest can be counted. This is how the room is handed from one
reader to the next; nobody has to look at the counters again. -/
theorem past {xs ys : List Char} (h : p.Counts (xs ++ ys)) : (p.past xs).Counts ys := by
  induction xs generalizing p with
  | nil => exact h
  | cons x xs ih => exact ih h.after

/-- Where a text can be counted, its beginning can. -/
theorem front {xs ys : List Char} (h : p.Counts (xs ++ ys)) : p.Counts xs := by
  obtain ⟨hb, hl, hc⟩ := h
  rw [byteSize_append] at hb hl hc
  exact ⟨by omega, by omega, by omega⟩

/-- Behind characters of one class what follows them can be counted. -/
theorem dropWhile (h : p.Counts cs) (member : Char → Bool) :
    (p.past (cs.takeWhile member)).Counts (cs.dropWhile member) :=
  .past (by rwa [List.takeWhile_append_dropWhile])

/-- Anything that is not longer than the text can be counted. -/
theorem size_lt (h : p.Counts cs) : byteSize cs < wordBound :=
  Nat.lt_of_le_of_lt (Nat.le_add_left _ _) h.byte

/-- Lines count from 1, so there is room for one more than the text has bytes. Loops need this one
more: they count a last round, in which they find that the text has ended. -/
theorem succ_size_lt (h : p.Counts cs) (hp : 0 < p.line) : byteSize cs + 1 < wordBound := by
  have hl := h.line
  omega

end Position.Counts

namespace Checked

/-- The place behind one character, with every counter checked. Behind a line feed the column is 1
again and needs no check. -/
def after (p : Position) (c : Char) : Checked Position := do
  let byte ← add p.byte c.utf8Size
  if c = '\n' then
    let line ← add p.line 1
    return ⟨line, 1, byte⟩
  else
    let column ← add p.column 1
    return ⟨p.line, column, byte⟩

theorem after_eq {p : Position} {c : Char} {cs : List Char} (h : p.Counts (c :: cs)) :
    after p c = .ok (p.after c) := by
  obtain ⟨hb, hl, hc⟩ := h
  have hpos := c.utf8Size_pos
  rw [byteSize_cons] at hb hl hc
  rw [after, Position.after, add_eq (by omega), ok_bind]
  split
  · rw [add_eq (by omega), ok_bind, pure_eq]
  · rw [add_eq (by omega), ok_bind, pure_eq]

/-! ## Moving along a text -/

/-- A place in a text and what can be read behind it. -/
structure Scanner where
  place : Position
  rest : List Char

/-- Moves behind the next character, if there is one. -/
def Scanner.advance (s : Scanner) : Checked Scanner :=
  match s.rest with
  | [] => .ok s
  | c :: cs => do return ⟨← after s.place c, cs⟩

/-- Moves behind all characters of one class that come next. The recursion is on the text, and so
needs no bound on its rounds. -/
def advanceWhile (member : Char → Bool) (p : Position) : List Char → Checked Scanner
  | [] => .ok ⟨p, []⟩
  | c :: cs =>
    if member c then do advanceWhile member (← after p c) cs
    else .ok ⟨p, c :: cs⟩

theorem advance_nil (p : Position) : Scanner.advance ⟨p, []⟩ = .ok ⟨p, []⟩ := rfl

theorem advance_cons {p : Position} {c : Char} {cs : List Char} (h : p.Counts (c :: cs)) :
    Scanner.advance ⟨p, c :: cs⟩ = .ok ⟨p.after c, cs⟩ := by
  simp only [Scanner.advance, after_eq h, ok_bind, pure_eq]

/-- The checked scan arrives where the plain one splits the text. -/
theorem advanceWhile_eq (member : Char → Bool) {p : Position} {cs : List Char}
    (h : p.Counts cs) :
    advanceWhile member p cs = .ok ⟨p.past (cs.takeWhile member), cs.dropWhile member⟩ := by
  induction cs generalizing p with
  | nil => rfl
  | cons c cs ih =>
    rw [advanceWhile, List.takeWhile_cons, List.dropWhile_cons]
    cases member c with
    | true => rw [if_pos rfl, if_pos rfl, if_pos rfl, after_eq h, ok_bind, ih h.after]; rfl
    | false => rfl

end Checked

end Heddle
