import Heddle.Text.Bytes

/-!
# Places in a source

A place is counted three ways at once: by line and column for people, by byte for programs. Only a
line feed begins a new line, and a column is one character wide whatever the character.
-/

set_option autoImplicit false

namespace Heddle

/-- A place between two characters of a source. Lines and columns count from 1, bytes from 0. -/
structure Position where
  line : Nat
  column : Nat
  byte : Nat
deriving DecidableEq, Repr, Inhabited

namespace Position

/-- Before the first character. -/
def origin : Position := ⟨1, 1, 0⟩

/-- The place behind one character. A carriage return moves the column like any other character.
-/
def after (p : Position) (c : Char) : Position :=
  if c = '\n' then ⟨p.line + 1, 1, p.byte + c.utf8Size⟩
  else ⟨p.line, p.column + 1, p.byte + c.utf8Size⟩

/-- The place behind a text, character by character. -/
def past (p : Position) (cs : List Char) : Position :=
  cs.foldl after p

@[simp] theorem past_nil (p : Position) : p.past [] = p := rfl

@[simp] theorem past_cons (p : Position) (c : Char) (cs : List Char) :
    p.past (c :: cs) = (p.after c).past cs := rfl

@[simp] theorem past_append (p : Position) (xs ys : List Char) :
    p.past (xs ++ ys) = (p.past xs).past ys := by
  simp [past, List.foldl_append]

@[simp] theorem byte_after (p : Position) (c : Char) :
    (p.after c).byte = p.byte + c.utf8Size := by
  unfold after
  split <;> rfl

/-- Bytes are counted exactly. -/
@[simp] theorem byte_past (p : Position) (cs : List Char) :
    (p.past cs).byte = p.byte + Text.byteSize cs := by
  induction cs generalizing p with
  | nil => simp
  | cons c cs ih => simp [ih, Nat.add_assoc]

/-- Lines are never gone back, so a place behind the first line of a source stays behind it. -/
theorem line_le_after (p : Position) (c : Char) : p.line ≤ (p.after c).line := by
  unfold after
  split
  · exact Nat.le_succ _
  · exact Nat.le_refl _

theorem line_le_past (p : Position) (cs : List Char) : p.line ≤ (p.past cs).line := by
  induction cs generalizing p with
  | nil => exact Nat.le_refl _
  | cons c cs ih => exact Nat.le_trans (p.line_le_after c) (ih _)

end Position

end Heddle
