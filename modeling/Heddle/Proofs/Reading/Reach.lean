import Heddle.Proofs.Reading.Conservation

/-!
# Nothing is reached that was not taken

A tape remembers the byte behind the last significant token taken from it, and an extent ends
there. It never lies behind the place where the reading is.
-/

set_option autoImplicit false

namespace Heddle

open Text

/-- What was reached is in front of what is left. At the beginning of a text nothing was reached,
so it holds there. -/
def Tape.Grounded (tape : Tape) : Prop := tape.reach ≤ tape.place.byte

namespace Attempt

/-- An attempt on a tape that is cut from a text keeps what was reached in front of what is left. -/
structure Grounds (tape : Tape) (a : Attempt) : Prop where
  lexed : a.tape.Lexed
  grounded : tape.Grounded → a.tape.Grounded

namespace Grounds

variable {tape : Tape} (h : tape.Lexed)
include h

theorem nothing : Grounds tape (ofTaken (.nil, tape)) := ⟨h, id⟩

theorem fail (f : Failure) : Grounds tape (Attempt.fail f tape) := ⟨h, id⟩

/-- Behind a token that was taken as a whole. -/
theorem token {t : Token} {ts : List Token} (ha : tape.ahead = t :: ts) (trace : Trace)
    {reach : Nat} (hr : tape.Grounded → reach ≤ t.stop) :
    Grounds tape (ofTaken (trace, { tape with ahead := ts, reach })) := by
  refine ⟨h.tail ha reach, fun hg => ?_⟩
  have hstop : ({ tape with ahead := ts, reach } : Tape).place.byte = t.stop := by
    rw [h.place_tail ha, ← (h.cons ha 0).2.1]
    exact t.byte_behind
  exact Nat.le_trans (hr hg) (Nat.le_of_eq hstop.symm)

theorem take (tag : DataTag) : Grounds tape (ofTaken (tape.take tag)) := by
  cases ha : tape.ahead with
  | nil =>
    rw [Tape.take_of_nil tag ha]
    exact nothing h
  | cons t ts =>
    rw [Tape.take_of_cons tag ha]
    apply token h ha _
    intro hg
    split
    · apply Nat.le_trans hg
      rw [← (h.cons ha 0).2.1]
      exact Nat.le_add_right _ _
    · exact Nat.le_refl _

theorem takeMany (tag : DataTag) (n : Nat) : Grounds tape (ofTaken (tape.takeMany tag n)) := by
  induction n generalizing tape with
  | zero => exact nothing h
  | succ n ih =>
    have ht := take h tag
    have hn := ih ht.lexed
    exact ⟨hn.lexed, fun hg => hn.grounded (ht.grounded hg)⟩

theorem quoted (file : Option String) (read : Bool → Tape → Attempt) :
    Grounds tape (quoted file read tape) := by
  unfold Attempt.quoted
  split
  · exact fail h _
  rename_i t ts ha
  simp only
  split
  · exact token h ha _ fun _ => Nat.le_refl _
  · exact token h ha _ fun _ => Nat.le_refl _

theorem foreign : Grounds tape (foreign tape) := by
  unfold Attempt.foreign
  split
  · exact fail h _
  rename_i t ts ha
  split
  · exact token h ha _ fun _ => Nat.le_refl _
  · exact fail h _

theorem hexDigits : Grounds tape (hexDigits tape) := by
  rcases hexDigits_cases h with hd | ⟨t, rest, -, -, hd⟩
  · rw [hd]
    exact fail h _
  · rw [hd]
    refine ⟨Tape.lexed_ofText _ _ _, fun _ => ?_⟩
    show t.stop ≤ (Tape.ofText t.behind rest t.stop).place.byte
    exact Nat.le_of_eq (by rw [Tape.place_ofText, t.byte_behind])

end Grounds

/-- **No reading reaches past what it has taken.** It is what makes the length of an extent no
more than what was read (`Reading.Located`). -/
theorem grounds : Invariant fun tape a => tape.Lexed → Grounds tape a where
  nothing _ h := .nothing h
  take tag _ h := .take h tag
  fail f _ h := .fail h f
  behind ha hb h :=
    ⟨(hb (ha h).lexed).lexed, fun hg => (hb (ha h).lexed).grounded ((ha h).grounded hg)⟩
  framed ha h := ⟨by rw [tape_framed]; exact (ha h).lexed,
    by rw [tape_framed]; exact (ha h).grounded⟩
  recover file inBlock f tape h := by
    have hs := Grounds.takeMany h .invalid (Tape.skipped inBlock 0 tape.ahead)
    exact ⟨hs.lexed, hs.grounded⟩
  quoted _ h := .quoted h _ _
  hexDigits _ h := .hexDigits h
  foreign _ h := .foreign h

end Attempt

end Heddle
