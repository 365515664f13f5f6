import Mathlib.Data.List.TakeWhile
import Heddle.Proofs.Token.Loose

/-!
# Where words, numbers and marks stop

A word, a number or a mark stops in front of a semicolon, of a blank, of a slash and of a closing
brace, and what is behind the stop is not seen: **each of these readers takes of a text in front of
a stop what it takes of the text alone** and leaves the stop with all that follows it.

Which four they are is no accident. A semicolon ends a source that another one is put behind,
blanks are what can be exchanged, a slash begins the comments that change places with them, and a
closing brace is what an expression in a string is followed by.
-/

set_option autoImplicit false

namespace Heddle

open Text

namespace Text

/-- A semicolon or a blank. The two are kept together, since sources are put behind each other at
either (`Heddle.Proofs.Token.Append`). -/
def isSeal (c : Char) : Bool := c == ';' || isBlank c

theorem isWord_of_isSeal {c : Char} (h : isSeal c = true) : isWord c = false := by
  rcases Bool.or_eq_true_iff.1 h with hc | hb
  · rw [beq_iff_eq.1 hc]
    rfl
  · exact isWord_of_isBlank hb

/-- The text begins with a semicolon, a blank, a slash or a closing brace, or is empty. -/
def Stops (more : List Char) : Prop := ∀ c ∈ more.head?, isSeal c = true ∨ c = '/' ∨ c = '\x7d'

theorem isSeal_of_isBlank {c : Char} (h : isBlank c = true) : isSeal c = true :=
  Bool.or_eq_true_iff.2 (.inr h)

theorem stops_of_isSeal {c : Char} (h : isSeal c = true) (cs : List Char) : Stops (c :: cs) := by
  intro c' hc
  cases hc
  exact .inl h

/-- A class of word characters has none of these in it. Names, digits and letters are such
classes. -/
theorem Stops.not_mem {more : List Char} (h : Stops more) {member : Char → Bool}
    (hm : ∀ c, member c = true → isWord c = true) : ∀ c ∈ more.head?, member c = false := by
  intro c hc
  refine Bool.eq_false_iff.2 fun hmem => ?_
  rcases h c hc with hs | rfl | rfl
  · cases (hm c hmem).symm.trans (isWord_of_isSeal hs)
  · cases hm _ hmem
  · cases hm _ hmem

/-- What is none of these does not begin such a text. The condition is evaluated on the character
that a reader looks for. -/
theorem Stops.ne {more : List Char} (h : Stops more) {c : Char}
    (hc : (isSeal c || c == '/' || c == '\x7d') = false) : more.head? ≠ some c := by
  intro hh
  rcases h c hh with hs | rfl | rfl
  · rw [hs] at hc
    cases hc
  · exact absurd hc (by decide)
  · exact absurd hc (by decide)

variable {member : Char → Bool} {more : List Char}

/-- A run that has not gone on into what follows is the run of the text alone. -/
theorem span_stops (h : ∀ c ∈ more.head?, member c = false) (cs : List Char) :
    (cs ++ more).takeWhile member = cs.takeWhile member ∧
      (cs ++ more).dropWhile member = cs.dropWhile member ++ more := by
  induction cs with
  | nil =>
    cases more with
    | nil => exact ⟨rfl, rfl⟩
    | cons c more => simp [h c rfl]
  | cons c cs ih =>
    rw [List.cons_append, List.takeWhile_cons, List.takeWhile_cons, List.dropWhile_cons,
      List.dropWhile_cons, ih.1, ih.2]
    split
    · exact ⟨rfl, rfl⟩
    · exact ⟨rfl, rfl⟩

end Text

namespace Lexeme

/-- The lexeme with more text behind it. -/
def extend (l : Lexeme) (more : List Char) : Lexeme := { l with rest := l.rest ++ more }

variable {more : List Char} (h : Stops more)
include h

/-! ## Words and numbers -/

theorem run_stops (kind : TokenKind) {member : Char → Bool}
    (hm : ∀ c, member c = true → isWord c = true) (cs : List Char) :
    run kind member (cs ++ more) = (run kind member cs).extend more := by
  obtain ⟨ht, hd⟩ := span_stops (h.not_mem hm) cs
  rw [run, ht, hd]
  rfl

theorem word_stops (cs : List Char) : word (cs ++ more) = (word cs).extend more :=
  run_stops h .word (fun _ => id) cs

/-- A fraction is a point with a digit behind it, so two characters decide. The second one may be
the first of the stop, and that is no digit. -/
theorem fraction_stops {digit : Char → Bool} (hd : ∀ c, digit c = true → isWord c = true)
    (cs : List Char) :
    fraction digit (cs ++ more) = ((fraction digit cs).1, (fraction digit cs).2 ++ more) := by
  have hno {cs : List Char} (hc : cs.head? ≠ some '.') : fraction digit cs = ([], cs) := by
    unfold fraction
    split
    · exact absurd rfl hc
    · rfl
  cases cs with
  | nil => exact hno (h.ne (by decide))
  | cons c cs =>
    by_cases hc : c = '.'
    · subst hc
      cases cs with
      | nil =>
        -- No digit follows the point in front of a stop.
        cases more with
        | nil => rfl
        | cons d more => simp [fraction, h.not_mem hd d rfl]
      | cons d cs =>
        obtain ⟨ht, hr⟩ := span_stops (h.not_mem hd) (d :: cs)
        rw [List.cons_append] at ht hr
        simp only [List.cons_append, fraction]
        split
        · rw [ht, hr]
        · rfl
    · rw [hno (by simpa using hc), hno (by simpa using hc)]

theorem numeral_stops (kind : NumberForm → TokenKind) {digit : Char → Bool}
    (hd : ∀ c, digit c = true → isWord c = true) (cs : List Char) :
    numeral kind digit (cs ++ more) = (numeral kind digit cs).extend more := by
  obtain ⟨ht, hr⟩ := span_stops (h.not_mem hd) cs
  have hlong := fraction_stops h hd (cs.dropWhile digit)
  rw [← hr] at hlong
  generalize hstops : fraction digit (cs.dropWhile digit) = found at hlong
  obtain ⟨part, rest⟩ := found
  by_cases hp : rest.head? = some '%'
  · obtain ⟨rest, rfl⟩ := List.head?_eq_some_iff.1 hp
    rw [numeral_of_percent kind hstops, numeral_of_percent kind hlong, ht]
    rfl
  · have hne : (rest ++ more).head? ≠ some '%' := by
      cases rest with
      | nil => exact h.ne (by decide)
      | cons c rest => exact hp
    rw [numeral_of_ne_percent kind hstops hp, numeral_of_ne_percent kind hlong hne, ht]
    rfl

/-- The sign `0x` counts only with a digit behind it, so here three characters decide. -/
theorem hexSign?_stops (cs : List Char) :
    hexSign? (cs ++ more) = (hexSign? cs).map fun (sign, digits) => (sign, digits ++ more) := by
  have hno {cs : List Char} (hc : cs.head? ≠ some '0') : hexSign? cs = none := by
    unfold hexSign?
    split
    · exact absurd rfl hc
    · rfl
  cases cs with
  | nil => exact hno (h.ne (by decide))
  | cons c cs =>
    by_cases hc : c = '0'
    · subst hc
      match cs with
      | [] =>
        -- The letter of the sign is no stop.
        match more, h with
        | [], _ | [_], _ => rfl
        | x :: d :: more, h =>
          have hsign (c : Char) (hc : (c == 'x' || c == 'X') = true) : isWord c = true := by
            rcases Bool.or_eq_true_iff.1 hc with hc | hc <;> (rw [beq_iff_eq.1 hc]; rfl)
          have hx : (x == 'x' || x == 'X') = false := h.not_mem hsign x rfl
          simp [hexSign?, hx]
      | [x] =>
        match more, h with
        | [], _ => rfl
        | d :: more, h =>
          have hd : isHexDigit d = false := h.not_mem (fun _ => isWord_of_isHexDigit) d rfl
          simp [hexSign?, hd]
      | x :: d :: cs =>
        simp only [List.cons_append, hexSign?]
        split
        · rfl
        · rfl
    · rw [hno (by simpa using hc), hno (by simpa using hc)]
      rfl

theorem number_stops (cs : List Char) : number (cs ++ more) = (number cs).extend more := by
  rw [number, hexSign?_stops h]
  unfold number
  cases hexSign? cs with
  | none => exact numeral_stops h .number (fun _ => isWord_of_isDigit) cs
  | some found =>
    obtain ⟨sign, digits⟩ := found
    obtain ⟨ht, hr⟩ := span_stops (h.not_mem fun _ => isWord_of_isHexDigit) digits
    simp only [Option.map_some, ht, hr]
    rfl

theorem hexRun_stops (cs : List Char) : hexRun (cs ++ more) = (hexRun cs).extend more := by
  have hx (c : Char) : isHexDigit c = true → isWord c = true := isWord_of_isHexDigit
  obtain ⟨-, hr⟩ := span_stops (h.not_mem hx) cs
  have hhead {P : Char → Bool} (hP : ∀ c, P c = true → isWord c = true) (cs : List Char) :
      (cs ++ more).head?.any P = cs.head?.any P := by
    cases cs with
    | nil =>
      rw [List.nil_append]
      cases more with
      | nil => rfl
      | cons c more => exact h.not_mem hP c rfl
    | cons c cs => rfl
  unfold hexRun
  simp only [hr, fraction_stops h hx, hhead (fun _ => id), hhead (fun _ => isWord_of_isDigit)]
  split
  · split
    · exact number_stops h cs
    · exact word_stops h cs
  · exact numeral_stops h .hexNumber hx cs

/-! ## Marks -/

theorem operator_stops (c : Char) (cs : List Char) :
    operator c (cs ++ more) = (operator c cs).extend more := by
  cases cs with
  | nil =>
    cases more with
    | nil => rfl
    | cons d more =>
      have hpair : pairMark? c d = none := by
        unfold pairMark?
        split <;> first | rfl | exact absurd rfl (h.ne (c := _) (by decide))
      simp only [List.nil_append, operator, hpair]
      rfl
  | cons d cs =>
    rw [List.cons_append, operator, operator]
    split
    · rfl
    · rfl

/-- One, two or three points; no stop begins with a point. -/
theorem points_stops (cs : List Char) : points (cs ++ more) = (points cs).extend more := by
  have hno {cs : List Char} (hc : cs.head? ≠ some '.') :
      points cs = ⟨.mark .dot, ['.'], cs⟩ ∧
        points ('.' :: cs) = ⟨.mark .doubleDot, ['.', '.'], cs⟩ := by
    refine ⟨?_, ?_⟩
    · unfold points
      split
      · exact absurd rfl hc
      · exact absurd rfl hc
      · rfl
    · unfold points
      split <;> rename_i heq
      · cases heq
        exact absurd rfl hc
      · cases heq
        rfl
      · exact absurd rfl (heq cs)
  have hmore : more.head? ≠ some '.' := h.ne (by decide)
  -- Up to two characters are looked at, and the end of the text may be behind each of them.
  match cs with
  | [] => exact (hno hmore).1
  | c :: cs =>
    by_cases hc : c = '.'
    · subst hc
      match cs with
      | [] => exact (hno hmore).2
      | d :: cs =>
        by_cases hd : d = '.'
        · subst hd
          rfl
        · rw [List.cons_append, List.cons_append, (hno (by simpa using hd)).2,
            (hno (by simpa using hd)).2]
          rfl
    · rw [List.cons_append, (hno (by simpa using hc)).1, (hno (by simpa using hc)).1]
      rfl

end Lexeme

end Heddle
