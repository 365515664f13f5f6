import Heddle.Grammar.Lookahead
import Heddle.Proofs.Tape.Lexed
import Heddle.Proofs.Token.Nesting

/-!
# Braces in a list of tokens

Of all marks only the braces decide where a block ends, also where brackets and parentheses are in
disorder. `walk` counts them: up at an opening brace, down at a closing one, and not at all below
zero. Other tokens do not count, so a walk can be taken over all tokens or only over the braces.

The brackets of a construct are a stack, and braces are part of it. Where the stack is kept the
walk follows from it (`Token.climb_of_turn`); where a construct was given up the stack is in
disorder, and the walk is what is left.
-/

set_option autoImplicit false

namespace Heddle

namespace Token

/-- An opening or a closing brace. -/
def isBrace (t : Token) : Bool := t.isMark .leftBrace || t.isMark .rightBrace

end Token

/-- The braces among tokens. -/
def braces (ts : List Token) : List Token := ts.filter Token.isBrace

/-- How many braces are open behind the token, if `n` are open in front of it; `none` if it closes
what is not open. -/
def Token.climb (n : Nat) (t : Token) : Option Nat :=
  if t.isMark .leftBrace then some (n + 1)
  else if t.isMark .rightBrace then if n = 0 then none else some (n - 1)
  else some n

/-- The same behind several tokens. -/
def walk (n : Nat) : List Token → Option Nat
  | [] => some n
  | t :: ts => (t.climb n).bind (walk · ts)

theorem Token.climb_of_not_isBrace {t : Token} (h : t.isBrace = false) (n : Nat) :
    t.climb n = some n := by
  obtain ⟨hl, hr⟩ := Bool.or_eq_false_iff.1 h
  rw [climb, if_neg (by simp [hl]), if_neg (by simp [hr])]

/-- More that is open in front is open behind. -/
theorem Token.climb_add {t : Token} {n m : Nat} (h : t.climb n = some m) (k : Nat) :
    t.climb (n + k) = some (m + k) := by
  unfold climb at h ⊢
  split at h <;> rename_i hl
  · cases h
    rw [if_pos hl, Nat.add_right_comm]
  split at h <;> rename_i hr
  · split at h <;> rename_i hn
    · cases h
    · cases h
      rw [if_neg hl, if_pos hr, if_neg (by omega)]
      congr 1
      omega
  · cases h
    rw [if_neg hl, if_neg hr]

@[simp] theorem walk_nil (n : Nat) : walk n [] = some n := rfl

@[simp] theorem walk_cons (n : Nat) (t : Token) (ts : List Token) :
    walk n (t :: ts) = (t.climb n).bind (walk · ts) := rfl

theorem walk_append (n : Nat) (xs ys : List Token) :
    walk n (xs ++ ys) = (walk n xs).bind (walk · ys) := by
  induction xs generalizing n with
  | nil => rfl
  | cons t ts ih =>
    rw [List.cons_append, walk_cons, walk_cons]
    cases t.climb n with
    | none => rfl
    | some m => exact ih m

theorem walk_add {n m : Nat} {ts : List Token} (h : walk n ts = some m) (k : Nat) :
    walk (n + k) ts = some (m + k) := by
  induction ts generalizing n with
  | nil => cases h; rfl
  | cons t ts ih =>
    obtain ⟨i, hi, hm⟩ := Option.bind_eq_some_iff.1 h
    rw [walk_cons, Token.climb_add hi k]
    exact ih hm

/-- Only braces count. So a walk over the tokens of an extent is one over its braces. -/
theorem walk_braces (n : Nat) (ts : List Token) : walk n (braces ts) = walk n ts := by
  induction ts generalizing n with
  | nil => rfl
  | cons t ts ih =>
    cases hb : t.isBrace with
    | true =>
      rw [braces, List.filter_cons, if_pos hb, walk_cons, walk_cons]
      congr 1
      funext m
      exact ih m
    | false =>
      rw [braces, List.filter_cons, if_neg (by simp [hb]), walk_cons,
        Token.climb_of_not_isBrace hb]
      exact ih n

@[simp] theorem braces_nil : braces [] = [] := rfl

theorem braces_append (xs ys : List Token) : braces (xs ++ ys) = braces xs ++ braces ys :=
  List.filter_append xs ys

/-- A brace is a bracket. -/
theorem Token.isBrace_of_not_isBracket {t : Token} (h : t.kind.isBracket = false) :
    t.isBrace = false := by
  cases hb : t.isBrace with
  | false => rfl
  | true =>
    rcases Bool.or_eq_true_iff.1 hb with hm | hm <;> rw [beq_iff_eq.1 hm] at h <;> cases h

theorem braces_eq_nil {ts : List Token} (h : ∀ t ∈ ts, t.kind.isBracket = false) :
    braces ts = [] := by
  apply List.filter_eq_nil_iff.2
  intro t ht hb
  rw [Token.isBrace_of_not_isBracket (h t ht)] at hb
  cases hb

/-- How many braces are open. -/
def depth (opened : List Mark) : Nat := opened.count .leftBrace

/-- The other brackets do not count. -/
theorem TokenKind.depth_turn {kind : TokenKind} {opened opened' : List Mark}
    (h : kind.turn opened = some opened') (hl : kind ≠ .mark .leftBrace)
    (hr : kind ≠ .mark .rightBrace) : depth opened' = depth opened := by
  rcases turn_cases h with ⟨m, rfl, -, rfl⟩ | ⟨m, o, rfl, -, hp, rfl⟩ | ⟨-, rfl⟩
  · have hm : m ≠ .leftBrace := fun he => hl (by rw [he])
    simp [depth, hm]
  · have ho : o ≠ .leftBrace := by
      rintro rfl
      cases m <;> first | exact absurd rfl hr | cases hp
    simp [depth, ho]
  · rfl

/-- A token counts as it opens and closes. This is the one way from a stack of brackets to a
number. -/
theorem Token.climb_of_turn {t : Token} {opened opened' : List Mark}
    (h : t.kind.turn opened = some opened') :
    t.climb (depth opened) = some (depth opened') := by
  by_cases hl : t.kind = .mark .leftBrace
  · rw [hl] at h
    cases h
    have hm : t.isMark .leftBrace = true := beq_iff_eq.2 hl
    rw [climb, if_pos hm]
    simp [depth]
  by_cases hr : t.kind = .mark .rightBrace
  · rw [hr] at h
    obtain rfl := TokenKind.eq_cons_of_turn rfl rfl h
    have hm : t.isMark .rightBrace = true := beq_iff_eq.2 hr
    rw [climb, if_neg (by simpa [isMark] using hl), if_pos hm]
    simp [depth]
  · rw [climb, if_neg (by simpa [isMark] using hl), if_neg (by simpa [isMark] using hr),
      TokenKind.depth_turn h hl hr]

/-! ## What a walk says about numbers -/

/-- How many opening braces there are. -/
def openings (ts : List Token) : Nat := ts.countP (·.isMark .leftBrace)

/-- How many closing braces there are. -/
def closings (ts : List Token) : Nat := ts.countP (·.isMark .rightBrace)

/-- A walk and the numbers of braces: what is open behind it, less what was open in front, is how
many more open than close. -/
theorem walk_eq {n m : Nat} {ts : List Token} (h : walk n ts = some m) :
    n + openings ts = m + closings ts := by
  induction ts generalizing n with
  | nil => cases h; rfl
  | cons t ts ih =>
    obtain ⟨i, hi, hm⟩ := Option.bind_eq_some_iff.1 h
    have hrest := ih hm
    have ht : n + openings [t] = i + closings [t] := by
      unfold Token.climb at hi
      split at hi <;> rename_i hl
      · cases hi
        have hr : t.isMark .rightBrace = false := by rw [Token.isMark, beq_iff_eq.1 hl]; rfl
        simp [openings, closings, hl, hr]
      split at hi <;> rename_i hr
      · split at hi
        · cases hi
        · cases hi
          simp [openings, closings, hl, hr]
          omega
      · cases hi
        simp [openings, closings, hl, hr]
    rw [openings, closings, ← List.singleton_append, List.countP_append, List.countP_append]
    rw [openings, closings] at hrest ht
    omega

/-- No front of a walk goes below zero. -/
theorem exists_walk_left {n m : Nat} {xs ys : List Token} (h : walk n (xs ++ ys) = some m) :
    ∃ k, walk n xs = some k := by
  rw [walk_append] at h
  obtain ⟨k, hk, -⟩ := Option.bind_eq_some_iff.1 h
  exact ⟨k, hk⟩

/-- In front of the last brace more are open than closed. -/
def StaysOpen (bs : List Token) : Prop :=
  ∀ xs ys, bs = xs ++ ys → xs ≠ [] → ys ≠ [] → closings xs < openings xs

/-- The last brace is the partner of the first: behind it, and not before, all are closed. -/
def ClosesItself (bs : List Token) : Prop :=
  StaysOpen bs ∧ openings bs = closings bs

/-- Between the two braces of a group, a walk never closes the first one. -/
theorem staysOpen_of_walk {first last : Token} {inner : List Token} {m : Nat}
    (hf : first.isMark .leftBrace = true) (hw : walk 0 inner = some m) :
    StaysOpen (first :: inner ++ [last]) := by
  intro xs ys he hx hy
  -- A front that is neither empty nor everything is the first brace and a front of the inside.
  obtain ⟨x, xs, rfl⟩ := List.exists_cons_of_ne_nil hx
  obtain ⟨ys, y, rfl⟩ := List.eq_nil_or_concat ys |>.resolve_left hy
  rw [List.concat_eq_append, ← List.append_assoc] at he
  obtain ⟨rfl, hinner⟩ := List.cons.inj (List.append_inj' he rfl).1
  replace hinner : inner = xs ++ ys := hinner
  rw [hinner] at hw
  obtain ⟨k, hk⟩ := exists_walk_left hw
  have hfront := walk_eq hk
  have hf' : first.isMark .rightBrace = false := by rw [Token.isMark, beq_iff_eq.1 hf]; rfl
  have hopen : openings (first :: xs) = openings xs + 1 := by simp [openings, hf]
  have hclose : closings (first :: xs) = closings xs := by simp [closings, hf']
  omega

/-- What is open behind a walk between two braces is open behind the second. So the group closes
itself exactly if the walk ends at zero. -/
theorem openings_of_walk {first last : Token} {inner : List Token} {m : Nat}
    (hf : first.isMark .leftBrace = true) (hl : last.isMark .rightBrace = true)
    (hw : walk 0 inner = some m) :
    openings (first :: inner ++ [last]) = closings (first :: inner ++ [last]) + m := by
  have hf' : first.isMark .rightBrace = false := by rw [Token.isMark, beq_iff_eq.1 hf]; rfl
  have hl' : last.isMark .leftBrace = false := by rw [Token.isMark, beq_iff_eq.1 hl]; rfl
  have hopen : openings (first :: inner ++ [last]) = openings inner + 1 := by
    simp [openings, hf, hl']
  have hclose : closings (first :: inner ++ [last]) = closings inner + 1 := by
    simp [closings, hf', hl]
  have hall := walk_eq hw
  omega

end Heddle
