import Heddle.Token

/-!
# Brackets that are open

Three pairs of marks nest: parentheses, brackets and braces. What is open at some point of a list
of tokens is a stack of opening marks, innermost first. `TokenKind.turn` is the step of one token,
and is not defined where a closing mark meets another partner than its own; `nest` is the run over
a list of tokens. A stack that nothing looks at may be put under everything.
-/

set_option autoImplicit false

namespace Heddle

/-- Whether the mark opens a group. -/
def Mark.opens : Mark → Bool
  | .leftBrace | .leftParen | .leftBracket => true
  | _ => false

/-- The mark that opens what this one closes. It is `none` for all marks that close nothing. -/
def Mark.partner? : Mark → Option Mark
  | .rightBrace => some .leftBrace
  | .rightParen => some .leftParen
  | .rightBracket => some .leftBracket
  | _ => none

/-- Whether the mark ends a group or a statement. -/
def Mark.ends (m : Mark) : Bool := m == .semicolon || m.partner?.isSome

namespace TokenKind

/-- Whether the token opens or closes a group. -/
def isBracket : TokenKind → Bool
  | mark m => m.opens || m.partner?.isSome
  | _ => false

/-- What is open behind a token; `none` if the token closes what is not open. The stack holds
opening marks, so a closing mark is right exactly if its partner is on top. -/
def turn (opened : List Mark) : TokenKind → Option (List Mark)
  | mark m =>
    if m.opens then some (m :: opened)
    else match m.partner? with
      | some o => if opened.head? = some o then some opened.tail else none
      | none => some opened
  | _ => some opened

/-- A token that is no bracket leaves open what is open. -/
theorem turn_of_not_isBracket {kind : TokenKind} (h : kind.isBracket = false)
    (opened : List Mark) : kind.turn opened = some opened := by
  cases kind with
  | mark m => cases m <;> first | rfl | cases h
  | _ => rfl

/-- What a token does to a stack it does to the stack with another one under it. A token that
closes nothing of the upper stack does not see the lower one. -/
theorem turn_append {kind : TokenKind} {opened opened' : List Mark}
    (h : kind.turn opened = some opened') (under : List Mark) :
    kind.turn (opened ++ under) = some (opened' ++ under) := by
  cases kind with
  | mark m =>
    unfold turn at h ⊢
    simp only at h ⊢
    split at h
    · cases h
      rename_i ho
      rw [if_pos ho]
      rfl
    · rename_i ho
      rw [if_neg ho]
      split at h
      · split at h <;> rename_i hh
        · cases h
          cases opened with
          | nil => cases hh
          | cons m' opened =>
            rw [List.cons_append, List.head?_cons, if_pos (by simpa using hh)]
            rfl
        · cases h
      · cases h
        rfl
  | _ => cases h; rfl

/-- A closing mark takes its partner off the stack. -/
theorem eq_cons_of_turn {m o : Mark} (ho : m.opens = false) (hp : m.partner? = some o)
    {opened opened' : List Mark} (h : turn opened (.mark m) = some opened') :
    opened = o :: opened' := by
  rw [turn, if_neg (by simp [ho]), hp] at h
  simp only at h
  split at h <;> rename_i hh
  · cases h
    obtain ⟨rest, rfl⟩ := List.head?_eq_some_iff.1 hh
    rfl
  · cases h

/-- All that a token can do: open a group, close the innermost one, or neither. Proofs about
`turn` begin with these cases and do not unfold it. -/
theorem turn_cases {kind : TokenKind} {opened opened' : List Mark}
    (h : kind.turn opened = some opened') :
    (∃ m, kind = .mark m ∧ m.opens = true ∧ opened' = m :: opened) ∨
    (∃ m o, kind = .mark m ∧ m.opens = false ∧ m.partner? = some o ∧ opened = o :: opened') ∨
    (kind.isBracket = false ∧ opened' = opened) := by
  cases kind with
  | mark m =>
    cases ho : m.opens with
    | true =>
      rw [turn, if_pos ho] at h
      cases h
      exact .inl ⟨m, rfl, ho, rfl⟩
    | false =>
      cases hp : m.partner? with
      | some o => exact .inr (.inl ⟨m, o, rfl, ho, hp, eq_cons_of_turn ho hp h⟩)
      | none =>
        rw [turn, if_neg (by simp [ho]), hp] at h
        cases h
        exact .inr (.inr ⟨by simp [isBracket, ho, hp], rfl⟩)
  | _ =>
    cases h
    exact .inr (.inr ⟨rfl, rfl⟩)

/-- Inside a group a token closes the group or leaves it open. This is the step of every argument
that follows a group up to its end. -/
theorem turn_inside {kind : TokenKind} {inner outer opened : List Mark} {m : Mark}
    (h : kind.turn (inner ++ m :: outer) = some opened) :
    (∃ c, kind = .mark c ∧ c.partner? = some m ∧ inner = [] ∧ opened = outer) ∨
      ∃ inner', kind.turn inner = some inner' ∧ opened = inner' ++ m :: outer := by
  rcases turn_cases h with ⟨o, rfl, ho, rfl⟩ | ⟨c, o, rfl, hc, hp, hs⟩ | ⟨hb, rfl⟩
  · exact .inr ⟨o :: inner, by rw [turn, if_pos ho], rfl⟩
  · cases inner with
    | nil =>
      obtain ⟨rfl, rfl⟩ := List.cons.inj hs
      exact .inl ⟨c, rfl, hp, rfl, rfl⟩
    | cons o' inner =>
      obtain ⟨rfl, rfl⟩ := List.cons.inj hs
      exact .inr ⟨inner, by simp [turn, hc, hp], rfl⟩
  · exact .inr ⟨inner, turn_of_not_isBracket hb inner, rfl⟩

end TokenKind

/-- What is open behind a list of tokens; `none` if some token closes what is not open. -/
def nest (opened : List Mark) : List Token → Option (List Mark)
  | [] => some opened
  | t :: ts => (t.kind.turn opened).bind (nest · ts)

@[simp] theorem nest_nil (opened : List Mark) : nest opened [] = some opened := rfl

@[simp] theorem nest_cons (opened : List Mark) (t : Token) (ts : List Token) :
    nest opened (t :: ts) = (t.kind.turn opened).bind (nest · ts) := rfl

/-- Trivia opens and closes nothing. -/
theorem nest_dropWhile (opened : List Mark) (ts : List Token) :
    nest opened (ts.dropWhile (·.kind.isTrivia)) = nest opened ts := by
  induction ts with
  | nil => rfl
  | cons t ts ih =>
    cases ht : t.kind.isTrivia with
    | false => rw [List.dropWhile_cons_of_neg (by simp [ht])]
    | true =>
      have hb : t.kind.isBracket = false := by
        cases hk : t.kind <;> first | rfl | (rw [hk] at ht; cases ht)
      rw [List.dropWhile_cons_of_pos (by simpa using ht), ih, nest_cons,
        TokenKind.turn_of_not_isBracket hb]
      rfl

/-- What is no bracket opens and closes nothing. It is used for the tokens in front of which two
tapes disagree. -/
theorem nest_of_plain {xs : List Token} (h : ∀ t ∈ xs, t.kind.isBracket = false)
    (opened : List Mark) (ts : List Token) : nest opened (xs ++ ts) = nest opened ts := by
  induction xs with
  | nil => rfl
  | cons t xs ih =>
    rw [List.cons_append, nest_cons, TokenKind.turn_of_not_isBracket (h t List.mem_cons_self)]
    exact ih fun u hu => h u (List.mem_cons_of_mem t hu)

/-! ## The end of a statement -/

/-- The last token, if there is one, is a semicolon. What is left of such a list is again such a
list, whatever is taken off its front. -/
def Finished (ts : List Token) : Prop := ∀ t ∈ ts.getLast?, t.kind = .mark .semicolon

theorem Finished.right {xs ys : List Token} (h : Finished (xs ++ ys)) : Finished ys := by
  intro t ht
  apply h t
  rw [List.getLast?_append, Option.mem_def.1 ht]
  rfl

theorem Finished.tail {t : Token} {ts : List Token} (h : Finished (t :: ts)) : Finished ts :=
  @Finished.right [t] ts h

theorem Finished.dropWhile {ts : List Token} (h : Finished ts) (p : Token → Bool) :
    Finished (ts.dropWhile p) := by
  rw [← @List.takeWhile_append_dropWhile _ p ts] at h
  exact h.right

theorem Finished.behind {ts : List Token} (h : Finished ts) (hn : ts ≠ []) (xs : List Token) :
    Finished (xs ++ ts) := by
  intro t ht
  apply h t
  rw [List.getLast?_append] at ht
  cases hl : ts.getLast? with
  | none => exact absurd (List.getLast?_eq_none_iff.1 hl) hn
  | some u =>
    rw [hl] at ht
    exact ht

/-- The only token left is the semicolon. -/
theorem Finished.of_singleton {t : Token} (h : Finished [t]) : t.kind = .mark .semicolon :=
  h t rfl

end Heddle
