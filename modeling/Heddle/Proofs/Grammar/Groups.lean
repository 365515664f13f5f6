import Heddle.Proofs.Grammar.Pending

/-!
# What is seen from inside a group

A rule that has opened a group looks ahead inside of it, and all of its looks but those for
statements are answered before the group ends (`Production.stopsAtClosing_body`). Those for
statements only ever look from inside a block, which is another matter (`Lookahead.StopsAtEnd`).

A look for what a statement reaches first goes over groups. It passes over what is between two
brackets as it counts them, so **from inside a group such a look sees no more of a construct than
what the construct has opened** (`reachesFirst_turn`).
-/

set_option autoImplicit false

namespace Heddle

open Lookahead Token

namespace Phrase

/-- Every look ahead that the phrase takes, but for those in the statements of a list. Those are
taken inside a block and are `StopsAtEnd` for another reason. -/
def OwnLooks (P : Lookahead → Prop) : Phrase → Prop
  | andThen first second => first.OwnLooks P ∧ second.OwnLooks P
  | choose test yes no => P test ∧ yes.OwnLooks P ∧ no.OwnLooks P
  | repeating test body => P test ∧ body.OwnLooks P
  | spacedCalls yes no => yes.OwnLooks P ∧ no.OwnLooks P
  | empty | take _ | trivia | node _ | expected _ | orphan | statements _ _ | quoted _ _
  | hexDigits | foreign => True

theorem Looks.own {P R : Lookahead → Prop} (hp : ∀ test, P test → R test) {q : Phrase}
    (h : q.Looks P) : q.OwnLooks R := by
  induction q with
  | andThen first second ih₁ ih₂ => exact ⟨ih₁ h.1, ih₂ h.2⟩
  | choose test yes no ihy ihn => exact ⟨hp test h.1, ihy h.2.1, ihn h.2.2⟩
  | repeating test body ih => exact ⟨hp test h.1, ih h.2⟩
  | spacedCalls yes no ihy ihn => exact ⟨ihy h.1, ihn h.2⟩
  | _ => trivial

end Phrase

/-- Whether the token is one that a statement can reach first. The looks for landmarks are the
only ones that can see a token outside of every group. -/
def Token.isLandmark (t : Token) : Bool :=
  [.arrow, .leftBrace, .semicolon, .rightBrace].any t.isMark

namespace Lookahead

@[simp] theorem stopsAtClosing_marked {m : Mark} (hm : m.ends = false) (P : Token → Bool) :
    StopsAtClosing (pair (isMark m) P) := stopsAtClosing_pair (open_isMark hm)

@[simp] theorem stopsAtClosing_isObject : StopsAtClosing isObject := stopsAtClosing_marked rfl _

@[simp] theorem stopsAtClosing_isCall : StopsAtClosing isCall := stopsAtClosing_pair open_isName

@[simp] theorem stopsAtClosing_isDescendant : StopsAtClosing isDescendant :=
  (stopsAtClosing_next _).and (stopsAtClosing_significant _)

@[simp] theorem stopsAtClosing_isSelectorPart : StopsAtClosing Phrase.isSelectorPart :=
  (((stopsAtClosing_marked rfl _).or (stopsAtClosing_marked rfl _)).or
      (stopsAtClosing_marked rfl _)).or
    (stopsAtClosing_next _)

/-! ## What a statement reaches first -/

/-- A token counts, or it is not seen: no landmark is one inside of a group. The number `k` stands
for the groups around the rule, of which the look knows no more than how many they are. -/
theorem reachesFirst_turn {t : Token} {s s' : List Mark} (h : t.kind.turn s = some s') {k : Nat}
    (hk : t.isLandmark = false ∨ 0 < groups s + k) (ts : List Token) :
    reachesFirst (groups s + k) (t :: ts) = reachesFirst (groups s' + k) ts := by
  have hg := groups_turn h
  rw [reachesFirst]
  split <;> rename_i ho
  · rw [if_pos ho] at hg
    rw [hg, Nat.add_right_comm]
  rw [if_neg ho] at hg
  split <;> rename_i hc
  · rw [if_pos hc] at hg
    have hpos := groups_pos h hc
    rw [hg, Nat.sub_add_comm hpos]
  rw [if_neg hc] at hg
  rw [hg]
  rcases hk with hk | hk
  · simp only [isLandmark, List.any_cons, List.any_nil, Bool.or_eq_false_iff] at hk
    obtain ⟨ha, hl, hs, hr, -⟩ := hk
    simp [ha, hl, hs, hr]
  · rw [if_pos (by simpa using Nat.ne_of_gt hk)]

/-- What a rule has opened is in the groups around it. -/
theorem groups_pos_append {outer : List Mark} {k : Nat} (hk : 0 < groups outer + k)
    (opened : List Mark) : 0 < groups (opened ++ outer) + k := by
  rw [groups, List.filter_append, List.length_append]
  exact Nat.lt_of_lt_of_le hk (Nat.add_le_add_right (Nat.le_add_left _ _) k)

theorem reachesFirst_dropWhile (d : Nat) (ts more : List Token) :
    reachesFirst d (ts.dropWhile isTrivia ++ more) = reachesFirst d (ts ++ more) := by
  induction ts with
  | nil => rfl
  | cons t ts ih =>
    cases ht : t.isTrivia with
    | false => rw [List.dropWhile_cons_of_neg (by simp [ht])]
    | true =>
      have hb : t.kind.isBracket = false := (plain_isTrivia t ht).1
      have hl : t.isLandmark = false := by
        cases hk : t.kind <;> simp [isTrivia, isLandmark, isMark, TokenKind.isTrivia, hk] at ht ⊢
      have hseen := @reachesFirst_turn t [] [] (TokenKind.turn_of_not_isBracket hb []) d (.inl hl)
        (ts ++ more)
      rw [show groups [] = 0 from rfl, Nat.zero_add] at hseen
      rw [List.dropWhile_cons_of_pos ht, ih, List.cons_append, hseen]

end Lookahead

/-! ## In front of a brace or an arrow -/

/-- Whether selectors end in front of the token, and a block or a call begins. -/
def Token.isBar (t : Token) : Bool := t.isMark .leftBrace || t.isMark .arrow

namespace Lookahead

/-- More tokens behind a blank do not change the answer, if a brace or an arrow is the first of
them. The looks of selectors need it: a selector is followed by the one or the other, and by
nothing else. -/
def StopsAtBar (test : Lookahead) : Prop :=
  ∀ ts more : List Token, (∀ t ∈ ts.getLast?, t.kind = .blank) →
    (∀ t ∈ more.head?, t.isBar = true) → test (ts ++ more) = test ts

/-- The token is neither a brace nor an arrow. -/
def Barless (P : Token → Bool) : Prop := ∀ t : Token, t.isBar = true → P t = false

theorem kind_of_isBar {t : Token} (h : t.isBar = true) :
    t.kind = .mark .leftBrace ∨ t.kind = .mark .arrow :=
  (Bool.or_eq_true_iff.1 h).imp kind_of_isMark kind_of_isMark

theorem barless_of_kind {P : Token → Bool}
    (hl : ∀ t : Token, t.kind = .mark .leftBrace → P t = false)
    (ha : ∀ t : Token, t.kind = .mark .arrow → P t = false) : Barless P :=
  fun t ht => (kind_of_isBar ht).elim (hl t) (ha t)

theorem stopsAtBar_next {P : Token → Bool} (hp : Barless P) : StopsAtBar (next P) := by
  intro ts more _ hm
  cases ts with
  | cons t ts => rfl
  | nil =>
    cases more with
    | nil => rfl
    | cons t more => exact hp t (hm t rfl)

theorem stopsAtBar_significant {P : Token → Bool} (hp : Barless P) :
    StopsAtBar (significant P) := by
  intro ts more _ hm
  by_cases hd : ts.dropWhile isTrivia = []
  · -- All that is left is trivia, so what follows is what is significant.
    have hall : (ts ++ more).dropWhile isTrivia = more := by
      rw [List.dropWhile_append, if_pos (by rw [hd]; rfl)]
      cases more with
      | nil => rfl
      | cons t more =>
        have ht : t.isTrivia = false := by
          rcases kind_of_isBar (hm t rfl) with hk | hk <;> rw [isTrivia, hk] <;> rfl
        rw [List.dropWhile_cons_of_neg (by simp [ht])]
    rw [← next_dropWhile, ← next_dropWhile, hall, hd]
    exact stopsAtBar_next hp [] more (fun _ ht => absurd ht (Option.not_mem_none _)) hm
  · exact significant_append P hd more

theorem stopsAtBar_pair {P R : Token → Bool} (hp : Barless P)
    (hb : ∀ t : Token, t.kind = .blank → P t = false) : StopsAtBar (pair P R) := by
  intro ts more hl hm
  cases ts with
  | nil =>
    match more, hm with
    | [], _ => rfl
    | [t], _ => rfl
    | t :: u :: more, hm => simp [pair, hp t (hm t rfl)]
  | cons t ts =>
    cases ts with
    | cons u ts => rfl
    | nil =>
      have ht := hb t (hl t rfl)
      cases more with
      | nil => rfl
      | cons u more => simp [pair, ht]

theorem StopsAtBar.or {a b : Lookahead} (ha : StopsAtBar a) (hb : StopsAtBar b) :
    StopsAtBar fun ts => a ts || b ts := by
  intro ts more hl hm
  simp only [ha ts more hl hm, hb ts more hl hm]

theorem barless_isMark {m : Mark} (hm : (TokenKind.mark m == .mark .leftBrace ||
    TokenKind.mark m == .mark .arrow) = false) : Barless (isMark m) := by
  simp only [Bool.or_eq_false_iff, beq_eq_false_iff_ne] at hm
  exact barless_of_kind (fun t hk => beq_eq_false_iff_ne.2 fun he => hm.1 (he.symm.trans hk))
    fun t hk => beq_eq_false_iff_ne.2 fun he => hm.2 (he.symm.trans hk)

theorem barless_isName : Barless isName :=
  barless_of_kind (fun t hk => by rw [isName, hk]; rfl) fun t hk => by rw [isName, hk]; rfl

theorem barless_isTrivia : Barless isTrivia :=
  barless_of_kind (fun t hk => by rw [isTrivia, hk]; rfl) fun t hk => by rw [isTrivia, hk]; rfl

theorem barless_or {P R : Token → Bool} (hp : Barless P) (hr : Barless R) :
    Barless fun t => P t || R t := fun t ht => by simp [hp t ht, hr t ht]

theorem stopsAtBar_marked {m : Mark} (hm : (TokenKind.mark m == .mark .leftBrace ||
    TokenKind.mark m == .mark .arrow) = false) (R : Token → Bool) :
    StopsAtBar (pair (isMark m) R) :=
  stopsAtBar_pair (barless_isMark hm) fun t hk => by rw [isMark, hk]; rfl

theorem stopsAtBar_isSelectorPart : StopsAtBar Phrase.isSelectorPart :=
  (((stopsAtBar_marked rfl _).or (stopsAtBar_marked rfl _)).or (stopsAtBar_marked rfl _)).or
    (stopsAtBar_next (barless_isMark rfl))

/-- A blank in front of a brace or an arrow combines nothing. -/
theorem stopsAtBar_isDescendant : StopsAtBar isDescendant := by
  have htrivia : StopsAtBar (next isTrivia) := stopsAtBar_next barless_isTrivia
  have hrefused : StopsAtBar (significant (!·.refusesBlank)) := stopsAtBar_significant <|
    barless_of_kind (fun t hk => by simp [refusesBlank, isMark, hk])
      fun t hk => by simp [refusesBlank, isMark, hk]
  intro ts more hl hm
  simp only [isDescendant, htrivia ts more hl hm, hrefused ts more hl hm]

theorem barless_isCombinator : Barless isCombinator :=
  barless_of_kind (fun t hk => by simp [isCombinator, isMark, hk])
    fun t hk => by simp [isCombinator, isMark, hk]

end Lookahead

open Phrase in
/-- **The looks of a rule are answered before the group they are in ends.** With
`Reading.Enclosed` it follows that a group is read alike whatever stands behind it. -/
theorem Production.stopsAtClosing_body (p : Production) : p.body.OwnLooks StopsAtClosing := by
  have hcombination : StopsAtClosing fun ts => isDescendant ts || significant isCombinator ts :=
    stopsAtClosing_isDescendant.or (stopsAtClosing_significant _)
  have hdotted : StopsAtClosing fun ts =>
      pair (isMark .dot) isName ts || next (isMark .leftBracket) ts :=
    (stopsAtClosing_marked rfl _).or (stopsAtClosing_next _)
  cases p <;> simp [body, OwnLooks, seq, oneOf, hcombination, hdotted, Mark.ends, Mark.partner?,
    stopsAtClosing_next, stopsAtClosing_significant, stopsAtClosing_isSpacedCall,
    stopsAtClosing_isMultipleType,
    stopsAtClosing_isMapType, bareKeyword, mark, expect, name, keyword, Phrase.optional, further,
    commaSeparated, listUpTo, singleType, type, primary, operand, operation, arguments,
    Phrase.segment, selectorPart, selectorParts, terminator, condition, optionalFinally]

end Heddle
