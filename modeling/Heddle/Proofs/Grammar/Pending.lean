import Heddle.Proofs.Grammar.Balanced
import Heddle.Proofs.Grammar.Local

/-!
# Looks ahead from inside a broken statement

A look ahead from a statement that is not well-formed may meet brackets in any disorder, and then it
goes on over the semicolon at the end of the statement. What it finds behind it could matter. **It
does not, if what follows closes all it opens**: a scan that is still inside a group when it comes
to the semicolon never leaves that group, so it goes through all that follows and comes to no other
end than the end of the text. Such a look is `StopsAtPending`; it is a class, so that a rule finds
by itself that the looks in it are.

One look of the grammar is not: whether a bracket has a key and a value type inside (`isMapType`)
may depend on a colon of the next statement. The rules of spelling therefore treat a type in
brackets apart (`Phrase.Spells.bracketType`), and `Attempt.isolated_key` says what becomes of it.
-/

set_option autoImplicit false

namespace Heddle

open Token

/-! ## One statement at most -/

/-- The tokens of a statement up to its end: the last one is a semicolon, and in front of it there
is neither another semicolon nor a brace. Nothing is said of the other brackets, which may be in
any disorder. -/
def Pending (ts : List Token) : Prop :=
  ∃ front last, ts = front ++ [last] ∧ last.isMark .semicolon = true ∧ ∀ t ∈ front,
    t.isMark .semicolon = false ∧ t.isMark .leftBrace = false ∧ t.isMark .rightBrace = false

namespace Pending

variable {t : Token} {ts us : List Token}

theorem ne_nil (h : Pending ts) : ts ≠ [] := by
  obtain ⟨front, last, rfl, -⟩ := h
  simp

theorem finished (h : Pending ts) : Finished ts := by
  obtain ⟨front, last, rfl, hl, -⟩ := h
  intro t ht
  rw [List.getLast?_concat, Option.mem_some_iff] at ht
  exact ht ▸ kind_of_isMark hl

/-- There is no brace in it. -/
theorem not_isBrace (h : Pending ts) (ht : t ∈ ts) :
    t.isMark .leftBrace = false ∧ t.isMark .rightBrace = false := by
  obtain ⟨front, last, rfl, hl, hf⟩ := h
  rcases List.mem_append.1 ht with ht | ht
  · exact (hf t ht).2
  · obtain rfl := List.mem_singleton.1 ht
    have hk := kind_of_isMark hl
    simp [isMark, hk]

/-- The semicolon, or something in front of it. Inductions over the tokens of a statement split by
this and not by the list. -/
theorem cases_head (h : Pending (t :: ts)) : t.isMark .semicolon = true ∧ ts = [] ∨
    (t.isMark .semicolon = false ∧ t.isMark .leftBrace = false ∧ t.isMark .rightBrace = false) ∧
      Pending ts := by
  obtain ⟨front, last, he, hl, hf⟩ := h
  cases front with
  | nil =>
    obtain ⟨rfl, rfl⟩ := List.cons.inj he
    exact .inl ⟨hl, rfl⟩
  | cons u front =>
    obtain ⟨rfl, rfl⟩ := List.cons.inj he
    obtain ⟨ht, hf⟩ := List.forall_mem_cons.1 hf
    exact .inr ⟨ht, front, last, rfl, hl, hf⟩

/-- What is behind another token than the semicolon. -/
theorem tail (h : Pending (t :: ts)) (ht : t.isMark .semicolon = false) : Pending ts := by
  rcases h.cases_head with ⟨hk, -⟩ | ⟨-, hts⟩
  · rw [ht] at hk
    cases hk
  · exact hts

/-- A back that has the semicolon. -/
theorem right (h : Pending (us ++ ts)) (hn : ts ≠ []) : Pending ts := by
  induction us with
  | nil => exact h
  | cons u us ih =>
    rcases h.cases_head with ⟨-, he⟩ | ⟨-, hus⟩
    · exact absurd (List.append_eq_nil_iff.1 he).2 hn
    · exact ih hus

/-- More in front of it. -/
theorem behind (h : Pending ts) (hu : ∀ t ∈ us, t.kind.isBracket = false ∧
    t.kind ≠ .mark .semicolon) : Pending (us ++ ts) := by
  obtain ⟨front, last, rfl, hl, hf⟩ := h
  refine ⟨us ++ front, last, (List.append_assoc _ _ _).symm, hl, fun t ht => ?_⟩
  rcases List.mem_append.1 ht with ht | ht
  · obtain ⟨hb, hs⟩ := hu t ht
    have hm {m : Mark} (hk : t.kind ≠ .mark m) : t.isMark m = false := beq_eq_false_iff_ne.2 hk
    refine ⟨hm hs, hm fun hk => ?_, hm fun hk => ?_⟩ <;> (rw [hk] at hb; cases hb)
  · exact hf t ht

theorem dropWhile (h : Pending ts) : Pending (ts.dropWhile isTrivia) := by
  have hall := @List.takeWhile_append_dropWhile _ isTrivia ts
  rw [← hall] at h
  exact h.right ((hall ▸ h).finished.dropWhile_ne_nil (hall ▸ h).ne_nil)

end Pending

namespace Lookahead

/-- What is seen of a statement up to its semicolon does not depend on what follows it, if all
that is opened there is closed. It is a class so that the rules of `Phrase.Spells` find it for
each of their looks by themselves. -/
class StopsAtPending (test : Lookahead) : Prop where
  append : ∀ {ts more : List Token}, Pending ts → nest [] more = some [] →
    test (ts ++ more) = test ts

/-! ## Scans inside of a group -/

/-- A closing parenthesis or bracket closes one of the groups that are open. -/
theorem groups_pos {t : Token} {s s' : List Mark} (h : t.kind.turn s = some s')
    (hc : (t.isMark .rightParen || t.isMark .rightBracket) = true) : 0 < groups s := by
  rcases Bool.or_eq_true_iff.1 hc with hk | hk <;>
    (rw [kind_of_isMark hk] at h
     rw [TokenKind.eq_cons_of_turn rfl rfl h]
     exact Nat.succ_pos _)

/-- From inside a group that is not closed nothing is reached. What follows closes only what it
opens, so the depth of the scan never comes down to zero. -/
theorem reachesFirst_nested {more : List Token} {s : List Mark} (hs : nest s more = some [])
    {d : Nat} (hd : groups s < d) : reachesFirst d more = .terminator := by
  induction more generalizing s d with
  | nil => rfl
  | cons t ts ih =>
    obtain ⟨s', ht, hs'⟩ := Option.bind_eq_some_iff.1 hs
    have hg := groups_turn ht
    rw [reachesFirst]
    split <;> rename_i ho
    · rw [if_pos ho] at hg
      exact ih hs' (by omega)
    rw [if_neg ho] at hg
    split <;> rename_i hc
    · rw [if_pos hc] at hg
      have := groups_pos ht hc
      exact ih hs' (by omega)
    rw [if_neg hc] at hg
    rw [if_pos (by simp; omega)]
    exact ih hs' (by omega)

theorem isValue_nested {more : List Token} {s : List Mark} (hs : nest s more = some [])
    {d : Nat} (hd : groups s < d) : isValue d more = true := by
  induction more generalizing s d with
  | nil => rfl
  | cons t ts ih =>
    obtain ⟨s', ht, hs'⟩ := Option.bind_eq_some_iff.1 hs
    have hg := groups_turn ht
    rw [isValue]
    split <;> rename_i ho
    · rw [if_pos ho] at hg
      exact ih hs' (by omega)
    rw [if_neg ho] at hg
    split <;> rename_i hc
    · rw [if_pos hc] at hg
      have := groups_pos ht hc
      exact ih hs' (by omega)
    rw [if_neg hc] at hg
    rw [if_pos (by simp; omega)]
    exact ih hs' (by omega)

/-- The two marks of a group. -/
def Encloses (opening closing : Mark) : Prop :=
  opening.opens = true ∧ ∀ m : Mark, m.partner? = some opening ↔ m = closing

/-- A scan that is inside a group goes through everything that closes all it opens. Its count is
never below the number of marks that are open, so it does not come to zero. -/
theorem behindSign?_nested {opening closing : Mark} (he : Encloses opening closing)
    {more : List Token} {s : List Mark} (hs : nest s more = some []) {inner : Nat}
    (hi : s.count opening ≤ inner) :
    behindSign? (.group opening closing inner) more = none := by
  induction more generalizing s inner with
  | nil => rfl
  | cons t ts ih =>
    obtain ⟨s', ht, hs'⟩ := Option.bind_eq_some_iff.1 hs
    have hcount := count_turn ht he.1 he.2
    simp only [behindSign?]
    split <;> rename_i hopen
    · rw [if_pos hopen] at hcount
      exact ih hs' (by omega)
    rw [if_neg hopen] at hcount
    split <;> rename_i hclose
    · rw [if_pos hclose] at hcount
      have hpos : 0 < s.count opening := by
        rw [kind_of_isMark hclose] at ht
        have hc : closing.opens = false := by
          have hp := (he.2 closing).2 rfl
          cases closing <;> first | rfl | cases hp
        rw [TokenKind.eq_cons_of_turn hc ((he.2 closing).2 rfl) ht, List.count_cons_self]
        exact Nat.succ_pos _
      cases inner with
      | zero => omega
      | succ inner => exact ih hs' (by omega)
    · rw [if_neg hclose] at hcount
      exact ih hs' (by omega)

/-! ## Scans from inside a statement -/

variable {ts more : List Token}

theorem reachesFirst_pending (h : Pending ts) (hm : nest [] more = some []) (d : Nat) :
    reachesFirst d (ts ++ more) = reachesFirst d ts := by
  induction ts generalizing d with
  | nil => exact absurd rfl h.ne_nil
  | cons t ts ih =>
    rcases h.cases_head with ⟨hk, rfl⟩ | ⟨-, hts⟩
    · have hk := kind_of_isMark hk
      by_cases hd : d = 0
      · subst hd
        simp [reachesFirst, isMark, hk]
      · have hrest : reachesFirst d more = .terminator :=
          reachesFirst_nested hm (Nat.pos_of_ne_zero hd)
        simp [reachesFirst, isMark, hk, hrest]
    · simp only [List.cons_append, reachesFirst, ih hts]

theorem isValue_pending (h : Pending ts) (hm : nest [] more = some []) (d : Nat) :
    isValue d (ts ++ more) = isValue d ts := by
  induction ts generalizing d with
  | nil => exact absurd rfl h.ne_nil
  | cons t ts ih =>
    rcases h.cases_head with ⟨hk, rfl⟩ | ⟨-, hts⟩
    · have hk := kind_of_isMark hk
      by_cases hd : d = 0
      · subst hd
        simp [isValue, isMark, hk]
      · have hrest : isValue d more = true := isValue_nested hm (Nat.pos_of_ne_zero hd)
        simp [isValue, isMark, hk, hrest]
    · have hnext : next isObjectWord (ts ++ more) = next isObjectWord ts :=
        stopsAtSemicolon_next _ ts more hts.ne_nil hts.finished
      simp only [List.cons_append, isValue, ih hts, hnext]

/-- A scan is in a group of parentheses or brackets, if it is in one. -/
def TargetState.Encloses : TargetState → Prop
  | group opening closing _ => Lookahead.Encloses opening closing
  | _ => True

/-- A scan over the target of an assignment comes to the same end, and if it finds its sign it
does so in front of the semicolon. What is behind the sign is then still the end of the statement.
-/
theorem behindSign?_pending (h : Pending ts) (hm : nest [] more = some []) {st : TargetState}
    (hst : st.Encloses) :
    behindSign? st (ts ++ more) = (behindSign? st ts).map (· ++ more) ∧
      ∀ xs, behindSign? st ts = some xs → Pending xs := by
  induction ts generalizing st with
  -- The induction is on the tokens with the state of the scan arbitrary. Only at the semicolon
  -- does what follows come into view; every other token is passed to the rest of the statement.
  | nil => exact absurd rfl h.ne_nil
  | cons t ts ih =>
    rcases h.cases_head with ⟨hk, rfl⟩ | ⟨-, hts⟩
    · -- At the semicolon only a scan inside of a group goes on, and never leaves it.
      have hk := kind_of_isMark hk
      cases st with
      | between => simp [behindSign?, isMark, isTrivia, hk, TokenKind.isTrivia]
      | name => simp [behindSign?, isName, hk]
      | group opening closing inner =>
        have hother {m : Mark} (hm : m ≠ .semicolon) : t.isMark m = false := by
          rw [isMark, hk]
          exact beq_eq_false_iff_ne.2 fun he => hm (TokenKind.mark.inj he).symm
        have hopening : t.isMark opening = false := hother (by rintro rfl; cases hst.1)
        have hclosing : t.isMark closing = false := hother (by rintro rfl; cases (hst.2 _).2 rfl)
        have hrest := behindSign?_nested hst hm (Nat.zero_le inner)
        simp [behindSign?, hopening, hclosing, hrest]
    · replace ih := @ih hts
      rw [List.cons_append]
      cases st with
      | between =>
        simp only [behindSign?]
        split
        · exact ih trivial
        split
        · exact ih ⟨rfl, fun m => by cases m <;> decide⟩
        split
        · exact ih ⟨rfl, fun m => by cases m <;> decide⟩
        split
        · exact ih trivial
        split
        · exact ⟨rfl, fun xs hx => Option.some.inj hx ▸ hts⟩
        · exact ⟨rfl, fun _ hx => absurd hx.symm (Option.some_ne_none _)⟩
      | name =>
        simp only [behindSign?]
        split
        · exact ih trivial
        · exact ⟨rfl, fun _ hx => absurd hx.symm (Option.some_ne_none _)⟩
      | group opening closing inner =>
        simp only [behindSign?]
        split
        · exact ih hst
        split
        · cases inner with
          | zero => exact ih trivial
          | succ inner => exact ih hst
        · exact ih hst

/-- The same of the head of a target: it ends in the statement, and what is behind it is the end
of the statement. -/
theorem behindHead?_pending (h : Pending ts) (more : List Token) :
    behindHead? (ts ++ more) = (behindHead? ts).map (· ++ more) ∧
      ∀ xs, behindHead? ts = some xs → Pending xs := by
  have hd := h.dropWhile
  have hlong : (ts ++ more).dropWhile isTrivia = ts.dropWhile isTrivia ++ more := by
    rw [List.dropWhile_append, if_neg (by simpa using hd.ne_nil)]
  unfold behindHead?
  rw [hlong]
  generalize ts.dropWhile isTrivia = us at hd ⊢
  cases us with
  | nil => exact absurd rfl hd.ne_nil
  | cons t us =>
    simp only [List.cons_append]
    -- Behind the trivia the head is a name, an object, or nothing that a target begins with; what
    -- is left of the statement is behind it.
    rcases hd.cases_head with ⟨hk, rfl⟩ | ⟨-, hus⟩
    · have hk := kind_of_isMark hk
      simp [isName, isMark, hk]
    · split
      · exact ⟨rfl, fun xs hx => Option.some.inj hx ▸ hus⟩
      · rw [stopsAtSemicolon_next _ us more hus.ne_nil hus.finished]
        split <;> rename_i hobject
        · obtain ⟨u, vs, rfl⟩ := List.exists_cons_of_ne_nil hus.ne_nil
          refine ⟨rfl, fun xs hx => Option.some.inj hx ▸ hus.tail ?_⟩
          have hu : isObjectWord u = true := (Bool.and_eq_true_iff.1 hobject).2
          have hword := kind_of_isName (Bool.and_eq_true_iff.1 hu).1
          simp [isMark, hword]
        · exact ⟨rfl, fun _ hx => absurd hx.symm (Option.some_ne_none _)⟩

/-! ## The looks of the grammar -/

theorem StopsAtSemicolon.stopsAtPending {test : Lookahead} (h : StopsAtSemicolon test) :
    StopsAtPending test :=
  ⟨fun hts _ => h _ _ hts.ne_nil hts.finished⟩

instance (P : Token → Bool) : StopsAtPending (next P) := (stopsAtSemicolon_next P).stopsAtPending

instance (P : Token → Bool) : StopsAtPending (significant P) :=
  (stopsAtSemicolon_significant P).stopsAtPending

instance : StopsAtPending isObject :=
  (stopsAtSemicolon_pair (open_isMark (by decide))).stopsAtPending

instance : StopsAtPending isCall := (stopsAtSemicolon_pair open_isName).stopsAtPending

instance : StopsAtPending isSpacedCall := stopsAtSemicolon_isSpacedCall.stopsAtPending

instance : StopsAtPending isMultipleType := stopsAtSemicolon_isMultipleType.stopsAtPending

instance : StopsAtPending isDescendant :=
  ((stopsAtSemicolon_next _).and (stopsAtSemicolon_significant _)).stopsAtPending

instance : StopsAtPending (pair (isMark .dot) isName) :=
  (stopsAtSemicolon_pair (open_isMark (by decide))).stopsAtPending

instance : StopsAtPending (pair (isMark .hash) isName) :=
  (stopsAtSemicolon_pair (open_isMark (by decide))).stopsAtPending

instance : StopsAtPending (pair (isMark .colon) isName) :=
  (stopsAtSemicolon_pair (open_isMark (by decide))).stopsAtPending

instance (a b : Lookahead) [ha : StopsAtPending a] [hb : StopsAtPending b] :
    StopsAtPending fun ts => a ts || b ts :=
  ⟨fun hts hm => by simp only [ha.append hts hm, hb.append hts hm]⟩

instance : StopsAtPending isRule :=
  ⟨fun hts hm => by rw [isRule, isRule, reachesFirst_pending hts hm]⟩

instance : StopsAtPending isSelectorCall :=
  ⟨fun hts hm => by rw [isSelectorCall, isSelectorCall, reachesFirst_pending hts hm]⟩

instance : StopsAtPending isAssignment := by
  refine ⟨fun {ts more} hts hm => ?_⟩
  obtain ⟨hhead, hhead'⟩ := behindHead?_pending hts more
  rw [isAssignment, isAssignment, hhead]
  cases hx : behindHead? ts with
  | none => rfl
  | some xs =>
    obtain ⟨hsign, hsign'⟩ := @behindSign?_pending xs more (hhead' xs hx) hm .between trivial
    simp only [Option.map_some, Option.bind_some, hsign]
    cases hy : behindSign? .between xs with
    | none => rfl
    | some ys =>
      simp only [Option.map_some, Option.getD_some]
      exact isValue_pending (hsign' ys hy) hm 0

end Lookahead

namespace Phrase

open Lookahead

instance : StopsAtPending isSelectorPart :=
  inferInstanceAs (StopsAtPending fun ts => pair (isMark .dot) isName ts ||
    pair (isMark .hash) isName ts || pair (isMark .colon) isName ts ||
    next (isMark .leftBracket) ts)

end Phrase

end Heddle
