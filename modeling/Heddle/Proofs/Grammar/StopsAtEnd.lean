import Heddle.Grammar.Lookahead
import Heddle.Proofs.Token.Nesting

/-!
# Looks ahead that stop in time

A look ahead may go through all tokens that are left, and then more tokens at the end could change
its answer. **It never does so at a text that is finished, nor inside a block**: the last token is a
semicolon, or the brace that closes the block is there, and from where the look begins every
bracket is closed in order. Such a look is `StopsAtEnd`.

Most looks only see the next significant token, and a semicolon is one, as is the end of whatever
group the look is in (`StopsAtClosing`). The others scan, and count what they skip: those that count
parentheses and brackets may do it in disorder, so what holds of their count is a bound and no
equation, `groups` of the brackets that are open. When the scan comes to the last semicolon or to
the brace nothing is open, so the count is zero and the scan ends. The scans for a closing bracket
carry which bracket they wait for, and come to it before the end since it is closed there.
-/

set_option autoImplicit false

namespace Heddle

open Token

theorem Finished.exists_last {ts : List Token} (h : Finished ts) (hn : ts ≠ []) :
    ∃ t ∈ ts, t.kind = .mark .semicolon := by
  obtain ⟨t, ht⟩ := Option.isSome_iff_exists.1 (List.getLast?_isSome.2 hn)
  exact ⟨t, List.mem_of_getLast? ht, h t ht⟩

/-- A token with something behind it, or the last semicolon. -/
theorem Finished.cases_tail {t : Token} {ts : List Token} (h : Finished (t :: ts)) :
    t.kind = .mark .semicolon ∧ ts = [] ∨ ts ≠ [] := by
  by_cases hts : ts = []
  · subst hts
    exact .inl ⟨h.of_singleton, rfl⟩
  · exact .inr hts

theorem Finished.dropWhile_ne_nil {ts : List Token} (h : Finished ts) (hn : ts ≠ []) :
    ts.dropWhile isTrivia ≠ [] := by
  obtain ⟨t, ht, hk⟩ := h.exists_last hn
  intro hd
  have hall := @List.takeWhile_append_dropWhile _ isTrivia ts
  rw [hd, List.append_nil] at hall
  rw [← hall] at ht
  have htrivia := List.all_eq_true.1 List.all_takeWhile t ht
  rw [isTrivia, hk] at htrivia
  cases htrivia

namespace Lookahead

/-- The tokens are the rest of a finished text or of a block, in which `s` is open. The two are
one notion here because a scan ends at the last semicolon of the one as at the brace of the other.
-/
def Bounded (s : List Mark) (ts : List Token) : Prop :=
  (ts ≠ [] ∧ Finished ts ∧ nest s ts = some []) ∨
    ∃ outer, nest (s ++ .leftBrace :: outer) ts = some []

namespace Bounded

variable {s : List Mark} {t : Token} {ts : List Token}

theorem ne_nil (h : Bounded s ts) : ts ≠ [] := by
  rcases h with ⟨hn, -, -⟩ | ⟨outer, ho⟩
  · exact hn
  · rintro rfl
    cases s <;> cases ho

/-- A token of the text, or where it ends: there nothing is open. Every scan is followed by this
case distinction, which says when it has to have ended. -/
theorem cases_cons (h : Bounded s (t :: ts)) :
    s = [] ∧ (t.kind = .mark .semicolon ∨ t.kind = .mark .rightBrace) ∨
      ∃ s', t.kind.turn s = some s' ∧ Bounded s' ts := by
  rcases h with ⟨-, hf, hs⟩ | ⟨outer, hs⟩
  · rcases hf.cases_tail with ⟨hk, rfl⟩ | hts
    · rw [nest_cons, hk] at hs
      exact .inl ⟨Option.some.inj hs, .inl hk⟩
    · obtain ⟨s', ht, hs'⟩ := Option.bind_eq_some_iff.1 hs
      exact .inr ⟨s', ht, .inl ⟨hts, hf.tail, hs'⟩⟩
  · obtain ⟨s', ht, hs'⟩ := Option.bind_eq_some_iff.1 hs
    rcases TokenKind.turn_inside ht with ⟨c, hk, hp, rfl, -⟩ | ⟨s'', ht', rfl⟩
    · refine .inl ⟨rfl, .inr ?_⟩
      cases c <;> first | exact hk | cases hp
    · exact .inr ⟨s'', ht', .inr ⟨outer, hs'⟩⟩

/-- A token that ends nothing has something behind it. -/
theorem tail (h : Bounded s (t :: ts)) (ht : ∀ m, t.kind = .mark m → m.ends = false) :
    ∃ s', Bounded s' ts := by
  rcases h.cases_cons with ⟨-, hk | hk⟩ | ⟨s', -, h'⟩
  · cases ht _ hk
  · cases ht _ hk
  · exact ⟨s', h'⟩

theorem dropWhile (h : Bounded s ts) : Bounded s (ts.dropWhile isTrivia) := by
  rcases h with ⟨hn, hf, hs⟩ | ⟨outer, ho⟩
  · exact .inl ⟨hf.dropWhile_ne_nil hn, hf.dropWhile _, (nest_dropWhile s ts).trans hs⟩
  · exact .inr ⟨outer, (nest_dropWhile _ ts).trans ho⟩

end Bounded

/-- More tokens behind a finished text or a block do not change the answer. All looks of the
grammar are of this kind (`Production.local_body`). -/
def StopsAtEnd (test : Lookahead) : Prop :=
  ∀ (ts more : List Token) (s : List Mark), Bounded s ts → test (ts ++ more) = test ts

/-- More tokens behind a finished text do not change the answer, whether or not the brackets in it
are closed in order: the answer is known at the next semicolon. It is what is left to say of
broken statements (`Proofs.Grammar.Pending`). -/
def StopsAtSemicolon (test : Lookahead) : Prop :=
  ∀ ts more : List Token, ts ≠ [] → Finished ts → test (ts ++ more) = test ts

/-- More tokens behind a group do not change the answer inside it. `Reading.Enclosed` needs no
more of the looks of a rule than this. -/
def StopsAtClosing (test : Lookahead) : Prop :=
  ∀ (ts more : List Token) (s : List Mark), s ≠ [] → nest s ts = some [] →
    test (ts ++ more) = test ts

theorem StopsAtSemicolon.stopsAtEnd {test : Lookahead} (h : StopsAtSemicolon test)
    (hi : StopsAtClosing test) :
    StopsAtEnd test := by
  rintro ts more s (⟨hn, hf, -⟩ | ⟨outer, ho⟩)
  · exact h ts more hn hf
  · exact hi ts more _ (by simp) ho

/-- What closes a group is in it. -/
theorem exists_of_nest {ts : List Token} {s : List Mark} (hn : s ≠ [])
    (h : nest s ts = some []) : ∃ t ∈ ts, ∃ m, t.kind = .mark m ∧ m.partner?.isSome := by
  induction ts generalizing s with
  | nil => exact absurd (Option.some.inj h) hn
  | cons t ts ih =>
    obtain ⟨s', ht, hs'⟩ := Option.bind_eq_some_iff.1 h
    have hlater (hs : s' ≠ []) : ∃ u ∈ t :: ts, ∃ m, u.kind = .mark m ∧ m.partner?.isSome := by
      obtain ⟨u, hu, hm⟩ := ih hs hs'
      exact ⟨u, List.mem_cons_of_mem t hu, hm⟩
    rcases TokenKind.turn_cases ht with ⟨m, -, -, rfl⟩ | ⟨m, o, hk, -, hp, -⟩ | ⟨-, rfl⟩
    · exact hlater (List.cons_ne_nil m s)
    · exact ⟨t, List.mem_cons_self, m, hk, hp ▸ rfl⟩
    · exact hlater hn

theorem ne_nil_of_nest {ts : List Token} {s : List Mark} (hn : s ≠ [])
    (h : nest s ts = some []) : ts ≠ [] := by
  rintro rfl
  exact hn (Option.some.inj h)

/-- No group is all trivia. -/
theorem dropWhile_of_nest {ts : List Token} {s : List Mark} (hn : s ≠ [])
    (h : nest s ts = some []) : ts.dropWhile isTrivia ≠ [] :=
  ne_nil_of_nest hn ((nest_dropWhile s ts).trans h)

/-- The token is not the end of a statement or of a group. -/
def Open (P : Token → Bool) : Prop := ∀ t m, t.kind = .mark m → m.ends = true → P t = false

theorem stopsAtSemicolon_next (P : Token → Bool) : StopsAtSemicolon (next P) := by
  intro ts more hn _
  obtain ⟨t, ts, rfl⟩ := List.exists_cons_of_ne_nil hn
  rfl

theorem stopsAtClosing_next (P : Token → Bool) : StopsAtClosing (next P) := by
  intro ts more s hn hs
  obtain ⟨t, ts, rfl⟩ := List.exists_cons_of_ne_nil (ne_nil_of_nest hn hs)
  rfl

theorem stopsAtEnd_next (P : Token → Bool) : StopsAtEnd (next P) :=
  (stopsAtSemicolon_next P).stopsAtEnd (stopsAtClosing_next P)

/-- The next significant token is the next one behind the trivia. -/
theorem next_dropWhile (P : Token → Bool) (ts : List Token) :
    next P (ts.dropWhile isTrivia) = significant P ts := by
  induction ts with
  | nil => rfl
  | cons t ts ih =>
    cases ht : t.isTrivia with
    | true =>
      rw [List.dropWhile_cons, if_pos ht, ih]
      simp [significant, ht]
    | false =>
      rw [List.dropWhile_cons, if_neg (by simp [ht])]
      simp [significant, next, ht]

/-- Where something is significant, what is behind it is not. -/
theorem significant_append (P : Token → Bool) {ts : List Token} (h : ts.dropWhile isTrivia ≠ [])
    (more : List Token) : significant P (ts ++ more) = significant P ts := by
  rw [← next_dropWhile, ← next_dropWhile, List.dropWhile_append, if_neg (by simpa using h)]
  obtain ⟨t, us, hd⟩ := List.exists_cons_of_ne_nil h
  rw [hd]
  rfl

theorem stopsAtSemicolon_significant (P : Token → Bool) : StopsAtSemicolon (significant P) :=
  fun _ more hn hf => significant_append P (hf.dropWhile_ne_nil hn) more

theorem stopsAtClosing_significant (P : Token → Bool) : StopsAtClosing (significant P) :=
  fun _ more _ hn hs => significant_append P (dropWhile_of_nest hn hs) more

theorem stopsAtEnd_significant (P : Token → Bool) : StopsAtEnd (significant P) :=
  (stopsAtSemicolon_significant P).stopsAtEnd (stopsAtClosing_significant P)

theorem stopsAtSemicolon_pair {P R : Token → Bool} (hp : Open P) : StopsAtSemicolon (pair P R) := by
  intro ts more hn hf
  obtain ⟨t, ts, rfl⟩ := List.exists_cons_of_ne_nil hn
  cases ts with
  | cons u ts => rfl
  | nil =>
    have hfalse := hp t _ hf.of_singleton rfl
    cases more with
    | nil => rfl
    | cons u more => simp [pair, hfalse]

/-- The only token left in a group closes it. -/
theorem exists_of_singleton {t : Token} {s : List Mark} (hn : s ≠ [])
    (h : nest s [t] = some []) : ∃ m, t.kind = .mark m ∧ m.ends = true := by
  obtain ⟨u, hu, m, hk, hm⟩ := exists_of_nest hn h
  obtain rfl := List.mem_singleton.1 hu
  exact ⟨m, hk, by rw [Mark.ends, hm, Bool.or_true]⟩

theorem stopsAtClosing_pair {P R : Token → Bool} (hp : Open P) : StopsAtClosing (pair P R) := by
  intro ts more s hn hs
  obtain ⟨t, ts, rfl⟩ := List.exists_cons_of_ne_nil (ne_nil_of_nest hn hs)
  cases ts with
  | cons u ts => rfl
  | nil =>
    obtain ⟨m, hk, hm⟩ := exists_of_singleton hn hs
    have hfalse := hp t m hk hm
    cases more with
    | nil => rfl
    | cons u more => simp [pair, hfalse]

theorem stopsAtEnd_pair {P R : Token → Bool} (hp : Open P) : StopsAtEnd (pair P R) :=
  (stopsAtSemicolon_pair hp).stopsAtEnd (stopsAtClosing_pair hp)

theorem StopsAtSemicolon.and {a b : Lookahead} (ha : StopsAtSemicolon a) (hb : StopsAtSemicolon b) :
    StopsAtSemicolon fun ts => a ts && b ts := by
  intro ts more hn hf
  simp only [ha ts more hn hf, hb ts more hn hf]

theorem StopsAtClosing.or {a b : Lookahead} (ha : StopsAtClosing a) (hb : StopsAtClosing b) :
    StopsAtClosing fun ts => a ts || b ts := by
  intro ts more s hn hs
  simp only [ha ts more s hn hs, hb ts more s hn hs]

theorem StopsAtClosing.and {a b : Lookahead} (ha : StopsAtClosing a) (hb : StopsAtClosing b) :
    StopsAtClosing fun ts => a ts && b ts := by
  intro ts more s hn hs
  simp only [ha ts more s hn hs, hb ts more s hn hs]

theorem StopsAtEnd.or {a b : Lookahead} (ha : StopsAtEnd a) (hb : StopsAtEnd b) :
    StopsAtEnd fun ts => a ts || b ts := by
  intro ts more s hs
  simp only [ha ts more s hs, hb ts more s hs]

theorem StopsAtEnd.and {a b : Lookahead} (ha : StopsAtEnd a) (hb : StopsAtEnd b) :
    StopsAtEnd fun ts => a ts && b ts := by
  intro ts more s hs
  simp only [ha ts more s hs, hb ts more s hs]

theorem stopsAtSemicolon_isSpacedCall : StopsAtSemicolon isSpacedCall := by
  intro ts more hn hf
  obtain ⟨t, ts, rfl⟩ := List.exists_cons_of_ne_nil hn
  cases ts with
  | nil =>
    have hname : t.isName = false := by rw [isName, hf.of_singleton]; rfl
    cases more with
    | nil => rfl
    | cons u more => simp [isSpacedCall, hname]
  | cons u ts =>
    by_cases hts : ts = []
    · subst hts
      have hblank : (u.kind == .blank) = false := by rw [hf.tail.of_singleton]; rfl
      simp [isSpacedCall, hblank]
    · simp only [List.cons_append, isSpacedCall,
        stopsAtSemicolon_significant _ ts more hts hf.tail.tail]

/-- A call without parentheses is seen by two tokens and what is between them, so the closing mark
of a group ends the look. -/
theorem stopsAtClosing_isSpacedCall : StopsAtClosing isSpacedCall := by
  intro ts more s hn hs
  obtain ⟨t, ts, rfl⟩ := List.exists_cons_of_ne_nil (ne_nil_of_nest hn hs)
  have hopen {t : Token} {s ts} (hs : nest s (t :: ts) = some []) (hn : s ≠ [])
      (hk : ∀ m, t.kind ≠ .mark m) : nest s ts = some [] := by
    obtain ⟨s', ht, hs'⟩ := Option.bind_eq_some_iff.1 hs
    cases hkind : t.kind with
    | mark m => exact absurd hkind (hk m)
    | _ =>
      rw [hkind] at ht
      cases ht
      exact hs'
  by_cases ht : t.isName = true
  · have hrest := hopen hs hn fun m hk => by simp [isName, hk] at ht
    obtain ⟨u, ts, rfl⟩ := List.exists_cons_of_ne_nil (ne_nil_of_nest hn hrest)
    by_cases hu : (u.kind == .blank) = true
    · have hrest' := hopen hrest hn fun m hk => by simp [hk] at hu
      have hlast := stopsAtClosing_significant beginsArgument ts more s hn hrest'
      simp only [List.cons_append, isSpacedCall, hlast]
    · simp [isSpacedCall, hu]
  · cases ts with
    | nil => cases more <;> simp [isSpacedCall, ht]
    | cons u ts => simp [isSpacedCall, ht]

theorem stopsAtEnd_isSpacedCall : StopsAtEnd isSpacedCall :=
  stopsAtSemicolon_isSpacedCall.stopsAtEnd stopsAtClosing_isSpacedCall

/-! ## Scans that count groups -/

/-- How many parentheses and brackets are open. The scans that count do not tell the two apart and
do not see braces, so this number is all they can be held against. -/
def groups (s : List Mark) : Nat :=
  (s.filter fun m => m == .leftParen || m == .leftBracket).length

/-- What a token does to the number of groups. -/
theorem groups_turn {t : Token} {s s' : List Mark} (h : t.kind.turn s = some s') :
    groups s' = if t.isMark .leftParen || t.isMark .leftBracket then groups s + 1
      else if t.isMark .rightParen || t.isMark .rightBracket then groups s - 1
      else groups s := by
  obtain ⟨kind, text, position⟩ := t
  cases kind with
  | mark m =>
    cases m
    case rightBrace | rightParen | rightBracket =>
      obtain rfl := TokenKind.eq_cons_of_turn rfl rfl h
      rfl
    all_goals
      cases h
      rfl
  | _ =>
    cases h
    rfl

/-- The scan for what a statement reaches first. It is bounded by the groups that are open, so its
depth may be less than their number where brackets are in disorder. -/
theorem reachesFirst_append {ts : List Token} {s : List Mark} (hb : Bounded s ts)
    (more : List Token) {d : Nat} (hd : d ≤ groups s) :
    reachesFirst d (ts ++ more) = reachesFirst d ts := by
  -- The depth of the scan is at most the number of groups that are open, and where the text ends
  -- no group is.
  induction ts generalizing s d with
  | nil => exact absurd rfl hb.ne_nil
  | cons t ts ih =>
    rcases hb.cases_cons with ⟨rfl, hk⟩ | ⟨s', ht, hs'⟩
    · -- Nothing is open, so the count is zero.
      obtain rfl := Nat.le_zero.1 hd
      rcases hk with hk | hk
      · simp [reachesFirst, isMark, hk]
      · simp [reachesFirst, isMark, hk]
    · have hg := groups_turn ht
      -- The count changes by no more than what is open, token by token.
      rw [List.cons_append, reachesFirst, reachesFirst]
      split <;> rename_i ho
      · rw [if_pos ho] at hg
        exact ih hs' (by omega)
      rw [if_neg ho] at hg
      split <;> rename_i hc
      · rw [if_pos hc] at hg
        exact ih hs' (by omega)
      rw [if_neg hc] at hg
      split
      · exact ih hs' (by omega)
      split
      · rfl
      split
      · rfl
      split
      · rfl
      · exact ih hs' (by omega)

/-- The scan for the end of a value, with the same bound. -/
theorem isValue_append {ts : List Token} {s : List Mark} (hb : Bounded s ts)
    (more : List Token) {d : Nat} (hd : d ≤ groups s) :
    isValue d (ts ++ more) = isValue d ts := by
  -- As for the other scan: the depth never exceeds what is open, so it is zero where the text
  -- ends.
  induction ts generalizing s d with
  | nil => exact absurd rfl hb.ne_nil
  | cons t ts ih =>
    rcases hb.cases_cons with ⟨rfl, hk⟩ | ⟨s', ht, hs'⟩
    · obtain rfl := Nat.le_zero.1 hd
      rcases hk with hk | hk
      · simp [isValue, isMark, hk]
      · simp [isValue, isMark, hk]
    · have hg := groups_turn ht
      rw [List.cons_append, isValue, isValue]
      split <;> rename_i ho
      · rw [if_pos ho] at hg
        exact ih hs' (by omega)
      rw [if_neg ho] at hg
      split <;> rename_i hc
      · rw [if_pos hc] at hg
        exact ih hs' (by omega)
      rw [if_neg hc] at hg
      split
      · exact ih hs' (by omega)
      split
      · rfl
      split
      · rfl
      split
      · have hnext : next isObjectWord (ts ++ more) = next isObjectWord ts := by
          obtain ⟨u, us, rfl⟩ := List.exists_cons_of_ne_nil hs'.ne_nil
          rfl
        rw [hnext]
        split
        · exact ih hs' (by omega)
        · rfl
      · exact ih hs' (by omega)

/-! ## Assignments -/

/-- More text behind a target does not change where its head ends, and what is behind the head is
still bounded. -/
theorem behindHead?_append {ts : List Token} {s : List Mark} (hb : Bounded s ts)
    (more : List Token) :
    behindHead? (ts ++ more) = (behindHead? ts).map (· ++ more) ∧
      ∀ xs, behindHead? ts = some xs → ∃ s', Bounded s' xs := by
  have hd := hb.dropWhile
  have hlong : (ts ++ more).dropWhile isTrivia = ts.dropWhile isTrivia ++ more := by
    rw [List.dropWhile_append, if_neg (by simpa using hd.ne_nil)]
  unfold behindHead?
  rw [hlong]
  cases hdrop : ts.dropWhile isTrivia with
  | nil => exact absurd hdrop hd.ne_nil
  | cons t ts =>
    rw [hdrop] at hd
    simp only [List.cons_append]
    split <;> rename_i hname
    · refine ⟨rfl, fun xs hx => ?_⟩
      cases hx
      exact hd.tail fun m hk => by simp [isName, hk] at hname
    by_cases hat : t.isMark .atSign = true
    · -- An `@` ends nothing, so there is a token behind it.
      obtain ⟨s', hs'⟩ := hd.tail fun m hk => by
        rw [isMark, hk, beq_iff_eq] at hat
        cases hat
        rfl
      obtain ⟨u, us, rfl⟩ := List.exists_cons_of_ne_nil hs'.ne_nil
      have hnext : next isObjectWord (u :: us ++ more) = next isObjectWord (u :: us) := rfl
      rw [hnext]
      split <;> rename_i hobject
      · refine ⟨rfl, fun xs hx => ?_⟩
        cases hx
        have hu : isObjectWord u = true := (Bool.and_eq_true_iff.1 hobject).2
        exact hs'.tail fun m hk => by simp [isObjectWord, isName, hk] at hu
      · exact ⟨rfl, nofun⟩
    · simp [hat]

/-- How many groups of one sort are open behind a token. -/
theorem count_turn {t : Token} {s s' : List Mark} (h : t.kind.turn s = some s')
    {opening closing : Mark} (ho : opening.opens = true)
    (hc : ∀ m : Mark, m.partner? = some opening ↔ m = closing) :
    s'.count opening = (if t.isMark opening then s.count opening + 1
      else if t.isMark closing then s.count opening - 1 else s.count opening) := by
  have hcn : closing.opens = false := by
    have hp := (hc closing).2 rfl
    cases closing <;> first | rfl | cases hp
  -- The equation is one about marks, and the three cases are what a token can do to the stack.
  have hmark {m : Mark} (hk : t.kind = .mark m) (m' : Mark) : t.isMark m' = (m == m') := by
    rw [isMark, hk]
    cases hb : m == m' with
    | true => rw [beq_iff_eq.1 hb]; exact beq_self_eq_true _
    | false => simpa using hb
  rcases TokenKind.turn_cases h with ⟨m, hk, hm, rfl⟩ | ⟨m, o, hk, hm, hp, rfl⟩ | ⟨hb, rfl⟩
  · rw [hmark hk, hmark hk]
    by_cases he : m = opening
    · simp [he]
    · have hne : m ≠ closing := by
        rintro rfl
        rw [hcn] at hm
        cases hm
      simp [he, hne]
  · have hne : m ≠ opening := by
      rintro rfl
      rw [ho] at hm
      cases hm
    rw [hmark hk, hmark hk]
    by_cases he : m = closing
    · obtain rfl : o = opening := Option.some.inj (hp.symm.trans ((hc m).2 he))
      subst he
      simp [hne]
    · have hno : o ≠ opening := by
        rintro rfl
        exact he ((hc m).1 hp)
      simp [hne, he, hno]
  · have hplain {m : Mark} (hm : (TokenKind.mark m).isBracket = true) : t.isMark m = false := by
      apply beq_eq_false_iff_ne.2
      intro hk
      rw [hk, hm] at hb
      cases hb
    have hpartner := (hc closing).2 rfl
    simp [hplain (show (TokenKind.mark opening).isBracket = true by simp [TokenKind.isBracket, ho]),
      hplain (show (TokenKind.mark closing).isBracket = true by
        simp [TokenKind.isBracket, hpartner])]

/-- What has to be open where the scan of a target is in a group: more groups of its sort than the
scan has counted inside, so that its closing mark is still to come. -/
def TargetState.Waits (s : List Mark) : TargetState → Prop
  | group opening closing inner => opening.opens = true ∧
      (∀ m : Mark, m.partner? = some opening ↔ m = closing) ∧ inner < s.count opening
  | _ => True

theorem TargetState.waits_group {opening closing : Mark} (ho : opening.opens = true)
    (hc : ∀ m : Mark, m.partner? = some opening ↔ m = closing) {s : List Mark}
    (hs : opening ∈ s) : (group opening closing 0).Waits s :=
  ⟨ho, hc, List.count_pos_iff.2 hs⟩

/-- The scan over the target of an assignment. In difference to the two above it goes on in one of
its states behind the sign that it finds, so it is also said that what it leaves is bounded. -/
theorem behindSign?_append {ts : List Token} {s : List Mark} (hb : Bounded s ts)
    (more : List Token) {st : TargetState} (hw : st.Waits s) :
    behindSign? st (ts ++ more) = (behindSign? st ts).map (· ++ more) ∧
      ∀ xs, behindSign? st ts = some xs → ∃ s', Bounded s' xs := by
  -- The invariant between scan and text is `Waits`. In a group it makes the closing mark come
  -- before the text ends; outside of one the scan ends at the last token at the latest.
  induction ts generalizing s st with
  | nil => exact absurd rfl hb.ne_nil
  | cons t ts ih =>
    rw [List.cons_append]
    rcases hb.cases_cons with ⟨rfl, hk⟩ | ⟨s', ht, hs'⟩
    · -- Nothing is open, so the scan is in no group, and here it ends.
      cases st with
      | between =>
        rcases hk with hk | hk
        · simp [behindSign?, isMark, isTrivia, hk, TokenKind.isTrivia]
        · simp [behindSign?, isMark, isTrivia, hk, TokenKind.isTrivia]
      | name =>
        rcases hk with hk | hk
        · simp [behindSign?, isName, hk]
        · simp [behindSign?, isName, hk]
      | group opening closing inner => exact absurd hw.2.2 (Nat.not_lt_zero _)
    replace ih := @ih s' hs'
    cases st with
    | between =>
      simp only [behindSign?]
      split <;> rename_i hdot
      · exact ih trivial
      split <;> rename_i hbracket
      · refine ih (TargetState.waits_group rfl (fun m => by cases m <;> decide) ?_)
        rw [isMark, beq_iff_eq] at hbracket
        rw [hbracket] at ht
        cases ht
        exact List.mem_cons_self
      split <;> rename_i hparen
      · refine ih (TargetState.waits_group rfl (fun m => by cases m <;> decide) ?_)
        rw [isMark, beq_iff_eq] at hparen
        rw [hparen] at ht
        cases ht
        exact List.mem_cons_self
      split
      · exact ih trivial
      split
      · refine ⟨rfl, fun xs hx => ?_⟩
        cases hx
        exact ⟨s', hs'⟩
      · exact ⟨rfl, nofun⟩
    | name =>
      simp only [behindSign?]
      split
      · exact ih trivial
      · exact ⟨rfl, nofun⟩
    | group opening closing inner =>
      obtain ⟨ho, hc, hlt⟩ := hw
      have hcount := count_turn ht ho hc
      simp only [behindSign?]
      split <;> rename_i hopen
      · rw [if_pos hopen] at hcount
        exact ih ⟨ho, hc, by omega⟩
      rw [if_neg hopen] at hcount
      split <;> rename_i hclose
      · rw [if_pos hclose] at hcount
        cases inner with
        | zero => exact ih trivial
        | succ inner => exact ih ⟨ho, hc, by omega⟩
      · rw [if_neg hclose] at hcount
        exact ih ⟨ho, hc, by omega⟩

theorem stopsAtEnd_isAssignment : StopsAtEnd isAssignment := by
  intro ts more s hb
  obtain ⟨hhead, hhead'⟩ := behindHead?_append hb more
  rw [isAssignment, isAssignment, hhead]
  cases hx : behindHead? ts with
  | none => rfl
  | some xs =>
    obtain ⟨s', hxs⟩ := hhead' xs hx
    obtain ⟨hsign, hsign'⟩ := @behindSign?_append xs s' hxs more .between trivial
    simp only [Option.map_some, Option.bind_some, hsign]
    cases hy : behindSign? .between xs with
    | none => rfl
    | some ys =>
      obtain ⟨s'', hys⟩ := hsign' ys hy
      simp only [Option.map_some, Option.getD_some]
      exact isValue_append hys more (Nat.zero_le _)

theorem stopsAtEnd_isRule : StopsAtEnd isRule := by
  intro ts more s hb
  rw [isRule, isRule, reachesFirst_append hb more (Nat.zero_le _)]

theorem stopsAtEnd_isSelectorCall : StopsAtEnd isSelectorCall := by
  intro ts more s hb
  rw [isSelectorCall, isSelectorCall, reachesFirst_append hb more (Nat.zero_le _)]

/-! ## Types -/

theorem hasBar_append {ts : List Token} (hn : ts ≠ []) (hf : Finished ts) (more : List Token)
    (d : Nat) : hasBar d (ts ++ more) = hasBar d ts := by
  induction ts generalizing d with
  | nil => exact absurd rfl hn
  | cons t ts ih =>
    rcases hf.cases_tail with ⟨hk, -⟩ | hts
    · simp [hasBar, isMark, isName, isTrivia, hk, TokenKind.isTrivia]
    replace ih := ih hts hf.tail
    simp only [List.cons_append, hasBar]
    split
    · exact ih _
    split
    · split
      · rfl
      · exact ih _
    split
    · rfl
    split
    · exact ih _
    split
    · exact ih _
    · rfl

theorem stopsAtSemicolon_isMultipleType : StopsAtSemicolon isMultipleType :=
  fun _ more hn hf => hasBar_append hn hf more 0

/-- The same in a group, with `u` open inside. -/
theorem hasBar_enclosed {ts : List Token} (more : List Token) {u outer : List Mark} {m : Mark}
    (hs : nest (u ++ m :: outer) ts = some []) :
    hasBar (groups u) (ts ++ more) = hasBar (groups u) ts := by
  induction ts generalizing u with
  | nil => cases u <;> cases hs
  | cons t ts ih =>
    obtain ⟨s', ht, hs'⟩ := Option.bind_eq_some_iff.1 hs
    rcases TokenKind.turn_inside ht with ⟨c, hk, hp, rfl, -⟩ | ⟨u', hu', rfl⟩
    · -- The scan does not leave the group.
      cases c with
      | rightBrace | rightParen | rightBracket =>
        simp [hasBar, isMark, isName, isTrivia, hk, groups, TokenKind.isTrivia]
      | _ => cases hp
    have hg := groups_turn hu'
    replace ih := ih hs'
    simp only [List.cons_append, hasBar]
    split <;> rename_i hopen
    · rw [if_pos hopen] at hg
      exact hg ▸ ih
    rw [if_neg hopen] at hg
    split <;> rename_i hclose
    · rw [if_pos hclose] at hg
      split <;> rename_i hd
      · rfl
      · rw [hd, Nat.succ_sub_one] at hg
        exact hg ▸ ih
    rw [if_neg hclose] at hg
    rw [hg] at ih
    split
    · rfl
    split
    · exact ih
    split
    · exact ih
    · rfl

theorem stopsAtClosing_isMultipleType : StopsAtClosing isMultipleType := by
  intro ts more s hn hs
  obtain ⟨m, outer, rfl⟩ := List.exists_cons_of_ne_nil hn
  exact @hasBar_enclosed ts more [] outer m hs

theorem stopsAtEnd_isMultipleType : StopsAtEnd isMultipleType :=
  stopsAtSemicolon_isMultipleType.stopsAtEnd stopsAtClosing_isMultipleType

/-- The scan waits for the bracket that is open in front of it, with `u` open inside. -/
theorem hasColon_append {ts : List Token} (more : List Token) {u rest : List Mark}
    (hs : nest (u ++ .leftBracket :: rest) ts = some []) :
    hasColon (groups u) (ts ++ more) = hasColon (groups u) ts := by
  induction ts generalizing u with
  | nil =>
    cases u with
    | nil => cases hs
    | cons m u => cases hs
  | cons t ts ih =>
    obtain ⟨s', ht, hs'⟩ := Option.bind_eq_some_iff.1 hs
    -- The token closes the bracket that the scan waits for, or it stays inside.
    rcases TokenKind.turn_inside ht with ⟨c, hc, hp, rfl, -⟩ | ⟨u', hu', rfl⟩
    · have hk : t.kind = .mark .rightBracket := by cases c <;> first | exact hc | cases hp
      simp [hasColon, isMark, hk, groups]
    · have hg := groups_turn hu'
      replace ih := ih hs'
      simp only [List.cons_append, hasColon]
      split <;> rename_i hopen
      · rw [if_pos hopen] at hg
        rw [← hg]
        exact ih
      rw [if_neg hopen] at hg
      split <;> rename_i hparen
      · rw [if_pos (by simp [hparen])] at hg
        rw [← hg]
        exact ih
      split <;> rename_i hbracket
      · rw [if_pos (by simp [hbracket])] at hg
        cases hd : groups u with
        | zero => rfl
        | succ d =>
          rw [hd, Nat.add_sub_cancel] at hg
          rw [hg] at ih
          exact ih
      rw [if_neg (by simp [hparen, hbracket])] at hg
      rw [hg] at ih
      split
      · rfl
      · exact ih

/-- The scan is in a group of its own, so there is nothing to know of what is around it, and only
that the bracket in front is closed. -/
theorem isMapType_append {ts : List Token} (hn : ts ≠ []) (more : List Token) {s : List Mark}
    (hs : nest s ts = some []) : isMapType (ts ++ more) = isMapType ts := by
  obtain ⟨t, ts, rfl⟩ := List.exists_cons_of_ne_nil hn
  simp only [List.cons_append, isMapType]
  cases hm : t.isMark .leftBracket with
  | false => rfl
  | true =>
    obtain ⟨s', ht, hs'⟩ := Option.bind_eq_some_iff.1 hs
    rw [beq_iff_eq.1 hm] at ht
    cases ht
    exact congrArg (true && ·) (@hasColon_append ts more [] s hs')

theorem stopsAtClosing_isMapType : StopsAtClosing isMapType :=
  fun _ more _ hn hs => isMapType_append (ne_nil_of_nest hn hs) more hs

theorem stopsAtEnd_isMapType : StopsAtEnd isMapType := by
  rintro ts more s (⟨hn, -, hs⟩ | ⟨outer, hs⟩)
  · exact isMapType_append hn more hs
  · exact stopsAtClosing_isMapType ts more _ (by simp) hs

end Lookahead

end Heddle
