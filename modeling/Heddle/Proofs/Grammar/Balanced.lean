import Heddle.Proofs.Grammar.Condition
import Heddle.Proofs.Grammar.StopsAtEnd

/-!
# Phrases that close what they open

A phrase is `Balanced` if it leaves open what was open and does not end with a semicolon. Most
phrases are, and balance passes from the parts of a phrase to the whole, so it is what the rules
are checked by: `Phrase.wp` is computed once for each form of phrase here, and hardly ever for a
rule.

What a rule takes without a look is known from the look ahead in front of it. A phrase is
therefore balanced *under* a look ahead, and the rules below say what a choice adds to it. They
are named after the phrases of the grammar, so a proof that a rule is balanced has the shape of
the rule (`Proofs.Grammar.Rules`), and a change to a rule changes the proof at the same place.
-/

set_option autoImplicit false

namespace Heddle

open Lookahead Token

/-! ## What a look ahead says about the next token -/

namespace Token

/-- Tokens that open nothing, close nothing and end no statement. Taking one changes nothing of a
`Hold`, which is why most tokens of a rule need no more than this. -/
def Plain (P : Token → Bool) : Prop :=
  ∀ t, P t = true → t.kind.isBracket = false ∧ t.kind ≠ .mark .semicolon

/-- Tokens that are no trivia. Where such a token is next there is no trivia in front of it, so a
construct that takes trivia on entering begins with this very token. -/
def Firm (P : Token → Bool) : Prop := ∀ t, P t = true → t.isTrivia = false

theorem kind_of_isWord {t : Token} {word : String} (h : t.isWord word = true) : t.kind = .word :=
  beq_iff_eq.1 (Bool.and_eq_true_iff.1 h).1

theorem kind_of_isMark {t : Token} {m : Mark} (h : t.isMark m = true) : t.kind = .mark m :=
  beq_iff_eq.1 h

theorem kind_of_isName {t : Token} (h : t.isName = true) : t.kind = .word := beq_iff_eq.1 h

theorem plain_of_kind {P : Token → Bool} {kind : TokenKind} (h : ∀ t, P t = true → t.kind = kind)
    (hb : kind.isBracket = false) (hs : kind ≠ .mark .semicolon) : Plain P := by
  intro t ht
  rw [h t ht]
  exact ⟨hb, hs⟩

theorem firm_of_kind {P : Token → Bool} {kind : TokenKind} (h : ∀ t, P t = true → t.kind = kind)
    (hk : kind.isTrivia = false) : Firm P := by
  intro t ht
  rw [isTrivia, h t ht]
  exact hk

@[simp] theorem plain_isWord (word : String) : Plain (·.isWord word) :=
  plain_of_kind (fun _ => kind_of_isWord) rfl nofun

@[simp] theorem firm_isWord (word : String) : Firm (·.isWord word) :=
  firm_of_kind (fun _ => kind_of_isWord) rfl

theorem kind_of_any_isWord {t : Token} {words : List String} (h : words.any t.isWord = true) :
    t.kind = .word := by
  obtain ⟨word, -, hw⟩ := List.any_eq_true.1 h
  exact kind_of_isWord hw

@[simp] theorem plain_any_isWord (words : List String) : Plain fun t => words.any t.isWord :=
  plain_of_kind (fun _ => kind_of_any_isWord) rfl nofun

@[simp] theorem firm_any_isWord (words : List String) : Firm fun t => words.any t.isWord :=
  firm_of_kind (fun _ => kind_of_any_isWord) rfl

@[simp] theorem plain_isName : Plain isName :=
  plain_of_kind (fun _ => kind_of_isName) rfl nofun

@[simp] theorem firm_isName : Firm isName := firm_of_kind (fun _ => kind_of_isName) rfl

@[simp] theorem plain_isObjectWord : Plain isObjectWord := by
  intro t ht
  exact plain_isName t (Bool.and_eq_true_iff.1 ht).1

theorem plain_isMark (m : Mark) (hb : (TokenKind.mark m).isBracket = false)
    (hs : m ≠ .semicolon) : Plain (isMark m) :=
  plain_of_kind (fun _ => kind_of_isMark) hb (by simpa using hs)

@[simp] theorem firm_isMark (m : Mark) : Firm (isMark m) :=
  firm_of_kind (fun _ => kind_of_isMark) rfl

theorem plain_or {P R : Token → Bool} (hp : Plain P) (hr : Plain R) :
    Plain fun t => P t || R t := by
  intro t ht
  rcases Bool.or_eq_true_iff.1 ht with h | h
  · exact hp t h
  · exact hr t h

@[simp] theorem firm_or {P R : Token → Bool} (hp : Firm P) (hr : Firm R) :
    Firm fun t => P t || R t := by
  intro t ht
  rcases Bool.or_eq_true_iff.1 ht with h | h
  · exact hp t h
  · exact hr t h

/-- A choice among marks none of which is a bracket or a semicolon. -/
theorem plain_any_isMark {ms : List Mark}
    (h : ∀ m ∈ ms, (TokenKind.mark m).isBracket = false ∧ m ≠ .semicolon) :
    Plain fun t => ms.any t.isMark := by
  intro t ht
  obtain ⟨m, hm, hk⟩ := List.any_eq_true.1 ht
  exact plain_isMark m (h m hm).1 (h m hm).2 t hk

@[simp] theorem plain_isOperator : Plain isOperator := plain_any_isMark (by decide)

@[simp] theorem plain_isComparator : Plain isComparator := plain_any_isMark (by decide)

@[simp] theorem plain_isCombinator : Plain isCombinator := plain_any_isMark (by decide)

@[simp] theorem firm_any_isMark (ms : List Mark) : Firm fun t => ms.any t.isMark := by
  intro t ht
  obtain ⟨m, -, hk⟩ := List.any_eq_true.1 ht
  exact firm_isMark m t hk

@[simp] theorem firm_isCombinator : Firm isCombinator := firm_any_isMark _

@[simp] theorem plain_isTrivia : Plain Token.isTrivia := by
  rintro ⟨kind, text, position⟩ h
  cases kind <;> first | exact ⟨rfl, nofun⟩ | cases h

@[simp] theorem plain_isNumber : Plain fun t => t.kind.isNumber := by
  rintro ⟨kind, text, position⟩ h
  cases kind <;> first | exact ⟨rfl, nofun⟩ | cases h

@[simp] theorem firm_isNumber : Firm fun t => t.kind.isNumber := by
  rintro ⟨kind, text, position⟩ h
  cases kind <;> first | rfl | cases h

@[simp] theorem plain_isQuoted : Plain isQuoted := by
  rintro ⟨kind, text, position⟩ h
  cases kind <;> first | exact ⟨rfl, nofun⟩ | cases h

@[simp] theorem firm_isQuoted : Firm isQuoted := by
  rintro ⟨kind, text, position⟩ h
  cases kind <;> first | rfl | cases h

@[simp] theorem plain_isRawText : Plain isRawText :=
  plain_of_kind (fun _ h => beq_iff_eq.1 h) rfl nofun

@[simp] theorem firm_isRawText : Firm isRawText := firm_of_kind (fun _ h => beq_iff_eq.1 h) rfl

@[simp] theorem plain_isForeign : Plain isForeign := by
  rintro ⟨kind, text, position⟩ h
  cases kind <;> first | exact ⟨rfl, nofun⟩ | cases h

@[simp] theorem firm_isForeign : Firm isForeign := by
  rintro ⟨kind, text, position⟩ h
  cases kind <;> first | rfl | cases h

end Token

theorem Lookahead.exists_of_next {P : Token → Bool} {ts : List Token} (h : next P ts = true) :
    ∃ t rest, ts = t :: rest ∧ P t = true := by
  cases ts with
  | nil => cases h
  | cons t rest => exact ⟨t, rest, rfl, h⟩

theorem Lookahead.next_or (P R : Token → Bool) (ts : List Token) :
    next (fun t => P t || R t) ts = (next P ts || next R ts) := by
  cases ts with
  | nil => rfl
  | cons t ts => rfl

/-- What was seen as one of two is the second if it is not the first. -/
theorem Lookahead.right_of_not_left {a b : Bool} (h : ((a || b) && !a) = true) : b = true := by
  cases a with
  | true => cases h
  | false => simpa using h

/-- There is no trivia in front of a token that is none. -/
theorem Lookahead.dropWhile_of_firm {P : Token → Bool} (hp : Firm P) {ts : List Token}
    (h : next P ts = true) : ts.dropWhile Token.isTrivia = ts := by
  obtain ⟨t, rest, rfl, ht⟩ := exists_of_next h
  rw [List.dropWhile_cons, if_neg (by simp [hp t ht])]

theorem Production.front_of_firm (p : Production) {P : Token → Bool} (hp : Firm P)
    {ts : List Token} (h : next P ts = true) : p.front ts = ts := by
  unfold front
  split
  · rfl
  · exact dropWhile_of_firm hp h

theorem Lookahead.exists_of_pair {P R : Token → Bool} {ts : List Token} (h : pair P R ts = true) :
    ∃ t u rest, ts = t :: u :: rest ∧ P t = true ∧ R u = true := by
  match ts, h with
  | t :: u :: rest, h => exact ⟨t, u, rest, rfl, Bool.and_eq_true_iff.1 h⟩

theorem Lookahead.next_of_pair {P R : Token → Bool} {ts : List Token} (h : pair P R ts = true) :
    next P ts = true := by
  match ts, h with
  | t :: u :: rest, h => exact (Bool.and_eq_true_iff.1 h).1

theorem Lookahead.next_tail_of_pair {P R : Token → Bool} {ts : List Token}
    (h : pair P R ts = true) : next R ts.tail = true := by
  match ts, h with
  | t :: u :: rest, h => exact (Bool.and_eq_true_iff.1 h).2

theorem Lookahead.exists_of_isSpacedCall {ts : List Token} (h : isSpacedCall ts = true) :
    ∃ t u rest, ts = t :: u :: rest ∧ t.isName = true ∧ u.kind = .blank ∧
      significant beginsArgument rest = true := by
  unfold isSpacedCall at h
  split at h
  · obtain ⟨hname, hargument⟩ := Bool.and_eq_true_iff.1 h
    obtain ⟨hname, hblank⟩ := Bool.and_eq_true_iff.1 hname
    exact ⟨_, _, _, rfl, hname, beq_iff_eq.1 hblank, hargument⟩
  · cases h

theorem Lookahead.next_of_isSpacedCall {ts : List Token} (h : isSpacedCall ts = true) :
    next isName ts = true := by
  obtain ⟨t, u, rest, rfl, hname, -⟩ := exists_of_isSpacedCall h
  exact hname

theorem Hold.take_of_plain {kind : TokenKind}
    (h : kind.isBracket = false ∧ kind ≠ .mark .semicolon) (opened : List Mark) (tag : DataTag) :
    Hold.take ⟨opened, false⟩ tag kind = some ⟨opened, false⟩ := by
  simp [Hold.take, h.1, h.2, TokenKind.turn_of_not_isBracket h.1]

namespace Phrase

/-- Under a look ahead the phrase leaves open what was open, and what it ends with is no
semicolon. It is stated for every condition `Q` behind the phrase, so that it can be used in front
of anything. -/
def Balanced (given : Lookahead) (q : Phrase) : Prop :=
  ∀ (opened : List Mark) (Q : Hold → List Token → Prop) (ts : List Token), given ts = true →
    (∀ ts, Q ⟨opened, false⟩ ts) → q.wp Q ⟨opened, false⟩ ts

abbrev unseen : Lookahead := fun _ => true

namespace Balanced

variable {given : Lookahead} {q : Phrase}

theorem of_unseen (h : Balanced unseen q) : Balanced given q := fun _ _ _ _ hQ => h _ _ _ rfl hQ

theorem weaken {seen : Lookahead} (h : Balanced given q)
    (hs : ∀ ts, seen ts = true → given ts = true) :
    Balanced seen q := fun _ _ _ hg hQ => h _ _ _ (hs _ hg) hQ

theorem empty : Balanced given empty := fun _ _ _ _ hQ => hQ _

theorem expected (wanted : Wanted) : Balanced given (expected wanted) := fun _ _ _ _ _ => trivial

theorem orphan : Balanced given orphan := fun _ _ _ _ _ => trivial

theorem hexDigits : Balanced given hexDigits := fun _ _ _ _ hQ => hQ

/-- Only the first of two phrases knows what was seen. Behind it nothing is known of the tokens
ahead, whatever the phrase has taken. -/
theorem andThen {first second : Phrase} (h₁ : Balanced given first) (h₂ : Balanced unseen second) :
    Balanced given (andThen first second) := fun _ _ _ hg hQ =>
  h₁ _ _ _ hg fun _ => h₂ _ _ _ rfl hQ

/-- What was seen behind trivia is next when the trivia is taken. -/
theorem trivia {behind : Lookahead} (h : Balanced behind q)
    (hs : ∀ ts, given ts = true → behind (ts.dropWhile Token.isTrivia) = true) :
    Balanced given (.andThen .trivia q) := fun _ _ _ hg hQ =>
  ⟨Hold.live_of_not_done _, h _ _ _ (hs _ hg) hQ⟩

/-- Behind trivia nothing is known, but a choice can look. -/
theorem behindTrivia (h : Balanced unseen q) : Balanced given (.andThen .trivia q) :=
  trivia h fun _ _ => rfl

theorem choose {test : Lookahead} {yes no : Phrase}
    (hy : Balanced (fun ts => given ts && test ts) yes)
    (hn : Balanced (fun ts => given ts && !test ts) no) : Balanced given (choose test yes no) := by
  intro opened Q ts hg hQ
  refine ⟨Hold.live_of_not_done _, ?_, ?_⟩
  · intro h
    exact hy _ _ _ (by simp [hg, h]) hQ
  · intro h
    exact hn _ _ _ (by simp [hg, h]) hQ

/-- A case that needs to know no more than its own look ahead. This is the form of nearly all
choices in the grammar; only where a case relies on those before it does `choose` have to be used.
-/
theorem case {test : Lookahead} {yes otherwise : Phrase} {cases : List (Lookahead × Phrase)}
    (hy : Balanced test yes) (ho : Balanced given (oneOf cases otherwise)) :
    Balanced given (oneOf ((test, yes) :: cases) otherwise) :=
  choose (hy.weaken fun _ h => (Bool.and_eq_true_iff.1 h).2)
    (ho.weaken fun _ h => (Bool.and_eq_true_iff.1 h).1)

/-- A choice of which neither side needs to know what was seen before. -/
theorem either {test : Lookahead} {yes no : Phrase} (hy : Balanced test yes)
    (hn : Balanced unseen no) :
    Balanced given (.choose test yes no) :=
  choose (hy.weaken fun _ h => (Bool.and_eq_true_iff.1 h).2) hn.of_unseen

theorem spacedCalls {yes no : Phrase} (hy : Balanced given yes) (hn : Balanced given no) :
    Balanced given (spacedCalls yes no) := fun _ _ _ hg hQ => ⟨hy _ _ _ hg hQ, hn _ _ _ hg hQ⟩

theorem repeating {test : Lookahead} {body : Phrase} (ht : test [] = false)
    (hb : body.takes = true) (h : Balanced test body) : Balanced given (repeating test body) :=
  fun _ _ _ _ hQ => ⟨rfl, ht, hb, fun _ hg => h _ _ _ hg fun _ => rfl, fun ts _ => hQ ts⟩

/-- A token that was seen, and is plain. -/
theorem take {P : Token → Bool} (hp : Plain P) (tag : DataTag) : Balanced (next P) (take tag) := by
  intro opened Q ts hg hQ
  obtain ⟨t, rest, rfl, ht⟩ := exists_of_next hg
  exact ⟨t, rest, rfl, _, Hold.take_of_plain (hp t ht) _ tag, hQ rest⟩

/-- The first of two tokens that were seen; the second one is still known behind it. It is needed
where a rule takes two tokens after one look, as for the point and the name of a class. -/
theorem takeFirst {P R : Token → Bool} (hp : Plain P) (tag : DataTag) (h : Balanced (next R) q) :
    Balanced (pair P R) (.andThen (.take tag) q) := by
  intro opened Q ts hg hQ
  match ts, hg with
  | t :: u :: rest, hg =>
    obtain ⟨ht, hu⟩ := Bool.and_eq_true_iff.1 hg
    exact ⟨t, u :: rest, rfl, _, Hold.take_of_plain (hp t ht) _ tag, h _ _ _ hu hQ⟩

/-- A construct whose opening was seen. -/
theorem node {p : Production} (hp : p.terminated = false)
    (ho : ∀ ts, given ts = true → p.opening (p.front ts) = true) : Balanced given (node p) := by
  intro opened Q ts hg hQ
  refine ⟨Hold.live_of_not_done _, ho ts hg, fun ts => ?_⟩
  rw [hp]
  exact hQ ts

/-- A construct that is opened by the next token. -/
theorem nodeNext {p : Production} {P : Token → Bool} (hp : Firm P) (ht : p.terminated = false)
    (ho : p.opening = next P) : Balanced (next P) (.node p) :=
  node ht fun ts h => by rw [p.front_of_firm hp h, ho]; exact h

/-- A construct that is opened by the next significant token. -/
theorem nodeSignificant {p : Production} {P : Token → Bool} (ht : p.terminated = false)
    (hk : p.keepsTrivia = false) (ho : p.opening = next P) : Balanced (significant P) (.node p) :=
  node ht fun ts h => by
    rw [ho, Production.front, hk, if_neg Bool.false_ne_true, next_dropWhile]
    exact h

/-- A construct that looks for itself. -/
theorem nodeUnseen {p : Production} (ht : p.terminated = false) (ho : p.opening = unseen) :
    Balanced given (.node p) :=
  node ht fun ts _ => by rw [ho]

/-! ## Shared forms of phrases -/

theorem expect {P : Token → Bool} (hp : Plain P) (tag : DataTag) (wanted : Wanted) :
    Balanced given (expect P tag wanted) :=
  behindTrivia (either (take hp tag) (expected wanted))

theorem keyword (word : String) : Balanced given (keyword word) := expect (plain_isWord word) _ _

theorem name (tag : DataTag) (wanted : Wanted) : Balanced given (name tag wanted) :=
  expect plain_isName tag wanted

theorem mark (m : Mark) (hb : (TokenKind.mark m).isBracket = false) (hs : m ≠ .semicolon) :
    Balanced given (mark m) := expect (plain_isMark m hb hs) _ _

/-- Trivia and a token that was seen behind it. -/
theorem takeSignificant {P : Token → Bool} (hp : Plain P) (tag : DataTag) (h : Balanced unseen q) :
    Balanced (significant P) (.andThen .trivia (.andThen (.take tag) q)) :=
  trivia (andThen (take hp tag) h) fun ts hs => by rw [next_dropWhile]; exact hs

/-- The same with nothing behind it. -/
theorem takeSignificantOnly {P : Token → Bool} (hp : Plain P) (tag : DataTag) :
    Balanced (significant P) (.andThen .trivia (.take tag)) :=
  trivia (take hp tag) fun ts hs => by rw [next_dropWhile]; exact hs

theorem optional (m : Mark) (hb : (TokenKind.mark m).isBracket = false) (hs : m ≠ .semicolon)
    (tag : DataTag) (h : Balanced unseen q) : Balanced given (optional m tag q) :=
  either (takeSignificant (plain_isMark m hb hs) tag h) empty

theorem commaSeparated (h : Balanced unseen q) : Balanced given (commaSeparated q) :=
  (andThen h (repeating rfl rfl
    (takeSignificant (plain_isMark .comma rfl nofun) _ h))).of_unseen

end Balanced

/-- The phrase closes what `m` has opened, and is balanced apart from this. A rule that opens a
group is split in two by it: in front of the opening mark nothing of the group is known, behind it
the rest of the rule `Closes` it. -/
def Closes (m : Mark) (q : Phrase) : Prop :=
  ∀ (opened : List Mark) (Q : Hold → List Token → Prop) (ts : List Token),
    (∀ ts, Q ⟨opened, false⟩ ts) → q.wp Q ⟨m :: opened, false⟩ ts

namespace Closes

variable {m : Mark} {q r : Phrase}

theorem mark {closing : Mark} (hc : closing.partner? = some m) : Closes m (mark closing) := by
  intro opened Q ts hQ
  refine wp_mark (Hold.live_of_not_done _) ?_ hQ
  cases closing <;> cases hc <;> rfl

/-- Something balanced in front. -/
theorem behind (hq : Balanced unseen q) (hr : Closes m r) : Closes m (.andThen q r) :=
  fun _ _ _ hQ => hq _ _ _ rfl fun _ => hr _ _ _ hQ

theorem andThen (hq : Closes m q) (hr : Balanced unseen r) : Closes m (.andThen q r) :=
  fun _ _ _ hQ => hq _ _ _ fun _ => hr _ _ _ rfl hQ

/-- The closing mark, where it was seen. -/
theorem takeSignificant {closing : Mark} (hc : closing.partner? = some m) (opened : List Mark)
    {Q : Hold → List Token → Prop} {ts : List Token} (hs : significant (isMark closing) ts = true)
    (hQ : ∀ ts, Q ⟨opened, false⟩ ts) :
    (seq [.trivia, .take .punctuation]).wp Q ⟨m :: opened, false⟩ ts := by
  refine ⟨Hold.live_of_not_done _, ?_⟩
  rw [← next_dropWhile] at hs
  obtain ⟨t, rest, he, ht⟩ := exists_of_next hs
  refine ⟨t, rest, he, ⟨opened, false⟩, ?_, hQ rest⟩
  rw [kind_of_isMark ht]
  cases closing <;> cases hc <;> rfl

theorem listUpTo {closing : Mark} (hc : closing.partner? = some m) {element : Phrase}
    (he : Balanced unseen element) : Closes m (listUpTo closing element) := by
  intro opened Q ts hQ
  refine ⟨Hold.live_of_not_done _, ?_, ?_⟩
  · intro hs
    exact takeSignificant hc opened hs hQ
  · intro _
    exact behind (.commaSeparated he) (mark hc) _ _ _ hQ

/-- With the mark that opens the group, where it was seen. -/
theorem balanced (h : Closes m q) (hm : m.opens = true) :
    Balanced (next (isMark m)) (.andThen (.take .punctuation) q) := by
  intro opened Q ts hg hQ
  obtain ⟨t, rest, rfl, ht⟩ := exists_of_next hg
  refine ⟨t, rest, rfl, ⟨m :: opened, false⟩, ?_, h _ _ _ hQ⟩
  rw [kind_of_isMark ht]
  cases m <;> first | rfl | cases hm

/-- With the mark that opens the group, where it has to be. -/
theorem balanced_mark (h : Closes m q) (hm : m.opens = true) {given : Lookahead} :
    Balanced given (.andThen (.mark m) q) := by
  intro opened Q ts _ hQ
  refine wp_mark (Hold.live_of_not_done _) ?_ fun ts => h opened Q ts hQ
  cases m <;> first | rfl | cases hm

end Closes

end Phrase

end Heddle
