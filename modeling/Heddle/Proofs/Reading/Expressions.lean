import Heddle.Proofs.Grammar.Rules
import Heddle.Proofs.Reading.Values

/-!
# An expression ends before any block that is not its own

Outside of groups the look for the end of a value sees every token of an expression. None of them
begins a block but in the value of an object, and **there the look has stopped at the sign of the
object already** (`Phrase.over_primary`). All other brackets of an expression are groups, which are
passed over whatever is in them.
-/

set_option autoImplicit false

namespace Heddle

open Lookahead

/-- The constructs of an expression that can stand outside of groups, but for objects. -/
def Production.isOperand : Production → Bool
  | expression | parenthesized | unary | number | string | rawString | constant | color | array
  | newObject | builtinCall | argument | valuePath | functionCall | singleArgumentCall
  | indexAccessor | objectSelector => true
  | _ => false

/-- The mark is neither a bracket nor one that the look for the end of a value stops at. -/
def Mark.isInner (m : Mark) : Bool :=
  !(TokenKind.mark m).isBracket && !([semicolon, rightBrace, leftBrace, atSign].contains m)

/-- The look for the end of a value goes on behind the token, `d'` groups being open there.
Brackets change the number; a mark that stops the look is never carried. -/
def Token.Carries (d : Nat) (P : Token → Bool) (d' : Nat) : Prop :=
  ∀ t, P t = true → ∀ ts, isValue d (t :: ts) = isValue d' ts

namespace Token

theorem carries_plain {P : Token → Bool} (hp : Plain P)
    (hv : ∀ t, P t = true → t.isValueMark = false) (d : Nat) : Carries d P d :=
  fun t ht => isValue_plain (hp t ht).1 (.inl (hv t ht))

theorem carries_of_not_isMark {P : Token → Bool} (hp : Plain P)
    (hm : ∀ t, P t = true → t.kind.isMark = false) (d : Nat) : Carries d P d :=
  carries_plain hp (fun t ht => isValueMark_of_not_isMark (hm t ht)) d

theorem carries_isName (d : Nat) : Carries d isName d :=
  carries_of_not_isMark plain_isName (fun _ h => by rw [kind_of_isName h]; rfl) d

theorem carries_isMark {m : Mark} (h : m.isInner = true) (d : Nat) : Carries d (isMark m) d := by
  intro t ht
  have hk := kind_of_isMark ht
  have hm : m.isInner = true → (TokenKind.mark m).isBracket = false ∧ t.isValueMark = false := by
    cases m <;> simp [Mark.isInner, TokenKind.isBracket, Mark.opens, Mark.partner?, isValueMark,
      isMark, hk]
  exact isValue_plain (hk ▸ (hm h).1) (.inl (hm h).2)

theorem carries_any_isMark {ms : List Mark} (h : ∀ m ∈ ms, m.isInner = true) (d : Nat) :
    Carries d (fun t => ms.any t.isMark) d := by
  intro t ht
  obtain ⟨m, hm, hk⟩ := List.any_eq_true.1 ht
  exact carries_isMark (h m hm) d t hk

theorem carries_isOperator (d : Nat) : Carries d isOperator d := carries_any_isMark (by decide) d

theorem carries_isComparator (d : Nat) : Carries d isComparator d :=
  carries_any_isMark (by decide) d

theorem carries_opening {m : Mark} (hm : m = .leftParen ∨ m = .leftBracket) (d : Nat) :
    Carries d (isMark m) (d + 1) := by
  intro t ht ts
  rcases hm with rfl | rfl <;> simp [isValue, ht]

theorem carries_closing {m : Mark} (hm : m = .rightParen ∨ m = .rightBracket) (d : Nat) :
    Carries (d + 1) (isMark m) d := by
  intro t ht ts
  have hk := kind_of_isMark ht
  rcases hm with rfl | rfl <;> simp [isValue, isMark, hk]

end Token

namespace Attempt

/-- What the constructs inside an expression have to be like. Inside of groups everything is
passed over (`PassesInside`); outside only the operands are. -/
structure PassesOperands (descend : Options → Production → Tape → Attempt) : Prop
    extends PassesInside descend where
  operand : ∀ o p (tape : Tape), p.isOperand = true → tape.Lexed →
    p.opening (p.front tape.ahead) = true → (descend o p tape).Clean →
      Passes 0 tape.ahead 0 (descend o p tape).tape.ahead

end Attempt

namespace Phrase

open Attempt Token

/-- What the phrase reads without errors, where `given` was seen and `d` groups are open, is
passed over, and `d'` groups are open behind it. The rules below follow the forms of phrases, with
the number of groups in place of the list of brackets. -/
def Over (descend : Options → Production → Tape → Attempt) (d : Nat) (given : Lookahead)
    (q : Phrase) (d' : Nat) : Prop :=
  ∀ o (tape : Tape), tape.Lexed → given tape.ahead = true → (q.read descend o tape).Clean →
    Passes d tape.ahead d' (q.read descend o tape).tape.ahead

variable {descend : Options → Production → Tape → Attempt} {given : Lookahead} {q : Phrase}
  {d d₁ d' : Nat}

namespace Over

theorem of_unseen (h : Over descend d unseen q d') : Over descend d given q d' :=
  fun o tape hl _ hc => h o tape hl rfl hc

theorem weaken {seen : Lookahead} (h : Over descend d given q d')
    (hs : ∀ ts, seen ts = true → given ts = true) : Over descend d seen q d' :=
  fun o tape hl hg hc => h o tape hl (hs _ hg) hc

theorem empty : Over descend d given empty d := fun _ _ _ _ _ => .refl _ _

theorem expected (wanted : Wanted) : Over descend d given (expected wanted) d' :=
  fun _ _ _ _ hc => nomatch hc.succeeds

theorem take {P : Token → Bool} (hp : Carries d P d') (tag : DataTag) :
    Over descend d (next P) (take tag) d' := by
  intro o tape _ hg _
  obtain ⟨t, ts, ha, ht⟩ := exists_of_next hg
  have hx : (tape.take tag).2.ahead = ts := by rw [Tape.ahead_take, ha]; rfl
  show Passes d tape.ahead d' (tape.take tag).2.ahead
  rw [hx, ha]
  exact .of_eq (hp t ht ts)

theorem hexDigits : Over descend d given hexDigits d := fun _ _ hl _ _ => passes_hexDigits hl d

variable (hd : PassesOperands descend)
include hd

/-- One phrase behind another one that has left `behind` to be seen. -/
theorem seq {behind : Lookahead} {first second : Phrase} (h₁ : Over descend d given first d₁)
    (hb : ∀ o (tape : Tape), given tape.ahead = true →
      behind (first.read descend o tape).tape.ahead = true)
    (h₂ : Over descend d₁ behind second d') : Over descend d given (andThen first second) d' := by
  intro o tape hl hg hc
  obtain ⟨hc₁, hc₂, he⟩ := hc.of_andThen
  have hrest := (Attempt.conserves.phrase hd.conserves first o tape hl).lexed
  rw [Phrase.read, he]
  exact (h₁ o tape hl hg hc₁).trans (h₂ o _ hrest (hb o tape hg) hc₂)

theorem andThen {first second : Phrase} (h₁ : Over descend d given first d₁)
    (h₂ : Over descend d₁ unseen second d') : Over descend d given (andThen first second) d' :=
  seq hd h₁ (fun _ _ _ => rfl) h₂

/-- The first of two tokens that were seen; the second one is still known behind it. -/
theorem takeFirst {P R : Token → Bool} (hp : Carries d P d₁) (tag : DataTag)
    (h : Over descend d₁ (next R) q d') :
    Over descend d (pair P R) (.andThen (.take tag) q) d' := by
  refine seq hd ((take hp tag).weaken fun _ => next_of_pair) (fun o tape hg => ?_) h
  show next R (tape.take tag).2.ahead = true
  rw [Tape.ahead_take]
  exact next_tail_of_pair hg

theorem trivia {behind : Lookahead} (h : Over descend d behind q d')
    (hb : ∀ ts, given ts = true → behind (ts.dropWhile Token.isTrivia) = true) :
    Over descend d given (.andThen .trivia q) d' := by
  have htrivia : Over descend d given .trivia d := by
    intro o tape _ _ _
    show Passes d tape.ahead d tape.takeTrivia.2.ahead
    rw [Tape.ahead_takeTrivia]
    exact .of_eq (isValue_dropWhile d tape.ahead).symm
  refine seq hd htrivia (fun o tape hg => ?_) h
  show behind tape.takeTrivia.2.ahead = true
  rw [Tape.ahead_takeTrivia]
  exact hb _ hg

theorem behindTrivia (h : Over descend d unseen q d') :
    Over descend d given (.andThen .trivia q) d' := trivia hd h fun _ _ => rfl

omit hd in
theorem choose {test : Lookahead} {yes no : Phrase}
    (hy : Over descend d (fun ts => given ts && test ts) yes d')
    (hn : Over descend d (fun ts => given ts && !test ts) no d') :
    Over descend d given (.choose test yes no) d' := by
  intro o tape hl hg hc
  rw [Phrase.read] at hc ⊢
  cases ht : test tape.ahead with
  | true =>
    rw [ht] at hc
    exact hy o tape hl (by simp [hg, ht]) hc
  | false =>
    rw [ht] at hc
    exact hn o tape hl (by simp [hg, ht]) hc

omit hd in
theorem either {test : Lookahead} {yes no : Phrase} (hy : Over descend d test yes d')
    (hn : Over descend d unseen no d') : Over descend d given (.choose test yes no) d' :=
  choose (hy.weaken fun _ h => (Bool.and_eq_true_iff.1 h).2) hn.of_unseen

omit hd in
/-- A case that needs to know no more than its own look ahead. -/
theorem case {test : Lookahead} {yes otherwise : Phrase} {cases : List (Lookahead × Phrase)}
    (hy : Over descend d test yes d') (ho : Over descend d given (oneOf cases otherwise) d') :
    Over descend d given (oneOf ((test, yes) :: cases) otherwise) d' :=
  choose (hy.weaken fun _ h => (Bool.and_eq_true_iff.1 h).2)
    (ho.weaken fun _ h => (Bool.and_eq_true_iff.1 h).1)

omit hd in
theorem spacedCalls {yes no : Phrase} (hy : Over descend d given yes d')
    (hn : Over descend d given no d') : Over descend d given (spacedCalls yes no) d' := by
  intro o tape hl hg hc
  rw [Phrase.read] at hc ⊢
  cases ho : o.spacedCalls with
  | true =>
    rw [ho] at hc
    exact hy o tape hl hg hc
  | false =>
    rw [ho] at hc
    exact hn o tape hl hg hc

theorem repeating {test : Lookahead} {body : Phrase} (ht : test [] = false)
    (hb : body.takes = true) (h : Over descend d test body d) :
    Over descend d given (.repeating test body) d := by
  intro o tape hl _ hc
  refine repeating_rule (P := fun tape a => a.Clean → Passes d tape.ahead d a.tape.ahead) ht
    (fun tape hl => Attempt.conserves.phrase hd.conserves body o tape hl)
    (fun tape hl => progress_phrase hd.conserves hd.progress body hb o hl)
    (fun tape _ _ _ => .refl _ _) ?_ ?_ hl (Nat.le_refl _) hc
  · intro tape f _ _ hf hc
    rw [hc.succeeds] at hf
    cases hf
  · intro tape b hl hy hf ih hc
    obtain ⟨hfb, hsb⟩ := hc
    rw [trace_behind, Trace.diagnostics_append, List.append_eq_nil_iff] at hsb
    exact (h o tape hl hy ⟨hf, hsb.1⟩).trans (ih ⟨hfb, hsb.2⟩)

/-- Trivia and a token that was seen behind it. -/
theorem takeSignificant {P : Token → Bool} (hp : Carries d P d₁) (tag : DataTag)
    (h : Over descend d₁ unseen q d') :
    Over descend d (significant P) (.andThen .trivia (.andThen (.take tag) q)) d' :=
  trivia hd (andThen hd (take hp tag) h) fun ts hs => by rw [next_dropWhile]; exact hs

theorem expect {P : Token → Bool} (hp : Carries d P d') (tag : DataTag) (wanted : Wanted) :
    Over descend d given (expect P tag wanted) d' :=
  behindTrivia hd (either (take hp tag) (expected wanted))

/-- What closes all it opens, read inside of a group. From inside of it the look sees no token
that could stop it. -/
theorem inside (he : Balanced unseen q) : Over descend (d + 1) given q (d + 1) := by
  intro o tape hl _ hc
  obtain ⟨⟨opened, done⟩, rfl, hx⟩ := hd.toPassesInside.phrase q hl (Nat.succ_pos d)
    (he [] (fun g _ => g.opened = []) tape.ahead rfl fun _ => rfl) hc
  simpa [groups] using hx

theorem node {p : Production} (hp : p.isOperand = true)
    (ho : ∀ ts, given ts = true → p.opening (p.front ts) = true) :
    Over descend 0 given (.node p) 0 :=
  fun o tape hl hg hc => hd.operand o p tape hp hl (ho _ hg) hc

theorem nodeNext {p : Production} {P : Token → Bool} (hp : p.isOperand = true) (hf : Firm P)
    (ho : p.opening = next P) : Over descend 0 (next P) (.node p) 0 :=
  node hd hp fun ts h => by rw [p.front_of_firm hf h, ho]; exact h

theorem nodeUnseen {p : Production} (hp : p.isOperand = true) (ho : p.opening = unseen) :
    Over descend 0 given (.node p) 0 := node hd hp fun ts _ => by rw [ho]

/-- The rest of a list in a group. -/
theorem listUpTo {m : Mark} (hm : m = .rightParen ∨ m = .rightBracket) {element : Phrase}
    (he : Balanced unseen element) : Over descend (d + 1) given (listUpTo m element) d := by
  have hclose := carries_closing hm d
  refine either (trivia hd (take hclose _) fun ts hs => by rw [next_dropWhile]; exact hs) ?_
  exact andThen hd (inside hd (.commaSeparated he)) (expect hd hclose _ _)

end Over

/-! ## The phrases of expressions -/

section expressions

variable (hd : PassesOperands descend)
include hd

omit hd in
/-- At the sign of an object that is none of the known ones the look stops, and whatever follows
is behind its end. This is what keeps the block of such an object from being taken for the block
of a rule. -/
theorem over_object : Over descend 0 (fun ts => !isObject ts && next (isMark .atSign) ts)
    (.node .objectDefinition) 0 := by
  intro o tape _ hg _ _
  obtain ⟨hn, ha⟩ := Bool.and_eq_true_iff.1 hg
  obtain ⟨t, ts, ha, ht⟩ := exists_of_next ha
  have hword : next isObjectWord ts = false := by
    cases ts with
    | nil => rfl
    | cons u ts => simpa [ha, isObject, pair, ht, next] using hn
  have hk := kind_of_isMark ht
  rw [ha]
  simp [isValue, isMark, hk, hword]

theorem over_primary : Over descend 0 given primary 0 := by
  refine .behindTrivia hd ?_
  refine .case (.nodeNext hd rfl firm_isNumber rfl) ?_
  refine .case (.nodeNext hd rfl firm_isQuoted rfl) ?_
  refine .case (.nodeNext hd rfl firm_isRawText rfl) ?_
  refine .case (.nodeNext hd rfl (firm_isMark _) rfl) ?_
  refine .case (.nodeNext hd rfl (firm_isMark _) rfl) ?_
  refine .case (.nodeNext hd rfl (firm_isMark _) rfl) ?_
  refine .case (.nodeNext hd rfl (firm_isMark _) rfl) ?_
  -- Behind the known objects an `@` begins an object with a block.
  refine .choose (.nodeUnseen hd rfl rfl) (.choose (over_object.weaken fun ts h => h) ?_)
  refine .case (.nodeNext hd rfl (firm_any_isWord _) rfl) ?_
  refine .case (.nodeNext hd rfl (firm_isWord _) rfl) ?_
  exact .case (.nodeUnseen hd rfl rfl) (.expected _)

theorem over_operand : Over descend 0 given operand 0 :=
  .behindTrivia hd <| .either (.nodeNext hd rfl (firm_or (firm_isMark _) (firm_isMark _)) rfl)
    (over_primary hd)

theorem over_operation : Over descend 0 given operation 0 := by
  refine .andThen hd (over_operand hd) (.repeating hd rfl rfl ?_)
  refine .trivia hd (.andThen hd (.choose ?_ ?_) (over_operand hd))
    fun ts h => next_dropWhile _ ts ▸ h
  · exact (Over.take (carries_isOperator 0) _).weaken fun _ h => (Bool.and_eq_true_iff.1 h).2
  · apply (Over.take (carries_isComparator 0) _).weaken
    intro ts h
    rw [next_or] at h
    exact right_of_not_left h

theorem over_arguments : Over descend 0 given arguments 0 :=
  .andThen hd (.expect hd (carries_opening (.inl rfl) 0) _ _)
    (.listUpTo hd (.inl rfl) (.nodeUnseen rfl rfl))

theorem over_segment (tag : DataTag) : Over descend 0 given (segment tag) 0 := by
  have hname : Over descend 0 (next isName) (take tag) 0 := .take (carries_isName 0) tag
  refine .case ?_ (.case (.spacedCalls ?_ (hname.weaken fun _ => next_of_isSpacedCall))
    (.case hname (.expected _)))
  · refine .node hd rfl ?_
    intro ts h
    rw [Production.front_of_firm _ firm_isName (next_of_pair h)]
    exact h
  · refine .node hd rfl ?_
    intro ts h
    rw [Production.front_of_firm _ firm_isName (next_of_isSpacedCall h)]
    exact h

theorem over_step : Over descend 0
    (fun ts => pair (isMark .dot) isName ts || next (isMark .leftBracket) ts)
    (.choose (pair (isMark .dot) isName) (seq [.take .punctuation, segment .propertyName])
      (.node .indexAccessor)) 0 := by
  have hdot : Carries 0 (isMark .dot) 0 := carries_isMark rfl 0
  refine .choose ?_ ?_
  · exact (Over.takeFirst hd hdot _ (over_segment hd _)).weaken fun _ h =>
      (Bool.and_eq_true_iff.1 h).2
  · exact (Over.nodeNext hd rfl (firm_isMark .leftBracket) rfl).weaken fun ts h =>
      right_of_not_left h

end expressions

end Phrase

open Phrase Token

/-- **The rule of an operand is passed over.** Each case has the form of the rule; the tokens of a
rule are carried, and what stands in brackets is passed over as a whole. -/
theorem Production.over_body {descend : Options → Production → Tape → Attempt}
    (hd : Attempt.PassesOperands descend) {p : Production} (hp : p.isOperand = true) :
    Over descend 0 p.opening p.body 0 := by
  have hword {P : Token → Bool} (hw : ∀ t, P t = true → t.kind = .word) : Carries 0 P 0 :=
    carries_of_not_isMark (plain_of_kind hw rfl nofun) (fun t ht => by rw [hw t ht]; rfl) 0
  cases p <;> try cases hp
  case expression => exact over_operation hd
  case parenthesized =>
    exact .andThen hd (.take (carries_opening (.inl rfl) 0) _) <|
      .andThen hd (.inside hd (.nodeUnseen rfl rfl)) (.expect hd (carries_closing (.inl rfl) 0) _ _)
  case unary =>
    refine .andThen hd (.take (fun t ht => ?_) _) (over_operand hd)
    rcases Bool.or_eq_true_iff.1 ht with h | h
    · exact carries_isMark rfl 0 t h
    · exact carries_isMark rfl 0 t h
  case number =>
    refine .take (carries_of_not_isMark plain_isNumber (fun t ht => ?_) 0) _
    cases hk : t.kind <;> first | rfl | (rw [hk] at ht; cases ht)
  -- A text in quotes is one token, however much is read inside of it.
  case string =>
    intro o tape hl hg _
    obtain ⟨t, ts, ha, ht⟩ := exists_of_next hg
    obtain ⟨trace, hr⟩ := Attempt.takesApart_quoted o.file _ ht
    rw [show Production.body .string = Phrase.quoted _ _ from rfl, Phrase.read, hr tape ts ha, ha]
    refine .of_eq (isValue_plain (plain_isQuoted t ht).1 (.inl (isValueMark_of_not_isMark ?_)) ts)
    cases hk : t.kind <;> first | rfl | (rw [isQuoted, hk] at ht; cases ht)
  case rawString =>
    refine .take (carries_of_not_isMark plain_isRawText (fun t ht => ?_) 0) _
    rw [show t.kind = .rawText from beq_iff_eq.1 ht]
    rfl
  case constant => exact .take (hword fun _ => kind_of_any_isWord) _
  case color => exact .andThen hd (.take (carries_isMark rfl 0) _) .hexDigits
  case array =>
    exact .andThen hd (.take (carries_opening (.inr rfl) 0) _)
      (.listUpTo hd (.inr rfl) (.nodeUnseen rfl rfl))
  case newObject =>
    exact .andThen hd (.take (hword fun _ => kind_of_isWord) _) <|
      .andThen hd (.expect hd (carries_isName 0) _ _) (.either (over_arguments hd) .empty)
  case builtinCall =>
    exact .andThen hd (.take (carries_isMark rfl 0) _) <|
      .andThen hd (.expect hd (carries_isName 0) _ _) (over_arguments hd)
  case argument =>
    refine .andThen hd (.either ?_ .empty) (.nodeUnseen hd rfl rfl)
    exact .takeSignificant hd (carries_isMark rfl 0) _ .empty
  case valuePath =>
    exact .andThen hd (.either (.node hd rfl fun ts h => by
      rw [Production.front_of_firm _ (firm_isMark _) (next_of_pair h)]
      exact h) (over_segment hd _))
      (.repeating hd rfl rfl (over_step hd))
  case functionCall =>
    exact .andThen hd ((Over.take (carries_isName 0) _).weaken fun _ => next_of_pair)
      (over_arguments hd)
  case singleArgumentCall =>
    exact .andThen hd ((Over.take (carries_isName 0) _).weaken fun _ => next_of_isSpacedCall)
      (.nodeUnseen hd rfl rfl)
  case indexAccessor =>
    exact .andThen hd (.take (carries_opening (.inr rfl) 0) _) <|
      .andThen hd (.inside hd (.nodeUnseen rfl rfl)) (.expect hd (carries_closing (.inr rfl) 0) _ _)
  -- The look goes over the sign and its word at once, so both tokens are taken together.
  case objectSelector =>
    intro o tape _ hg _
    obtain ⟨t, u, ts, ha, ht, hu⟩ := exists_of_pair hg
    have hx : ((Production.body .objectSelector).read descend o tape).tape.ahead = ts := by
      show ((tape.take .punctuation).2.take .objectKeyword).2.ahead = ts
      rw [Tape.ahead_take, Tape.ahead_take, ha]
      rfl
    have hk := kind_of_isMark ht
    have hnext : next isObjectWord (u :: ts) = true := hu
    rw [hx, ha]
    refine .of_eq ?_
    have hrest := carries_isName 0 u (Bool.and_eq_true_iff.1 hu).1 ts
    rw [isValue]
    simp [isMark, hk, hnext, hrest]

namespace Attempt

/-- **Every operand is passed over**, however deep nodes may nest. So the look for an assignment,
which does not read a value but counts brackets, comes to the end that the reading of the value
comes to. -/
theorem passes_operands (n : Nat) : PassesOperands (Production.read n) := by
  induction n with
  | zero =>
    refine ⟨passes_inside 0, fun o p tape _ h _ hc => ?_⟩
    exact passes_enter h hc fun _ _ _ hc => nomatch hc.succeeds
  | succ n ih =>
    refine ⟨passes_inside (n + 1), fun o p tape hp h ho hc => ?_⟩
    refine passes_enter h hc fun start hl ha hc => ?_
    exact Production.over_body ih hp o start hl (ha ▸ ho) hc

/-- **Where an expression is read without errors, the look comes to its end**: a value that ends
behind it before any block does so in front of it. -/
theorem isValue_expression (n : Nat) (o : Options) {tape : Tape} (h : tape.Lexed)
    (hc : (Production.read n o .expression tape).Clean)
    (hv : isValue 0 (Production.read n o .expression tape).tape.ahead = true) :
    isValue 0 tape.ahead = true :=
  (passes_operands n).operand o .expression tape rfl h rfl hc hv

end Attempt

end Heddle
