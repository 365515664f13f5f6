import Heddle.Proofs.Reading.Progress
import Heddle.Proofs.Token.Nesting

/-!
# What has to hold in front of a phrase

A rule takes many tokens without a look, because the choice that led to it has seen them. To say
what a rule takes one has to know what was seen, and `Phrase.wp` is how this knowledge gets from
the choice to the rule: **the weakest condition in front of a phrase that makes `Q` hold behind
it**, computed along the phrase and proved rule by rule. A construct is a black box in it: it asks
for its `Production.opening`, the look ahead that all its callers have taken, and behind it nothing
is known of the tokens ahead.

What is carried along is a `Hold`: the brackets that the rule itself has opened and not closed, and
whether the last token may be the end of a statement. The second matters at the end of a text. A
text that ends with a semicolon can only be used up where a hold is `done`, so in a hold that is
`Live` a look ahead never meets the end.

A quoted text is not described: it is one token, and what is read in its placeholders is no part
of the tokens around it.
-/

set_option autoImplicit false

namespace Heddle

/-- What is known between two steps of a rule. It is what a proof about the tokens of a rule
carries along in place of the trace. -/
structure Hold where
  /-- The brackets that the rule has opened and not closed, innermost first. -/
  opened : List Mark
  /-- Whether the last token may be a semicolon. -/
  done : Bool

namespace Hold

/-- In front of a rule. -/
def start : Hold := ⟨[], false⟩

/-- Something has to follow: the rule has not ended, since either it did not take a semicolon last
or a bracket of its own is open. -/
def Live (g : Hold) : Prop := g.done = false ∨ g.opened ≠ []

/-- Taking a token. A bracket is always taken as punctuation; in any other role it would be
counted by `turn` and not be one of the rule. -/
def take (g : Hold) (tag : DataTag) (kind : TokenKind) : Option Hold :=
  if kind.isBracket && tag != .punctuation then none
  else (kind.turn g.opened).map (⟨·, kind == .mark .semicolon⟩)

/-- What a token does to the brackets of a rule is what it does to brackets anywhere, and only a
semicolon may end the rule. -/
theorem turn_of_take {g g' : Hold} {tag : DataTag} {kind : TokenKind}
    (h : g.take tag kind = some g') :
    kind.turn g.opened = some g'.opened ∧ g'.done = (kind == .mark .semicolon) := by
  unfold take at h
  split at h
  · cases h
  · obtain ⟨opened, ht, rfl⟩ := Option.map_eq_some_iff.1 h
    exact ⟨ht, rfl⟩

theorem live_of_not_done (opened : List Mark) : Live ⟨opened, false⟩ := .inl rfl

end Hold

open Lookahead Token

/-- What every caller of a construct has seen of it. It is the interface between a rule and the
rules that refer to it: the caller has to prove it, and the rule of the construct may assume it.
-/
def Production.opening : Production → Lookahead
  | declaration => next fun t => ["var", "const"].any t.isWord
  | functionDeclaration => next fun t => ["function", "override", "insert"].any t.isWord
  | ifStatement => next (·.isWord "if")
  | elseBranch => next (·.isWord "else")
  | switchStatement => next (·.isWord "switch")
  | caseBranch => next (·.isWord "case")
  | defaultBranch => next (·.isWord "default")
  | loopStatement => next (·.isWord "loop")
  | forStatement => next (·.isWord "for")
  | finallyBranch => next (·.isWord "finally")
  | returnStatement => next (·.isWord "return")
  | repeatStatement => next (·.isWord "repeat")
  | breakStatement => next (·.isWord "break")
  | continueStatement => next (·.isWord "continue")
  | needs => next (·.isWord "needs")
  | configure => next (·.isWord "configure")
  | foreign => next isForeign
  | combinator => next isCombinator
  | descendant => next isTrivia
  | objectSelector => isObject
  | flag => pair (isMark .colon) isName
  | filter | mapType | arrayType | array | indexAccessor => next (isMark .leftBracket)
  | objectDefinition | objectType => next (isMark .atSign)
  | functionType | parenthesized => next (isMark .leftParen)
  | pointerType => next (isMark .ampersand)
  | namedType => next isName
  | constant => next fun t => ["true", "false", "null"].any t.isWord
  | unary => next fun t => t.isMark .bang || t.isMark .minus
  | number => next (·.kind.isNumber)
  | string => next isQuoted
  | rawString => next isRawText
  | color => next (isMark .hash)
  | newObject => next (·.isWord "new")
  | builtinCall => next (isMark .dollar)
  | functionCall => isCall
  | singleArgumentCall => isSpacedCall
  | block | assignment | parameter | rule | selectorCall | selectorChain | selector | multipleType
  | expression | expressionStatement | argument | valuePath => fun _ => true

/-- Whether a construct may end with a semicolon. -/
def Production.terminated : Production → Bool
  | declaration | assignment | returnStatement | repeatStatement | breakStatement
  | continueStatement | needs | selectorCall | expressionStatement => true
  | _ => false

/-- The tokens ahead of a construct, without the trivia that goes to its parent. -/
def Production.front (p : Production) (ts : List Token) : List Token :=
  if p.keepsTrivia then ts else ts.dropWhile Token.isTrivia

namespace Phrase

/-- Whether the phrase takes nothing itself, apart from trivia: all it takes is in constructs. The
body of a list of statements is of this form, so the tokens of a list are those of its statements.
-/
def indirect : Phrase → Bool
  | empty | trivia | node _ | expected _ | orphan => true
  | andThen first second => first.indirect && second.indirect
  | choose _ yes no | spacedCalls yes no => yes.indirect && no.indirect
  | take _ | repeating _ _ | statements _ _ | quoted _ _ | hexDigits | foreign => false

/-- The weakest condition in front of a phrase that makes `Q` hold behind it if it succeeds. A
failing phrase needs nothing, so `expected` and `orphan` make every condition hold; a loop needs
its invariant to be the hold itself. -/
def wp : Phrase → (Hold → List Token → Prop) → Hold → List Token → Prop
  | empty, Q, g, ts => Q g ts
  | take tag, Q, g, ts =>
    ∃ t rest, ts = t :: rest ∧ ∃ g', g.take tag t.kind = some g' ∧ Q g' rest
  | trivia, Q, g, ts => g.Live ∧ Q g (ts.dropWhile Token.isTrivia)
  | node p, Q, g, ts =>
    g.Live ∧ p.opening (p.front ts) = true ∧ ∀ ts, Q ⟨g.opened, p.terminated⟩ ts
  | andThen first second, Q, g, ts => first.wp (second.wp Q) g ts
  | choose test yes no, Q, g, ts =>
    g.Live ∧ (test ts = true → yes.wp Q g ts) ∧ (test ts = false → no.wp Q g ts)
  | repeating test body, Q, g, _ =>
    g.done = false ∧ test [] = false ∧ body.takes = true ∧
      (∀ ts, test ts = true → body.wp (fun g' _ => g' = g) g ts) ∧
      ∀ ts, test ts = false → Q g ts
  | spacedCalls yes no, Q, g, ts => yes.wp Q g ts ∧ no.wp Q g ts
  | expected _, _, _, _ => True
  | orphan, _, _, _ => True
  | statements inBlock statement, Q, g, _ =>
    inBlock = true ∧ g.opened.head? = some .leftBrace ∧ statement.takes = true ∧
      statement.indirect = true ∧
      (∀ ts, statement.wp (fun g' _ => g'.opened = []) .start ts) ∧
      ∀ ts, Q ⟨g.opened, true⟩ ts
  | quoted _ _, _, _, _ => False
  | hexDigits, Q, g, _ => ∀ ts, Q ⟨g.opened, false⟩ ts
  | foreign, Q, g, ts =>
    ∃ t rest, ts = t :: rest ∧ t.isForeign = true ∧ Q ⟨g.opened, false⟩ rest

/-! ## Rules for the shared phrases -/

variable {Q : Hold → List Token → Prop} {g g' : Hold} {ts : List Token}

theorem wp_mark {m : Mark} (hl : g.Live) (hg : g.take .punctuation (.mark m) = some g')
    (hQ : ∀ ts, Q g' ts) : (mark m).wp Q g ts := by
  refine ⟨hl, hl, fun h => ?_, fun _ => trivial⟩
  cases hd : ts.dropWhile Token.isTrivia with
  | nil => rw [hd] at h; cases h
  | cons t rest =>
    rw [hd] at h
    have hk : t.kind = .mark m := beq_iff_eq.1 h
    exact ⟨t, rest, rfl, g', by rw [hk]; exact hg, hQ rest⟩

end Phrase

end Heddle
