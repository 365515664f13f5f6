import Heddle.Proofs.Grammar.Local
import Heddle.Proofs.Reading.Progress

/-!
# Trivia is taken as a whole

A rule that took some of the trivia ahead and left the rest to others could tell one piece of
trivia from two. Nearly every rule takes all of it: where a rule takes a token, or looks inside
one, it has taken the trivia in front of the token just before, as every construct does when it is
entered. **`Phrase.clearsTrivia` checks this along a phrase.** It is told whether the phrase
begins behind trivia that was taken, and of loops it also checks that their rounds are never used
up.

The rules of selectors and of value paths take tokens that a look ahead has seen in place of that.
They are looked at one by one in `Reading.Bridges`, which is also where the check is put to use:
two tapes that differ in their trivia are read alike by every rule that passes it.
-/

set_option autoImplicit false

namespace Heddle

/-- The constructs that take tokens which only their callers have seen. Their rule may not be
entered by a phrase that is checked here, since in front of it trivia need not have been taken. -/
def Production.isGuarded : Production → Bool
  | objectSelector | flag | descendant => true
  | _ => false

/-- The constructs whose rule takes tokens that a look ahead has seen. -/
def Production.isSighted : Production → Bool
  | selector | selectorChain | objectSelector | flag | descendant | valuePath => true
  | _ => false

namespace Phrase

/-- Whether the phrase ends by taking trivia. -/
def endsInTrivia : Phrase → Bool
  | trivia => true
  | andThen _ second => second.endsInTrivia
  | _ => false

/-- Whether the phrase takes only tokens behind trivia that it has taken, if `cleared` of the
trivia in front of the phrase. Behind anything but `trivia` nothing is cleared any more, a
construct included. -/
def clearsTrivia (cleared : Bool) : Phrase → Bool
  | take _ | quoted .. => cleared
  | node p => !p.isGuarded
  | andThen first second => first.clearsTrivia cleared && second.clearsTrivia first.endsInTrivia
  | choose _ yes no | spacedCalls yes no => yes.clearsTrivia cleared && no.clearsTrivia cleared
  | repeating test body => !test [] && body.takes && body.clearsTrivia false
  | statements _ statement => statement.takes && statement.clearsTrivia false
  | empty | trivia | expected _ | orphan | hexDigits | foreign => true

theorem clearsTrivia_arguments : arguments.clearsTrivia false = true := rfl

end Phrase

/-- **Every rule without sighted tokens takes trivia as a whole.** The proof computes the check
for each construct. -/
theorem Production.clearsTrivia_body {p : Production} (hp : p.isSighted = false) :
    p.body.clearsTrivia true = true := by
  cases p <;> cases hp <;> rfl

/-! ## What the looks of these rules see -/

namespace Phrase

open Lookahead Token

attribute [local simp] Looks seq oneOf expect mark keyword name optional further commaSeparated
  listUpTo singleType type primary operand operation arguments terminator condition optionalFinally
  plainStatement bareKeyword

theorem ignoresDisguise_arguments : arguments.Looks IgnoresDisguise := by
  simp

theorem ignoresDisguise_statement : statement.Looks IgnoresDisguise := by
  simp [statement]

/-- No look of a rule that passes the check tells trivia from trivia. The one look that does, for
a call without parentheses, stands in the rule of value paths. -/
theorem ignoresDisguise_body {p : Production} (hp : p.isSighted = false) :
    p.body.Looks IgnoresDisguise := by
  cases p <;> cases hp <;> simp [Production.body, ignoresDisguise_statement]

end Phrase

end Heddle
