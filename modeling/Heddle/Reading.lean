import Heddle.Attempt.Literal
import Heddle.Grammar.Rules

/-!
# Reading by the grammar

`Phrase.read` says how every phrase is read, and `Production.read` how a construct becomes a node.
Nodes nest at most `maxNesting` deep below the document; the allowance that is left is what the
reading of constructs recurs on, so it always ends.

Inside a placeholder a call needs its parentheses, since the words that follow a name there are
most likely plain text. This is the only thing that a phrase changes for the phrases inside it.

`Phrase.read` is structural over phrases and `Production.read` over the allowance, so a proof
about all readings is an induction on the allowance around an induction on the phrase.
`Proofs.Reading.GrammarInvariant` states that scheme once.
-/

set_option autoImplicit false

namespace Heddle

/-- What a reading can be told. -/
structure Options where
  /-- The file named in locations and errors. -/
  file : Option String := none
  /-- Whether a call may be written as a name and an argument with a blank between them. -/
  spacedCalls : Bool := true
deriving DecidableEq, Repr

/-- How deep nodes may nest below the document. -/
def maxNesting : Nat := 256

/-- Reads a phrase; `descend` reads the constructs inside it. Taking the reader of the constructs
as an argument is what breaks the cycle between phrases and productions: a lemma about a phrase
assumes what it needs of `descend`, and an induction on the allowance supplies it. -/
def Phrase.read (descend : Options → Production → Tape → Attempt) :
    Phrase → Options → Tape → Attempt
  | empty, _, tape => .ofTaken (.nil, tape)
  | take tag, _, tape => .ofTaken (tape.take tag)
  | trivia, _, tape => .ofTaken tape.takeTrivia
  | node p, o, tape => descend o p tape
  | andThen first second, o, tape =>
    (first.read descend o tape).andThen (second.read descend o)
  | choose test yes no, o, tape =>
    if test tape.ahead then yes.read descend o tape else no.read descend o tape
  | repeating test body, o, tape => .repeating test (body.read descend o) tape.size tape
  | spacedCalls yes no, o, tape =>
    if o.spacedCalls then yes.read descend o tape else no.read descend o tape
  | expected wanted, _, tape => .fail (tape.missing wanted) tape
  | orphan, _, tape =>
    .fail (tape.failure (.orphan ((tape.ahead.head?.map (·.text)).getD ""))) tape
  | statements inBlock statement, o, tape =>
    .statements o.file inBlock (statement.read descend o) tape.size tape
  | quoted named braced, o, tape =>
    let inside := { o with spacedCalls := false }
    .quoted o.file
      (fun isBraced =>
        if isBraced then braced.read descend inside else named.read descend inside) tape
  | hexDigits, _, tape => .hexDigits tape
  | foreign, _, tape => .foreign tape

/-- A construct as a node, its inside read by `inside`. Trivia in front of it goes to the parent,
unless it belongs to the construct, as the blank of a descendant combinator does. -/
def Production.enter (p : Production) (o : Options) (inside : Tape → Attempt) (tape : Tape) :
    Attempt :=
  let (lead, tape) := if p.keepsTrivia then (.nil, tape) else tape.takeTrivia
  ((inside tape).framed o.file p.kind tape.place).behind lead

/-- Reads a construct with so many levels of nodes allowed. Without any left, the construct fails
where its first token stands and takes nothing but trivia. -/
def Production.read : Nat → Options → Production → Tape → Attempt
  | 0, o, p, tape => p.enter o (fun tape => .fail (tape.failure .tooDeep) tape) tape
  | allowance + 1, o, p, tape =>
    p.enter o (p.body.read (Production.read allowance) o) tape

/-- Reads a whole source: one document node with the statements of the source. Errors are part of
the report and never stop the reading, so this is a total function and its result is always one
node. -/
def readDocument (o : Options) (source : String) : Trace :=
  let (start, cs) := openSource source
  let a := (Phrase.statements false .statement).read (Production.read maxNesting) o
    (.ofText start cs 0)
  (a.framed o.file .document start).trace

end Heddle
