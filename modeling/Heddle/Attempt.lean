import Heddle.Tape

/-!
# Attempts

Reading a construct is an attempt: it reports what it took, leaves the rest of the tape, and may
have failed. A failed attempt keeps what it took, since nothing that was read is ever unread.

The combinators below are the only way in which attempts are made of smaller ones, and
`Phrase.read` is written in them alone. What holds of every reading is therefore proved in two
steps throughout: one lemma for each combinator, and one induction over phrases that puts them
together.

Both loops recur on a number of rounds. Their callers give the size of the tape in bytes, and
since each round takes something (`Proofs.Reading.Progress`) the number never is what ends a loop:
it is there to make the recursion structural.
-/

set_option autoImplicit false

namespace Heddle

/-- The outcome of reading a construct. The tape is the one behind all that was taken, of a failed
attempt too, since recovery goes on from where the failure showed. -/
structure Attempt where
  trace : Trace
  tape : Tape
  failure : Option Failure := none

namespace Attempt

def ofTaken (taken : Trace × Tape) : Attempt :=
  { trace := taken.1, tape := taken.2 }

/-- Fails without taking anything. -/
def fail (f : Failure) (tape : Tape) : Attempt :=
  { trace := .nil, tape, failure := some f }

/-- Goes on where the attempt ended, unless it failed. A failure is kept as it is, so the first
one decides and nothing behind it is read. -/
def andThen (a : Attempt) (next : Tape → Attempt) : Attempt :=
  match a.failure with
  | some _ => a
  | none =>
    let b := next a.tape
    { b with trace := a.trace ++ b.trace }

/-- The attempt with something reported in front. -/
def behind (lead : Trace) (a : Attempt) : Attempt :=
  { a with trace := lead ++ a.trace }

/-- The attempt as the inside of a node that began at `start`. A node that succeeded gets its
extent and belongs to its parent. One that failed gets neither, but what was taken inside it stays
in the report. -/
def framed (file : Option String) (kind : NodeKind) (start : Position) (a : Attempt) : Attempt :=
  match a.failure with
  | some _ => { a with trace := .ofNode kind a.trace false }
  | none =>
    { a with
      trace := .ofNode kind (a.trace ++ .ofNote (.location (a.tape.extent file start))) true }

/-- One attempt after the other while the look ahead says yes, at most `rounds` times. A failing
round ends the repetition with its failure. -/
def repeating (test : List Token → Bool) (body : Tape → Attempt) : Nat → Tape → Attempt
  | 0, tape => ofTaken (.nil, tape)
  | rounds + 1, tape =>
    if test tape.ahead then (body tape).andThen (repeating test body rounds)
    else ofTaken (.nil, tape)

/-- Reports a failure and skips behind it. What is skipped makes an Invalid node of its own, which
is committed like any other, so no text is lost to an error. The braces are counted from the
failure on and not from the beginning of the statement: see `Document.Blocks` for what follows
from that. -/
def recover (file : Option String) (inBlock : Bool) (f : Failure) (tape : Tape) : Attempt :=
  let skipped := tape.takeMany .invalid (Tape.skipped inBlock 0 tape.ahead)
  ((ofTaken skipped).framed file .invalid tape.place).behind
    (.ofNote (.error .statement (f.diagnostic file)))

/-- A statement, or what is skipped if it fails. Outside of placeholders this is the only place
where a failure comes to an end. -/
def recovered (file : Option String) (inBlock : Bool) (a : Attempt) : Attempt :=
  match a.failure with
  | some f => (recover file inBlock f a.tape).behind a.trace
  | none => a

/-- Statements one after the other, at most `rounds` of them, with the trivia around them. A
closing brace ends them inside a block, where the caller takes it, and is an error of its own
elsewhere. -/
def statements (file : Option String) (inBlock : Bool) (statement : Tape → Attempt) :
    Nat → Tape → Attempt
  | 0, tape => ofTaken tape.takeTrivia
  | rounds + 1, tape =>
    (ofTaken tape.takeTrivia).andThen fun tape =>
      match tape.ahead with
      | [] => ofTaken (.nil, tape)
      | t :: _ =>
        if t.kind = .mark .rightBrace then
          if inBlock then ofTaken (.nil, tape)
          else (recover file false (tape.failure .strayBrace) tape).andThen
            (statements file inBlock statement rounds)
        else (recovered file inBlock (statement tape)).andThen
          (statements file inBlock statement rounds)

end Attempt

end Heddle
