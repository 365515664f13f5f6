import Heddle.Trace
import Heddle.Failure
import Heddle.Token.Stream

/-!
# What is still to be read

A tape is the list of tokens ahead, together with the place where they end and the end of the last
significant token that was taken. Taking a token turns it into a piece of data.

The tape is all a reading knows of its source: neither the text already taken nor the cursor that
reads it is in it. `Proofs.Checked` relates it to the cursor, one operation at a time, and
`Tape.Lexed` in `Proofs.Tape.Lexed` says when the tokens ahead are those of a text.
-/

set_option autoImplicit false

namespace Heddle

/-- The rest of a text, cut into tokens. The end of the text is kept beside the tokens because a
failure at the end has a place, too. -/
structure Tape where
  ahead : List Token
  /-- The place behind the last token. -/
  stop : Position
  /-- The byte behind the last significant token taken so far. -/
  reach : Nat

/-- The role of a token taken as `tag`: blanks and comments stay what they are, but a blank may be
a combinator. -/
def TokenKind.role (tag : DataTag) : TokenKind → DataTag
  | .blank => if tag = .combinator then .combinator else .whitespace
  | .lineComment | .blockComment => .comment
  | _ => tag

namespace Tape

/-- A text that begins at `start`. -/
def ofText (start : Position) (cs : List Char) (reach : Nat) : Tape :=
  ⟨Token.readAll start cs, start.past cs, reach⟩

/-- The place of the next token. -/
def place (tape : Tape) : Position :=
  match tape.ahead with
  | t :: _ => t.position
  | [] => tape.stop

/-- How many bytes are still to be read. No repetition goes on for longer, which makes this the
number of rounds that every loop is given. -/
def size (tape : Tape) : Nat :=
  tape.ahead.foldr (fun t n => t.text.utf8ByteSize + n) 0

/-- Takes the next token in a role; at the end there is nothing to take. Trivia leaves `reach`
where it was, so that a construct never extends over the blanks and comments behind it. -/
def take (tag : DataTag) (tape : Tape) : Trace × Tape :=
  match tape.ahead with
  | [] => (.nil, tape)
  | t :: ahead =>
    let role := t.kind.role tag
    let reach := if role.isTrivia then tape.reach else t.stop
    (.ofData role t.text, { tape with ahead, reach })

def takeMany (tag : DataTag) : Nat → Tape → Trace × Tape
  | 0, tape => (.nil, tape)
  | n + 1, tape =>
    let (first, tape) := tape.take tag
    let (others, tape) := takeMany tag n tape
    (first ++ others, tape)

/-- Takes the trivia in front of the next significant token. -/
def takeTrivia (tape : Tape) : Trace × Tape :=
  tape.takeMany .whitespace (tape.ahead.takeWhile (·.kind.isTrivia)).length

/-- The extent of a construct that began at `start` and ends here: up to the last significant
token taken, which may lie before the start if the construct took none. -/
def extent (file : Option String) (start : Position) (tape : Tape) : Location :=
  ⟨file, start.line, start.column, start.byte, tape.reach - start.byte⟩

def failure (cause : Cause) (tape : Tape) : Failure :=
  ⟨cause, tape.place⟩

/-- The failure to find something here. It names the text of the next token, which is why every
reading of `expected` is written with it. -/
def missing (wanted : Wanted) (tape : Tape) : Failure :=
  tape.failure (.expected wanted (tape.ahead.head?.map (·.text)))

/-- How many tokens are skipped behind an error, `depth` braces being open: through the next
semicolon outside of braces, or through the brace that closes the first one opened. A brace that
closes none of them is skipped as well, unless it ends the block that the reader is in. -/
def skipped (inBlock : Bool) : Nat → List Token → Nat
  | _, [] => 0
  | depth, t :: ts =>
    if t.kind = .mark .rightBrace then
      match depth with
      | 0 => if inBlock then 0 else 1
      | 1 => 1
      | depth + 2 => skipped inBlock (depth + 1) ts + 1
    else if t.kind = .mark .leftBrace then skipped inBlock (depth + 1) ts + 1
    else if t.kind = .mark .semicolon && depth == 0 then 1
    else skipped inBlock depth ts + 1

end Tape

end Heddle
