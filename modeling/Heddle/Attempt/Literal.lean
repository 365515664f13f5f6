import Heddle.Attempt

/-!
# Taking tokens apart

Three constructs look inside a token. A quoted text is cut at its placeholders, a color is cut off
the text ahead by a rule of its own, and a block of another language is cut into its tags and its
content.

The placeholders of a quoted text are read in place: each is a short text of its own, from its
percent sign to the closing quote of the whole, and plain text goes on wherever the reading of the
placeholder stopped. Where the reading of a placeholder may end is up to the grammar, so it can
end before the place that the token gives for it, or go on past the next one.
-/

set_option autoImplicit false

namespace Heddle

namespace Attempt

/-- What becomes of the piece of a token between two bytes. A piece that is not there is a fault,
a note of the trace that no event shows; that no reading ever has one is proved in
`Proofs.Checked`. -/
def cut (t : Token) (start stop : Nat) (use : List Char → Trace) : Trace :=
  match t.slice? start stop with
  | some cs => use cs
  | none => .ofNote (.fault start stop)

def piece (tag : DataTag) (cs : List Char) : Trace := .ofData tag (String.ofList cs)

/-- A piece of text as data, or nothing if it is empty. -/
def pieceIfAny (tag : DataTag) (cs : List Char) : Trace :=
  if cs.isEmpty then .nil else piece tag cs

/-- Where a placeholder left the text it stands in: its report, and what the text is read on with.
-/
structure Resumption where
  trace : Trace
  /-- The byte where plain text goes on. -/
  byte : Nat
  reach : Nat

/-- Reads one placeholder of the token `t`, as a text of its own that ends before the closing
quote. A failure is reported at once and goes no further than the placeholder; what is left of it
is skipped, up to the place where the scanner saw it end. -/
def placeholder (file : Option String) (read : Tape → Attempt) (t : Token) (reach : Nat)
    (p : Placeholder) : Resumption :=
  match t.slice? p.position.byte (t.stop - 1) with
  | none => ⟨.ofNote (.fault p.position.byte (t.stop - 1)), p.stop, reach⟩
  | some cs =>
    let a := read (.ofText p.position cs reach)
    let byte := a.tape.place.byte
    match a.failure with
    | none => ⟨a.trace, byte, a.tape.reach⟩
    | some f =>
      let report := a.trace ++ .ofNote (.error .placeholder (f.diagnostic file))
      if byte < p.stop then
        ⟨report ++ cut t byte p.stop (piece .invalid), p.stop, a.tape.reach⟩
      else ⟨report, byte, a.tape.reach⟩

/-- The inside of a quoted text from the byte `start` on: the placeholders, each with the plain
text in front of it, and the plain text at the end. A placeholder that an earlier one has read
past is no placeholder any more, and its text is part of what was read. -/
def interpolated (file : Option String) (read : Bool → Tape → Attempt) (t : Token)
    (start reach : Nat) : List Placeholder → Trace
  | [] => cut t start t.stop (piece .stringChunk)
  | p :: ps =>
    if p.position.byte < start then interpolated file read t start reach ps
    else
      let r := placeholder file (read p.braced) t reach p
      cut t start p.position.byte (pieceIfAny .stringChunk) ++ r.trace ++
        interpolated file read t r.byte r.reach ps

/-- A quoted text, each placeholder read in its own way. Without placeholders the token is one
piece of data, quotes included; with them the quotes are part of the first and the last piece. -/
def quoted (file : Option String) (read : Bool → Tape → Attempt) (tape : Tape) : Attempt :=
  match tape.ahead with
  | [] => fail (tape.missing .string) tape
  | t :: ahead =>
    let after := { tape with ahead, reach := t.stop }
    match t.kind.placeholders?.getD [] with
    | [] => ofTaken (.ofData .stringChunk t.text, after)
    | ps => ofTaken (interpolated file read t t.position.byte t.stop ps, after)

/-- The digits of a color: the text ahead is read once with a preference for hexadecimal digits,
and as usual from behind the digits on. This is the only place where the tokens ahead are made
anew. -/
def hexDigits (tape : Tape) : Attempt :=
  match Token.read? true tape.place (Token.spell tape.ahead) with
  | some (t, rest) =>
    if t.kind.isHexNumber then
      ofTaken (.ofData .color t.text,
        { tape with ahead := Token.readAll t.behind rest, reach := t.stop })
    else fail (tape.missing .hexColor) tape
  | none => fail (tape.missing .hexColor) tape

/-- A block of another language: both tags in three pieces, and the content between them unless it
is empty. -/
def foreign (tape : Tape) : Attempt :=
  match tape.ahead with
  | [] => fail (tape.missing .foreignBlock) tape
  | t :: ahead =>
    match t.kind with
    | .foreign language =>
      let tag (sign : String) : Trace :=
        .ofData .punctuation sign ++ .ofData .language language ++ .ofData .punctuation ">"
      let size := language.utf8ByteSize
      let content := cut t (t.position.byte + (size + 2)) (t.stop - (size + 3))
        (pieceIfAny .foreignContent)
      ofTaken (tag "<" ++ content ++ tag "</", { tape with ahead, reach := t.stop })
    | _ => fail (tape.missing .foreignBlock) tape

end Attempt

end Heddle
