import Heddle.Token.Stream

/-!
# A cursor over a source

A cursor reads the tokens of a source one at a time. It can look ahead and give the looking back
in one step, take back the last token, jump to another place, stop at a limit, and read with a
preference for hexadecimal digits. Two uses are refused while a look ahead is pending, and a jump
is refused when it would land inside a character; a refused use changes nothing.

The grammar reads from a tape of finished tokens, so this cursor is not what `Phrase.read` is
written with. It is the interface that other programs have, and the machine below which the
reading works: `Proofs.Cursor` relates it to the list of tokens of the source, `Proofs.Checked`
runs the grammar on it.
-/

set_option autoImplicit false

namespace Heddle

/-- The state of a reading. The source stays whole in it, and everything else is a place, so no
use of a cursor can lose text; it can only stand somewhere else. -/
structure Cursor where
  source : List Char
  place : Position
  /-- The place before the last token taken, while it can still be taken back. -/
  previous : Option Position := none
  /-- The place where the pending look ahead began. -/
  origin : Option Position := none
  /-- The byte at which reading stops. -/
  limit : Option Nat := none
  preferHex : Bool := false

/-- A use of a cursor that is refused. A caller that never sees one has used it as its
documentation asks. -/
inductive Misuse where
  | takeWhileLooking
  | seekWhileLooking
  | seekOffBoundary
deriving DecidableEq, Repr

def Misuse.message : Misuse → String
  | .takeWhileLooking => "next_token called during a pending peek session"
  | .seekWhileLooking => "seek called during a pending peek session"
  | .seekOffBoundary => "assertion failed: self.input.is_char_boundary(position.byte_index)"

namespace Cursor

/-- A cursor before the first token of a source. -/
def ofSource (source : String) : Cursor :=
  { source := source.toList, place := (openSource source).1 }

/-- The byte where reading ends: the limit, but never behind the source. A limit may lie before
the cursor, which is then at its end. -/
def bound (c : Cursor) : Nat :=
  let size := Text.byteSize c.source
  match c.limit with
  | some n => min n size
  | none => size

/-- Whether the cursor stands at the bound or behind it. A limit inside a character stops the
reading earlier, where no token can be read and this still says no. -/
def isAtEnd (c : Cursor) : Bool :=
  c.bound ≤ c.place.byte

/-- Whether a look ahead is pending. -/
def isLooking (c : Cursor) : Bool :=
  c.origin.isSome

/-- The text that can be read from here. There is none when the limit lies before the cursor or
inside a character. -/
def readable (c : Cursor) : List Char :=
  (Text.slice? c.place.byte c.bound c.source).getD []

/-- Moves behind the next token, whatever it is. Takes and looks are both made of it, and differ
only in which earlier place they remember. -/
def step (c : Cursor) : Option Token × Cursor :=
  match Token.read? c.preferHex c.place c.readable with
  | some (t, _) => (some t, { c with place := t.behind })
  | none => (none, c)

/-- Takes the next token. -/
def take (c : Cursor) : Except Misuse (Option Token × Cursor) :=
  if c.isLooking then .error .takeWhileLooking
  else
    match c.step with
    | (some t, after) => .ok (some t, { after with previous := some c.place })
    | (none, after) => .ok (none, after)

/-- Begins a look ahead, unless one is pending. -/
def beginLook (c : Cursor) : Cursor :=
  { c with origin := some (c.origin.getD c.place) }

/-- Looks at the next token; another look goes one token further. Only `release` gives the looks
back, all of them at once. -/
def look (c : Cursor) : Option Token × Cursor :=
  c.beginLook.step

/-- The first token of a text that is not trivia, and the place behind what was passed. -/
def significant (preferHex : Bool) (position : Position) :
    List Char → Option Token × Position
  | [] => (none, position)
  | c :: cs =>
    let l := Lexeme.scan preferHex position c cs
    let behind := position.past l.text
    if l.kind.isTrivia then significant preferHex behind l.rest
    else (some (l.token position), behind)
termination_by cs => cs.length
decreasing_by exact Lexeme.length_rest_scan_lt preferHex position c cs

/-- Looks past trivia at the first token behind it. -/
def lookSignificant (c : Cursor) : Option Token × Cursor :=
  let (token, place) := significant c.preferHex c.place c.readable
  (token, { c.beginLook with place })

/-- Gives back every look since the last token was taken. -/
def release (c : Cursor) : Cursor :=
  match c.origin with
  | some place => { c with place, origin := none }
  | none => c

/-- Takes back the last token taken. Only one can be taken back, and none while a look ahead is
pending; the answer says whether one was. -/
def undo (c : Cursor) : Bool × Cursor :=
  match c.origin, c.previous with
  | none, some place => (true, { c with place, previous := none })
  | _, _ => (false, c)

/-- Jumps to another place of the source. Only its byte is looked at: a caller that makes up a
line and a column gets tokens placed by them. -/
def seek (c : Cursor) (place : Position) : Except Misuse Cursor :=
  if c.isLooking then .error .seekWhileLooking
  else if (Text.dropBytes? place.byte c.source).isNone then .error .seekOffBoundary
  else .ok { c with place, previous := none }

/-- The text between two bytes of the source; empty when they do not cut out a text. -/
def slice (c : Cursor) (start stop : Nat) : String :=
  String.ofList ((Text.slice? start stop c.source).getD [])

end Cursor

end Heddle
