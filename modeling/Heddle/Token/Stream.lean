import Heddle.Token.Lossless

/-!
# The tokens of a source

Reading never fails, so a source has exactly one list of tokens, trivia included, and the list
spells the source. A byte order mark at the very beginning is no part of it: it moves the byte
count but neither the line nor the column.
-/

set_option autoImplicit false

namespace Heddle

namespace Lexeme

/-- The lexeme as a token at its place. -/
def token (l : Lexeme) (position : Position) : Token :=
  ⟨l.kind, String.ofList l.text, position⟩

@[simp] theorem chars_token (l : Lexeme) (position : Position) :
    (l.token position).chars = l.text := by
  simp [token, Token.chars]

/-- What is left behind a token is shorter than the text in front of it. Every recursion over
tokens ends by this fact. -/
theorem length_rest_scan_lt (preferHex : Bool) (position : Position) (c : Char) (cs : List Char) :
    (scan preferHex position c cs).rest.length < (c :: cs).length := by
  have all := congrArg List.length (cuts_scan preferHex position c cs)
  have taken := List.length_pos_iff.mpr (text_scan_ne_nil preferHex position c cs)
  simp only [List.length_append] at all
  omega

end Lexeme

namespace Token

/-- The first token of a text that begins at `position`, and the text behind it. -/
def read? (preferHex : Bool) (position : Position) : List Char → Option (Token × List Char)
  | [] => none
  | c :: cs =>
    let l := Lexeme.scan preferHex position c cs
    some (l.token position, l.rest)

/-- All tokens of a text that begins at `position`. The recursion is on the length of the text,
since a token may have any length but zero. -/
def readAll (position : Position) : List Char → List Token
  | [] => []
  | c :: cs =>
    let l := Lexeme.scan false position c cs
    l.token position :: readAll (position.past l.text) l.rest
termination_by cs => cs.length
decreasing_by exact Lexeme.length_rest_scan_lt false position c cs

def spell (ts : List Token) : List Char :=
  ts.flatMap chars

@[simp] theorem spell_nil : spell [] = [] := rfl

@[simp] theorem spell_cons (t : Token) (ts : List Token) :
    spell (t :: ts) = t.chars ++ spell ts := rfl

@[simp] theorem spell_append (xs ys : List Token) : spell (xs ++ ys) = spell xs ++ spell ys := by
  simp [spell]

/-- The tokens of a text spell it. -/
theorem spell_readAll (position : Position) (cs : List Char) :
    spell (readAll position cs) = cs := by
  fun_induction readAll position cs with
  | case1 => rfl
  | case2 position c cs l ih =>
    rw [spell_cons, ih, Lexeme.chars_token]
    exact Lexeme.cuts_scan false position c cs

end Token

/-- Where a source begins: its first place, and its text without a leading byte order mark. Only
the byte count knows of the mark, so lines and columns are those of the text people see. -/
def openSource (source : String) : Position × List Char :=
  match source.toList with
  | '\uFEFF' :: cs => (⟨1, 1, 3⟩, cs)
  | cs => (.origin, cs)

/-- The tokens of a source, trivia included. -/
def tokenize (source : String) : List Token :=
  let (position, cs) := openSource source
  Token.readAll position cs

end Heddle
