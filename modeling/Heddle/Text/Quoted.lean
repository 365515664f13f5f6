import Heddle.Text.Extending
import Heddle.Text.Unprintable

/-!
# Texts between quotes

A quoted text fits on one line and shows every character: the quote, the backslash and the usual
controls are written with a backslash, and a character that has no printed form, or that would
attach itself to its neighbour, is written by its code point. The single quote needs no escape.
-/

set_option autoImplicit false

namespace Heddle.Text.Quoted

/-- Whether a character can stand for itself (apart from the quote and the backslash). The ASCII
half of the rule needs no table. -/
def isPlain (c : Char) : Bool :=
  let n := c.toNat
  if n < 0x7F then 0x20 ≤ n else !attaches n && !isInvisible n

/-- The code point in hexadecimal, in lower case and without leading zeros. -/
def byCodePoint (c : Char) : List Char :=
  '\\' :: 'u' :: '\x7b' :: Nat.toDigits 16 c.toNat ++ ['\x7d']

/-- How one character is written. -/
def encodeChar (c : Char) : List Char :=
  if c = '\x00' then ['\\', '0']
  else if c = '\t' then ['\\', 't']
  else if c = '\r' then ['\\', 'r']
  else if c = '\n' then ['\\', 'n']
  else if c = '\x22' then ['\\', '\x22']
  else if c = '\\' then ['\\', '\\']
  else if isPlain c then [c]
  else byCodePoint c

/-- A text between quotes. `Proofs.Text.Quoted` proves that it can be read back and that it never
holds a line break, which is what dumps rely on. -/
def encode (s : String) : String :=
  String.ofList ('\x22' :: s.toList.flatMap encodeChar ++ ['\x22'])

end Heddle.Text.Quoted
