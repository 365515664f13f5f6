import Heddle.Text.Alphabetic
import Heddle.Text.Numeric

/-!
# Character classes

The classes that decide where a token begins and ends. Blanks, letters and word characters are
the Unicode ones; digits, hexadecimal digits and the letters of a language name are ASCII.
The ASCII half of each Unicode class is a rule and not a table, so that facts about plain texts
need no table at all.
-/

set_option autoImplicit false

namespace Heddle.Text

/-- The Unicode property White_Space. -/
def isBlank (c : Char) : Bool :=
  let n := c.toNat
  (9 ≤ n && n ≤ 13) || n == 0x20 || n == 0x85 || n == 0xA0 || n == 0x1680 ||
    (0x2000 ≤ n && n ≤ 0x200A) || n == 0x2028 || n == 0x2029 || n == 0x202F ||
    n == 0x205F || n == 0x3000

/-- The Unicode property Alphabetic. -/
def isLetter (c : Char) : Bool :=
  if c.toNat < 0x80 then c.isAlpha else alphabetic.has c.toNat

/-- A letter, or a number of any script. Below the code point 128 it is a rule, as `isLetter` is,
and the tables are not looked at. -/
def isLetterOrNumber (c : Char) : Bool :=
  if c.toNat < 0x80 then c.isAlphanum else alphabetic.has c.toNat || numeric.has c.toNat

/-- What a name may begin with: a letter or an underscore. -/
def isNameStart (c : Char) : Bool :=
  isLetter c || c == '_'

/-- What a name may go on with: a letter, a number or an underscore. -/
def isWord (c : Char) : Bool :=
  isLetterOrNumber c || c == '_'

/-- An ASCII decimal digit. -/
def isDigit (c : Char) : Bool :=
  c.isDigit

/-- An ASCII hexadecimal digit, of either case. -/
def isHexDigit (c : Char) : Bool :=
  c.isDigit || ('a' ≤ c && c ≤ 'f') || ('A' ≤ c && c ≤ 'F')

/-- An ASCII letter: what the name of an embedded language is made of. -/
def isAsciiLetter (c : Char) : Bool :=
  c.isAlpha

/-- Every letter is a word character. -/
theorem isWord_of_isLetter {c : Char} (h : isLetter c = true) : isWord c = true := by
  unfold isLetter at h
  unfold isWord isLetterOrNumber
  split at h <;> simp_all [Char.isAlphanum]

/-- Every decimal digit is a word character. -/
theorem isWord_of_isDigit {c : Char} (h : isDigit c = true) : isWord c = true := by
  have ascii : c.toNat < 0x80 := by
    simp only [isDigit, Char.isDigit, Bool.and_eq_true, decide_eq_true_eq] at h
    have := UInt32.le_iff_toNat_le.1 h.2
    simp only [Char.toNat]
    exact Nat.lt_of_le_of_lt this (by decide)
  simp only [isDigit] at h
  simp [isWord, isLetterOrNumber, ascii, Char.isAlphanum, h]

/-- A name goes on with whatever it may begin with. -/
theorem isWord_of_isNameStart {c : Char} (h : isNameStart c = true) : isWord c = true := by
  simp only [isNameStart, Bool.or_eq_true] at h
  rcases h with h | h
  · exact isWord_of_isLetter h
  · simp [isWord, h]

end Heddle.Text
