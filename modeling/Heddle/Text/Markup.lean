/-!
# Texts inside markup

Four characters mean something in HTML text and attributes and are written as entities.
-/

set_option autoImplicit false

namespace Heddle.Text.Markup

/-- How one character is written. No encoded character has a `<` in it, so a tag is never taken
for text, and each begins with a character that tells which it is, so it can be read back. -/
def encodeChar (c : Char) : List Char :=
  if c = '<' then ['&', 'l', 't', ';']
  else if c = '>' then ['&', 'g', 't', ';']
  else if c = '&' then ['&', 'a', 'm', 'p', ';']
  else if c = '\x22' then ['&', 'q', 'u', 'o', 't', ';']
  else [c]

/-- A text as it is written between tags. -/
def encode (s : String) : String :=
  String.ofList (s.toList.flatMap encodeChar)

end Heddle.Text.Markup
