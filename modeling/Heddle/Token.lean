import Heddle.Position

/-!
# Tokens

A source is a sequence of tokens: marks, words, literals and the trivia between them. A token
keeps its exact text, so a list of tokens can always be put together again; what its kind says
beyond the text is where the placeholders of a quoted text are and which language an embedded
block is in.
-/

set_option autoImplicit false

namespace Heddle

/-- Punctuation and operators: the tokens whose kind fixes their text. That is what lets a source
be spelled from a list of kinds wherever marks are concerned. -/
inductive Mark where
  | leftBrace | rightBrace | leftParen | rightParen | leftBracket | rightBracket
  | colon | semicolon | comma | dot | doubleDot | ellipsis
  | equals | equalEqual | notEqual | less | lessEqual | greater | greaterEqual
  | fatArrow | arrow | plus | minus | star | slash | percent
  | bang | question | ampersand | andAnd | pipe | orOr | caret | tilde | hash
  | atSign | dollar
deriving DecidableEq, Repr

def Mark.spelling : Mark → String
  | .leftBrace => "\x7b" | .rightBrace => "\x7d"
  | .leftParen => "(" | .rightParen => ")"
  | .leftBracket => "[" | .rightBracket => "]"
  | .colon => ":" | .semicolon => ";" | .comma => ","
  | .dot => "." | .doubleDot => ".." | .ellipsis => "..."
  | .equals => "=" | .equalEqual => "==" | .notEqual => "!="
  | .less => "<" | .lessEqual => "<=" | .greater => ">" | .greaterEqual => ">="
  | .fatArrow => "=>" | .arrow => "->"
  | .plus => "+" | .minus => "-" | .star => "*" | .slash => "/" | .percent => "%"
  | .bang => "!" | .question => "?" | .ampersand => "&" | .andAnd => "&&"
  | .pipe => "|" | .orOr => "||" | .caret => "^" | .tilde => "~" | .hash => "#"
  | .atSign => "@" | .dollar => "$"

/-- The three ways to write a number. -/
inductive NumberForm where
  | integer | fraction | percentage
deriving DecidableEq, Repr

/-- Which quote delimits a quoted text. -/
inductive QuoteStyle where
  | double | single
deriving DecidableEq, Repr

/-- The quote itself. -/
def QuoteStyle.mark : QuoteStyle → Char
  | .double => '\x22'
  | .single => '\x27'

/-- An expression embedded in a quoted text: `%name`, or `%` and an expression in braces. The
scanner only says where it stands; what is in it is read by the grammar, which may see its end
elsewhere. -/
structure Placeholder where
  /-- The place of the percent sign. -/
  position : Position
  /-- The byte just behind the placeholder. -/
  stop : Nat
  braced : Bool
deriving DecidableEq, Repr

/-- What a token is. -/
inductive TokenKind where
  | mark (m : Mark)
  /-- A run of blanks, line breaks included. -/
  | blank
  /-- A name or a keyword. -/
  | word
  | number (form : NumberForm)
  | hexNumber (form : NumberForm)
  /-- A text between quotes, with its placeholders in order. -/
  | quoted (style : QuoteStyle) (placeholders : List Placeholder)
  /-- A text between back quotes, in which nothing is special. -/
  | rawText
  | lineComment
  | blockComment
  /-- A block of another language between its own opening and closing tags. -/
  | foreign (language : String)
  /-- A character that begins nothing, or a literal that does not end. -/
  | invalid
deriving DecidableEq, Repr

namespace TokenKind

/-- Blanks and comments: what may stand between any two tokens. -/
def isTrivia : TokenKind → Bool
  | blank | lineComment | blockComment => true
  | _ => false

/-- Decimal and hexadecimal numbers of every form. -/
def isNumber : TokenKind → Bool
  | number _ | hexNumber _ => true
  | _ => false

def isHexNumber : TokenKind → Bool
  | hexNumber _ => true
  | _ => false

def isMark : TokenKind → Bool
  | mark _ => true
  | _ => false

/-- The placeholders of a quoted text; `none` for every other token. -/
def placeholders? : TokenKind → Option (List Placeholder)
  | quoted _ ps => some ps
  | _ => none

end TokenKind

/-- A token with its exact text and the place of its first character. -/
structure Token where
  kind : TokenKind
  text : String
  position : Position
deriving DecidableEq, Repr

namespace Token

def chars (t : Token) : List Char := t.text.toList

/-- The byte just behind the token. -/
def stop (t : Token) : Nat := t.position.byte + t.text.utf8ByteSize

/-- The place just behind the token. -/
def behind (t : Token) : Position := t.position.past t.chars

/-- The text of the token from the byte `start` of the source up to the byte `stop`, if both lie
on boundaries inside the token and in this order. All cutting inside of tokens goes through here.
-/
def slice? (t : Token) (start stop : Nat) : Option (List Char) :=
  let first := t.position.byte
  if first ≤ start then Text.slice? (start - first) (stop - first) t.chars else none

/-- Whether the token is the given word. -/
def isWord (t : Token) (word : String) : Bool := t.kind == .word && t.text == word

end Token

end Heddle
