import Heddle.Token
import Heddle.Text.Class

/-!
# The first token of a text

`Lexeme.scan` cuts the first token off a text. Each kind of token has its own small reader, which
answers with the characters it took and the characters it left; so nothing can be lost between
two tokens, and where a reader refuses (a literal that does not end) everything up to the end of
the text becomes one invalid token.

Numbers can be read in two ways. Usually a run of letters and digits is a number when it begins
with a decimal digit and a word otherwise; behind the sign of a color hexadecimal digits come
first, and only a run that goes on with another letter is read in the usual way after all.
-/

set_option autoImplicit false

namespace Heddle

open Text

/-- A token without its place: its kind, its characters, and the characters behind it. That
nothing is lost is then the one equation `text ++ rest = cs` about every reader of this module
(`Lexeme.Cuts`). -/
structure Lexeme where
  kind : TokenKind
  text : List Char
  rest : List Char

namespace Lexeme

/-! ## Words and numbers -/

/-- The longest run of one class, and what follows it. -/
def run (kind : TokenKind) (member : Char → Bool) (cs : List Char) : Lexeme :=
  ⟨kind, cs.takeWhile member, cs.dropWhile member⟩

/-- A point with the digits behind it, if at least one digit follows the point. -/
def fraction (digit : Char → Bool) : List Char → List Char × List Char
  | '.' :: d :: cs =>
    if digit d then ('.' :: (d :: cs).takeWhile digit, (d :: cs).dropWhile digit)
    else ([], '.' :: d :: cs)
  | cs => ([], cs)

/-- Digits, an optional fraction and an optional percent sign: the form follows from which of the
two are there. -/
def numeral (kind : NumberForm → TokenKind) (digit : Char → Bool) (cs : List Char) : Lexeme :=
  let whole := cs.takeWhile digit
  let (part, rest) := fraction digit (cs.dropWhile digit)
  match rest with
  | '%' :: rest => ⟨kind .percentage, whole ++ part ++ ['%'], rest⟩
  | rest => ⟨kind (if part.isEmpty then .integer else .fraction), whole ++ part, rest⟩

/-- The sign of a hexadecimal number, if the text begins with one and a digit follows it. -/
def hexSign? : List Char → Option (List Char × List Char)
  | '0' :: x :: d :: cs =>
    if (x == 'x' || x == 'X') && isHexDigit d then some (['0', x], d :: cs) else none
  | _ => none

/-- A number that begins with a decimal digit. -/
def number (cs : List Char) : Lexeme :=
  match hexSign? cs with
  | some (sign, digits) =>
    ⟨.hexNumber .integer, sign ++ digits.takeWhile isHexDigit, digits.dropWhile isHexDigit⟩
  | none => numeral .number isDigit cs

/-- A name or a keyword. -/
def word (cs : List Char) : Lexeme :=
  run .word isWord cs

/-- A run read with a preference for hexadecimal digits. A word character right behind the digits
(and their fraction) refuses the reading, and the run is a number or a word as usual. A percent
sign belongs to the number here, too: see `Document.Colors`. -/
def hexRun (cs : List Char) : Lexeme :=
  let (_, rest) := fraction isHexDigit (cs.dropWhile isHexDigit)
  if rest.head?.any isWord then
    if cs.head?.any isDigit then number cs else word cs
  else numeral .hexNumber isHexDigit cs

/-! ## Quoted texts -/

/-- The inside of a braced placeholder from behind its opening brace, `depth` braces further in:
up to and with the brace that closes it. It ends early before the quote that delimits the text,
which no placeholder reaches past. A backslash hides the character behind it, a quote and a brace
included. -/
def braced (quote : Char) : Nat → List Char → List Char × List Char
  | _, [] => ([], [])
  | _, ['\\'] => (['\\'], [])
  | depth, '\\' :: c :: cs =>
    let (inside, rest) := braced quote depth cs
    ('\\' :: c :: inside, rest)
  | depth, c :: cs =>
    if c = '\x7b' then
      let (inside, rest) := braced quote (depth + 1) cs
      (c :: inside, rest)
    else if c = '\x7d' then
      match depth with
      | 0 => ([c], cs)
      | depth + 1 =>
        let (inside, rest) := braced quote depth cs
        (c :: inside, rest)
    else if c = quote then ([], c :: cs)
    else
      let (inside, rest) := braced quote depth cs
      (c :: inside, rest)

/-- The rest of a dotted name: word characters, and each point that another name follows. -/
def dotted : List Char → List Char × List Char
  | [] => ([], [])
  | c :: cs =>
    if isWord c || (c == '.' && cs.head?.any isNameStart) then
      let (name, rest) := dotted cs
      (c :: name, rest)
    else ([], c :: cs)

/-- What stands at a percent sign inside a quoted text. -/
structure AtPercent where
  /-- The characters taken, the percent sign with them. -/
  taken : List Char
  left : List Char
  /-- Whether a placeholder was taken, and then whether a braced one. -/
  placeholder : Option Bool

/-- Reads on from behind a percent sign. A second percent sign belongs to the first, a brace or
the beginning of a name makes a placeholder, and before all else the sign stands for itself. -/
def percent (quote : Char) : List Char → AtPercent
  | '%' :: cs => ⟨['%', '%'], cs, none⟩
  | '\x7b' :: cs =>
    let (inside, rest) := braced quote 0 cs
    ⟨'%' :: '\x7b' :: inside, rest, some true⟩
  | c :: cs =>
    if isNameStart c then
      let (name, rest) := dotted (c :: cs)
      ⟨'%' :: name, rest, some false⟩
    else ⟨['%'], c :: cs, none⟩
  | [] => ⟨['%'], [], none⟩

theorem braced_append (quote : Char) (depth : Nat) (cs : List Char) :
    (braced quote depth cs).1 ++ (braced quote depth cs).2 = cs := by
  fun_induction braced quote depth cs <;> simp_all

theorem dotted_append (cs : List Char) : (dotted cs).1 ++ (dotted cs).2 = cs := by
  fun_induction dotted cs <;> simp_all

/-- Nothing is lost at a percent sign. -/
theorem percent_append (quote : Char) (cs : List Char) :
    (percent quote cs).taken ++ (percent quote cs).left = '%' :: cs := by
  unfold percent
  split
  · simp
  · simp [braced_append]
  · split <;> simp [dotted_append]
  · simp

theorem taken_percent_ne_nil (quote : Char) (cs : List Char) :
    (percent quote cs).taken ≠ [] := by
  unfold percent
  split
  · simp
  · simp
  · split <;> simp
  · simp

/-- What is left behind a percent sign is not longer than what stood there. -/
theorem length_left_percent_le (quote : Char) (cs : List Char) :
    (percent quote cs).left.length ≤ cs.length := by
  have h := congrArg List.length (percent_append quote cs)
  have := List.length_pos_iff.mpr (taken_percent_ne_nil quote cs)
  simp only [List.length_append, List.length_cons] at h
  omega

/-- The inside of a quoted text from `position` on: its placeholders, its characters with the
closing quote, and what follows. `none` when no quote closes it. A backslash hides the character
behind it. The position is threaded through because placeholders carry their place. -/
def quotedBody? (quote : Char) (position : Position) :
    List Char → Option (List Placeholder × List Char × List Char)
  | [] => none
  | ['\\'] => none
  | '\\' :: c :: cs =>
    (quotedBody? quote ((position.after '\\').after c) cs).map fun (ps, text, rest) =>
      (ps, '\\' :: c :: text, rest)
  | '%' :: cs =>
    let sign := percent quote cs
    let behind := position.past sign.taken
    (quotedBody? quote behind sign.left).map fun (ps, text, rest) =>
      let found := sign.placeholder.map fun isBraced => ⟨position, behind.byte, isBraced⟩
      (found.toList ++ ps, sign.taken ++ text, rest)
  | c :: cs =>
    if c = quote then some ([], [c], cs)
    else (quotedBody? quote (position.after c) cs).map fun (ps, text, rest) => (ps, c :: text, rest)
termination_by cs => cs.length
decreasing_by
  · simp only [List.length_cons]; omega
  · exact Nat.lt_succ_of_le (length_left_percent_le _ _)
  · simp

/-! ## Comments, raw texts and embedded blocks -/

/-- The rest of a block comment, from behind its opening. -/
def commentBody? : List Char → Option (List Char × List Char)
  | [] => none
  | '*' :: '/' :: cs => some (['*', '/'], cs)
  | c :: cs => (commentBody? cs).map fun (text, rest) => (c :: text, rest)

/-- The rest of a raw text, from behind its opening back quote. -/
def rawBody? : List Char → Option (List Char × List Char)
  | [] => none
  | c :: cs =>
    if c = '\x60' then some ([c], cs)
    else (rawBody? cs).map fun (text, rest) => (c :: text, rest)

/-- The text up to the first occurrence of `tag`, the tag itself, and what follows it. -/
def throughTag? (tag : List Char) : List Char → Option (List Char × List Char)
  | [] => if tag.isEmpty then some ([], []) else none
  | c :: cs =>
    if tag.isPrefixOf (c :: cs) then some (tag, (c :: cs).drop tag.length)
    else (throughTag? tag cs).map fun (text, rest) => (c :: text, rest)

/-- An embedded block, from behind the `<` of its opening tag: a language name of ASCII letters,
then anything up to the first closing tag of that name. Blocks of one language do not nest, and
what looks like an opening tag without a closing one is a comparison. -/
def foreign? (cs : List Char) : Option Lexeme :=
  let name := cs.takeWhile isAsciiLetter
  match name.isEmpty, cs.dropWhile isAsciiLetter with
  | false, '>' :: body =>
    (throughTag? ('<' :: '/' :: name ++ ['>']) body).map fun (text, rest) =>
      ⟨.foreign (String.ofList name), '<' :: name ++ '>' :: text, rest⟩
  | _, _ => none

/-! ## Marks -/

/-- The marks of two characters that no longer rule covers. -/
def pairMark? : Char → Char → Option Mark
  | '=', '>' => some .fatArrow
  | '=', '=' => some .equalEqual
  | '-', '>' => some .arrow
  | '!', '=' => some .notEqual
  | '>', '=' => some .greaterEqual
  | '&', '&' => some .andAnd
  | '|', '|' => some .orOr
  | _, _ => none

/-- The marks of one character that no longer rule covers. -/
def singleMark? : Char → Option Mark
  | '\x7b' => some .leftBrace
  | '\x7d' => some .rightBrace
  | '(' => some .leftParen
  | ')' => some .rightParen
  | '[' => some .leftBracket
  | ']' => some .rightBracket
  | ':' => some .colon
  | ';' => some .semicolon
  | ',' => some .comma
  | '=' => some .equals
  | '>' => some .greater
  | '+' => some .plus
  | '-' => some .minus
  | '*' => some .star
  | '%' => some .percent
  | '!' => some .bang
  | '?' => some .question
  | '&' => some .ampersand
  | '|' => some .pipe
  | '^' => some .caret
  | '~' => some .tilde
  | '#' => some .hash
  | '@' => some .atSign
  | '$' => some .dollar
  | _ => none

/-- A token of one character. -/
def single (c : Char) (cs : List Char) : Lexeme :=
  ⟨((singleMark? c).map TokenKind.mark).getD .invalid, [c], cs⟩

/-- A mark, the longer reading first; a character that begins nothing is invalid. -/
def operator (c : Char) : List Char → Lexeme
  | [] => single c []
  | d :: cs =>
    match pairMark? c d with
    | some m => ⟨.mark m, [c, d], cs⟩
    | none => single c (d :: cs)

/-- One to three points, from behind the first. -/
def points : List Char → Lexeme
  | '.' :: '.' :: cs => ⟨.mark .ellipsis, ['.', '.', '.'], cs⟩
  | '.' :: cs => ⟨.mark .doubleDot, ['.', '.'], cs⟩
  | cs => ⟨.mark .dot, ['.'], cs⟩

/-- What a slash begins, from behind it: a comment or the mark. -/
def slash : List Char → Lexeme
  | '/' :: cs =>
    let (text, rest) := (cs.takeWhile (· != '\n'), cs.dropWhile (· != '\n'))
    ⟨.lineComment, '/' :: '/' :: text, rest⟩
  | '*' :: cs =>
    match commentBody? cs with
    | some (text, rest) => ⟨.blockComment, '/' :: '*' :: text, rest⟩
    | none => ⟨.invalid, '/' :: '*' :: cs, []⟩
  | cs => ⟨.mark .slash, ['/'], cs⟩

/-- What a `<` begins, from behind it: an embedded block or a comparison. -/
def angle (cs : List Char) : Lexeme :=
  match foreign? cs with
  | some block => block
  | none =>
    match cs with
    | '=' :: cs => ⟨.mark .lessEqual, ['<', '='], cs⟩
    | cs => ⟨.mark .less, ['<'], cs⟩

/-- A quoted text, from behind its opening quote; `position` is the place of that quote. -/
def quoted (style : QuoteStyle) (position : Position) (cs : List Char) : Lexeme :=
  match quotedBody? style.mark (position.after style.mark) cs with
  | some (ps, text, rest) => ⟨.quoted style ps, style.mark :: text, rest⟩
  | none => ⟨.invalid, style.mark :: cs, []⟩

/-- A raw text, from behind its opening back quote. -/
def raw (cs : List Char) : Lexeme :=
  match rawBody? cs with
  | some (text, rest) => ⟨.rawText, '\x60' :: text, rest⟩
  | none => ⟨.invalid, '\x60' :: cs, []⟩

/-- The token that the character `c` begins. `preferHex` asks for hexadecimal digits first. The
first character decides which of the readers above takes over, in the order of the tests. -/
def scan (preferHex : Bool) (position : Position) (c : Char) (cs : List Char) : Lexeme :=
  if isBlank c then run .blank isBlank (c :: cs)
  else if isNameStart c then
    if preferHex && c != '_' then hexRun (c :: cs) else word (c :: cs)
  else if isDigit c then
    if preferHex then hexRun (c :: cs) else number (c :: cs)
  else if c = '\x22' then quoted .double position cs
  else if c = '\x27' then quoted .single position cs
  else if c = '\x60' then raw cs
  else if c = '/' then slash cs
  else if c = '<' then angle cs
  else if c = '.' then points cs
  else operator c cs

end Lexeme

end Heddle
