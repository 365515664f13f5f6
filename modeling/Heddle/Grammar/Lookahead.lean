import Heddle.Token

/-!
# Looking ahead

Where the grammar has a choice, a look at the tokens that follow decides it, however far it has to
go. A look reads nothing: it is a predicate on the list of tokens ahead.

Two statements can begin with the same tokens for any length, so two looks are unbounded: whether
a statement is an assignment (`isAssignment`) and what it reaches first (`reachesFirst`).

Every look is a plain recursion over the tokens with the few numbers or states it keeps as
arguments. The proofs about looks (`Proofs.Grammar`) follow these recursions: what a look does
when tokens are appended, exchanged or cut off is proved by induction on the list, for every state
at once.
-/

set_option autoImplicit false

namespace Heddle

/-- A question about the tokens ahead. It is any function of the list; what the looks of this
grammar have in common is stated where it is needed, in `Proofs.Grammar`. -/
abbrev Lookahead := List Token → Bool

namespace Token

/-- Whether the token is the given mark. -/
def isMark (m : Mark) (t : Token) : Bool := t.kind == .mark m

def isTrivia (t : Token) : Bool := t.kind.isTrivia

/-- A name or a keyword. -/
def isName (t : Token) : Bool := t.kind == .word

/-- A text between quotes of either style. -/
def isQuoted (t : Token) : Bool := t.kind.placeholders?.isSome

def isRawText (t : Token) : Bool := t.kind == .rawText

def isForeign (t : Token) : Bool :=
  match t.kind with
  | .foreign _ => true
  | _ => false

/-- The words that name an object behind an `@`. -/
def objectWords : List String :=
  ["this", "self", "parent", "root", "event", "key", "value"]

def isObjectWord (t : Token) : Bool := t.isName && objectWords.contains t.text

/-- The words that go on with a statement, so that none begins an argument. -/
def continuationWords : List String :=
  ["in", "else", "case", "default", "finally"]

/-- Whether the token can begin an argument that follows a name without parentheses. -/
def beginsArgument (t : Token) : Bool :=
  !t.kind.isMark && t.kind != .invalid && !continuationWords.any t.isWord

/-- The marks that combine values. -/
def isOperator (t : Token) : Bool :=
  [.plus, .minus, .star, .slash, .percent, .caret, .andAnd, .orOr, .doubleDot].any t.isMark

/-- The marks that compare values. -/
def isComparator (t : Token) : Bool :=
  [.equalEqual, .notEqual, .less, .lessEqual, .greater, .greaterEqual].any t.isMark

/-- The marks that combine selectors. -/
def isCombinator (t : Token) : Bool :=
  [.greater, .plus, .tilde].any t.isMark

/-- The marks in front of which a blank combines nothing: those that combine by themselves, and
those that end a selector. -/
def refusesBlank (t : Token) : Bool :=
  t.isCombinator ||
    [.leftBrace, .atSign, .comma, .colon, .arrow, .semicolon, .rightBrace].any t.isMark

end Token

namespace Lookahead

open Token

/-- The very next token is one of these. -/
def next (p : Token → Bool) : Lookahead :=
  fun ts => ts.head?.any p

/-- The next token that is not trivia is one of these. -/
def significant (p : Token → Bool) : Lookahead :=
  fun ts => (ts.find? (!·.isTrivia)).any p

/-- The next two tokens, with nothing between them. -/
def pair (p q : Token → Bool) : Lookahead
  | t :: u :: _ => p t && q u
  | _ => false

/-- An `@` and the word of an object. -/
def isObject : Lookahead := pair (isMark .atSign) isObjectWord

/-- A name with an opening parenthesis right behind it. -/
def isCall : Lookahead := pair isName (isMark .leftParen)

/-- A name, a blank, and something that can begin an argument. A comment instead of the blank
makes it no call, which is what `Document.Trivia` has to except. -/
def isSpacedCall : Lookahead
  | t :: u :: ts => t.isName && u.kind == .blank && significant beginsArgument ts
  | _ => false

/-- A blank or a comment between two selectors, the second of which is a descendant of the first:
what follows is neither a combining mark nor something that ends the selector. A comment alone is
enough, although only white space combines: see `Document.Combinators`. -/
def isDescendant : Lookahead := fun ts =>
  next isTrivia ts && significant (!·.refusesBlank) ts

/-! ## Statements -/

/-- What a statement reaches first. -/
inductive Landmark where
  | block | arrow | terminator
deriving DecidableEq, Repr

/-- The first landmark outside of parentheses and brackets, `depth` of which are open. The depth
does not tell the two sorts of group apart, and a group that closes too often counts as closed. -/
def reachesFirst (depth : Nat) : List Token → Landmark
  | [] => .terminator
  | t :: ts =>
    if t.isMark .leftParen || t.isMark .leftBracket then reachesFirst (depth + 1) ts
    else if t.isMark .rightParen || t.isMark .rightBracket then reachesFirst (depth - 1) ts
    else if depth != 0 then reachesFirst depth ts
    else if t.isMark .arrow then .arrow
    else if t.isMark .leftBrace then .block
    else if t.isMark .semicolon || t.isMark .rightBrace then .terminator
    else reachesFirst depth ts

/-- What the target of a possible assignment is in the middle of. A group is left only through its
own closing mark, whatever other marks stand inside it. -/
inductive TargetState where
  | between
  /-- Behind a point, where a name has to follow. -/
  | name
  /-- Inside a group, with so many groups of the same sort inside it. -/
  | group (opening closing : Mark) (inner : Nat)
deriving DecidableEq, Repr

/-- The tokens behind the sign of an assignment, if a target and the sign come first. The first
colon or equals sign outside of a group is taken for that sign, a colon that begins a flag
included: see `Document.SelectorCalls`. -/
def behindSign? : TargetState → List Token → Option (List Token)
  | _, [] => none
  | .between, t :: ts =>
    if t.isMark .dot then behindSign? .name ts
    else if t.isMark .leftBracket then behindSign? (.group .leftBracket .rightBracket 0) ts
    else if t.isMark .leftParen then behindSign? (.group .leftParen .rightParen 0) ts
    else if t.isTrivia then behindSign? .between ts
    else if t.isMark .colon || t.isMark .equals then some ts
    else none
  | .name, t :: ts => if t.isName then behindSign? .between ts else none
  | .group opening closing inner, t :: ts =>
    if t.isMark opening then behindSign? (.group opening closing (inner + 1)) ts
    else if t.isMark closing then
      match inner with
      | 0 => behindSign? .between ts
      | inner + 1 => behindSign? (.group opening closing inner) ts
    else behindSign? (.group opening closing inner) ts

/-- Whether a value reaches its end before any block. An `@` that names no object begins the
value of an object, whose block belongs to the value. -/
def isValue (depth : Nat) : List Token → Bool
  | [] => true
  | t :: ts =>
    if t.isMark .leftParen || t.isMark .leftBracket then isValue (depth + 1) ts
    else if t.isMark .rightParen || t.isMark .rightBracket then isValue (depth - 1) ts
    else if depth != 0 then isValue depth ts
    else if t.isMark .semicolon || t.isMark .rightBrace then true
    else if t.isMark .leftBrace then false
    else if t.isMark .atSign then
      if next isObjectWord ts then isValue depth ts else true
    else isValue depth ts

/-- The tokens behind the head of a possible assignment: a name, or an object. -/
def behindHead? (ts : List Token) : Option (List Token) :=
  match ts.dropWhile isTrivia with
  | t :: ts =>
    if t.isName then some ts
    else if t.isMark .atSign && next isObjectWord ts then some ts.tail
    else none
  | [] => none

/-- A target, an assignment sign, and a value that reaches its end before any block. The last part
is what tells `a: b;` from the rule `a:b {}`. -/
def isAssignment : Lookahead := fun ts =>
  (((behindHead? ts).bind (behindSign? .between)).map (isValue 0)).getD false

/-- A block comes first, outside of parentheses and brackets. -/
def isRule : Lookahead := fun ts => reachesFirst 0 ts == .block

/-- An arrow comes first, outside of parentheses and brackets. -/
def isSelectorCall : Lookahead := fun ts => reachesFirst 0 ts == .arrow

/-! ## Types -/

/-- Whether a type has a `|` on its own level, `depth` groups being open. A bar on any other level
ends the look with a no: see `Printed.Types`. -/
def hasBar (depth : Nat) : List Token → Bool
  | [] => false
  | t :: ts =>
    if t.isMark .leftParen || t.isMark .leftBracket then hasBar (depth + 1) ts
    else if t.isMark .rightParen || t.isMark .rightBracket then
      match depth with
      | 0 => false
      | depth + 1 => hasBar depth ts
    else if t.isMark .pipe && depth == 0 then true
    else if t.isName || t.isMark .atSign || t.isMark .ampersand || t.isMark .fatArrow ||
      t.isTrivia then hasBar depth ts
    else if (t.isMark .comma || t.isMark .colon) && depth != 0 then hasBar depth ts
    else false

/-- Several types, one of which a value may have. -/
def isMultipleType : Lookahead := hasBar 0

/-- Whether a colon comes before the bracket that closes the group, `depth` groups further in. -/
def hasColon (depth : Nat) : List Token → Bool
  | [] => false
  | t :: ts =>
    if t.isMark .leftParen || t.isMark .leftBracket then hasColon (depth + 1) ts
    else if t.isMark .rightParen then hasColon (depth - 1) ts
    else if t.isMark .rightBracket then
      match depth with
      | 0 => false
      | depth + 1 => hasColon depth ts
    else if t.isMark .colon && depth == 0 then true
    else hasColon depth ts

/-- A bracket with a key and a value type inside rather than an element type. -/
def isMapType : Lookahead
  | t :: ts => t.isMark .leftBracket && hasColon 0 ts
  | [] => false

end Lookahead

end Heddle
