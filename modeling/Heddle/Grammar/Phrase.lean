import Heddle.NodeKind
import Heddle.DataTag
import Heddle.Failure
import Heddle.Grammar.Lookahead

/-!
# The language of the grammar

A rule of the grammar is a value: a `Phrase`, built from a few primitive steps. Reading a phrase
is defined once, for all phrases, so what holds of every reading is proved once and not rule by
rule. Phrases refer to the rules themselves by the name of their `Production`, and this is the
only way for a phrase to go deeper.

The price is that the grammar is first-order data: a look ahead in it is a function, but a phrase
is an inductive type, and every fact about the language as a whole is either an induction on
`Phrase` or a case for each of the constructs. `Proofs.Grammar` keeps the two apart.
-/

set_option autoImplicit false

namespace Heddle

/-- The constructs that make a node. Several constructs can have nodes of one kind. -/
inductive Production where
  | block
  | declaration | assignment | functionDeclaration | parameter
  | ifStatement | elseBranch | switchStatement | caseBranch | defaultBranch
  | loopStatement | forStatement | finallyBranch
  | returnStatement | repeatStatement | breakStatement | continueStatement
  | needs | configure | foreign
  | rule | selectorCall | selectorChain | combinator | descendant | selector | objectSelector
  | flag | filter | objectDefinition
  | multipleType | functionType | pointerType | objectType | mapType | arrayType | namedType
  | expression | expressionStatement | parenthesized | unary
  | number | string | rawString | constant | color | array
  | newObject | builtinCall | argument
  | valuePath | functionCall | singleArgumentCall | indexAccessor
deriving DecidableEq, Repr

namespace Production

/-- The kind of the node. -/
def kind : Production → NodeKind
  | block => .block
  | declaration => .declaration
  | assignment => .assignment
  | functionDeclaration => .functionDeclaration
  | parameter => .parameter
  | ifStatement => .ifStatement
  | elseBranch => .elseBranch
  | switchStatement => .switchStatement
  | caseBranch => .caseBranch
  | defaultBranch => .defaultBranch
  | loopStatement => .loopStatement
  | forStatement => .forStatement
  | finallyBranch => .finallyBranch
  | returnStatement => .returnStatement
  | repeatStatement => .repeatStatement
  | breakStatement => .breakStatement
  | continueStatement => .continueStatement
  | needs => .needs
  | configure => .configure
  | foreign => .foreign
  | rule => .rule
  | selectorCall => .selectorCall
  | selectorChain => .selectorChain
  | combinator | descendant => .combinator
  | selector => .selector
  | objectSelector => .objectSelector
  | flag => .flag
  | filter => .filter
  | objectDefinition => .objectDefinition
  | multipleType => .multipleType
  | functionType => .functionType
  | pointerType => .pointerType
  | objectType => .objectType
  | mapType => .mapType
  | arrayType => .arrayType
  | namedType => .type
  | expression | expressionStatement | parenthesized => .expression
  | unary => .unary
  | number => .number
  | string => .string
  | rawString => .rawString
  | constant => .constant
  | color => .color
  | array => .array
  | newObject => .newObject
  | builtinCall => .builtinCall
  | argument => .argument
  | valuePath => .valuePath
  | functionCall => .functionCall
  | singleArgumentCall => .singleArgumentCall
  | indexAccessor => .indexAccessor

/-- Whether trivia in front belongs to the node. Elsewhere it goes to the parent; only a blank that
combines two selectors is the very content of its node. -/
def keepsTrivia : Production → Bool
  | descendant => true
  | _ => false

end Production

/-- How a construct is read. The last four are not made of smaller steps: lists of statements are
where failures end, and the other three reach below the level of tokens. -/
inductive Phrase where
  /-- Nothing at all. -/
  | empty
  /-- The next token, whatever it is, in the given role. -/
  | take (tag : DataTag)
  /-- All trivia up to the next significant token. -/
  | trivia
  | node (p : Production)
  | andThen (first second : Phrase)
  | choose (test : Lookahead) (yes no : Phrase)
  /-- The phrase again and again while the look ahead says yes. -/
  | repeating (test : Lookahead) (body : Phrase)
  /-- One phrase where a call may be written without parentheses, another where it may not. -/
  | spacedCalls (yes no : Phrase)
  /-- Always fails: something else was wanted here. -/
  | expected (wanted : Wanted)
  /-- Always fails at a keyword that does not begin a statement. -/
  | orphan
  /-- Statements up to a closing brace, which inside a block ends them. A statement that fails is
  reported and skipped. -/
  | statements (inBlock : Bool) (statement : Phrase)
  /-- A quoted text, in which the placeholders are read by these two phrases. -/
  | quoted (named braced : Phrase)
  /-- The digits of a color, read with a preference for hexadecimal digits. -/
  | hexDigits
  /-- A block of another language, taken apart into its tags and its content. -/
  | foreign

namespace Phrase

/-- Phrases one after the other. -/
def seq : List Phrase → Phrase
  | [] => empty
  | [p] => p
  | p :: ps => andThen p (seq ps)

/-- The first phrase whose look ahead says yes. -/
def oneOf (cases : List (Lookahead × Phrase)) (otherwise : Phrase) : Phrase :=
  cases.foldr (fun (test, yes) no => choose test yes no) otherwise

open Lookahead Token

/-- Trivia and a token that has to be there. The trivia is taken in either case, so a failure
stands at the token that does not fit and not in front of the blanks before it. -/
def expect (p : Token → Bool) (tag : DataTag) (wanted : Wanted) : Phrase :=
  andThen trivia (choose (next p) (take tag) (expected wanted))

def mark (m : Mark) : Phrase :=
  expect (isMark m) .punctuation (.mark m)

def keyword (word : String) : Phrase :=
  expect (·.isWord word) .keyword (.keyword word)

def name (tag : DataTag) (wanted : Wanted) : Phrase :=
  expect isName tag wanted

/-- If the next significant token is the mark: trivia, the mark and the phrase. Otherwise nothing,
and trivia stays where it is, for the parent or the next construct. -/
def optional (m : Mark) (tag : DataTag) (rest : Phrase) : Phrase :=
  choose (significant (isMark m)) (seq [trivia, take tag, rest]) empty

/-- Further elements, each behind a separator. A separator that no element follows is a failure,
so no list ends with one. -/
def further (separator : Mark) (tag : DataTag) (element : Phrase) : Phrase :=
  repeating (significant (isMark separator)) (seq [trivia, take tag, element])

/-- One element, or several with commas between them. -/
def commaSeparated (element : Phrase) : Phrase :=
  andThen element (further .comma .punctuation element)

/-- Nothing or elements with commas between them, then the closing mark. The opening mark has been
taken by the caller, which knows what to ask for in its place. -/
def listUpTo (closing : Mark) (element : Phrase) : Phrase :=
  choose (significant (isMark closing)) (seq [trivia, take .punctuation])
    (andThen (commaSeparated element) (mark closing))

end Phrase

end Heddle
