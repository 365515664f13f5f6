import Heddle.Grammar.Phrase

/-!
# The rules of the language

`Production.body` gives every construct its rule. Above it stand the phrases that several rules
share; where a rule has a choice, its look ahead stands beside it.

A rule that is chosen by its first token takes that token with `take`, without asking again what
it is. `Proofs.Grammar.Condition` proves that such a rule is only ever entered where its choice
has seen the token.
-/

set_option autoImplicit false

namespace Heddle

namespace Phrase

open Lookahead Token

/-! ## Types -/

/-- One type, not an alternative of several. What cannot begin a type is an error here, wherever a
type is asked for. -/
def singleType : Phrase :=
  andThen trivia <| oneOf
    [ (next (isMark .leftParen), node .functionType),
      (next (isMark .ampersand), node .pointerType),
      (next (isMark .atSign), node .objectType),
      (next (isMark .leftBracket), choose isMapType (node .mapType) (node .arrayType)),
      (next isName, node .namedType) ]
    (expected .type)

/-- A type; only one with alternatives gets a node around them. -/
def type : Phrase :=
  andThen trivia (choose isMultipleType (node .multipleType) singleType)

/-! ## Expressions -/

/-- A value that stands on its own. -/
def primary : Phrase :=
  andThen trivia <| oneOf
    [ (next (·.kind.isNumber), node .number),
      (next isQuoted, node .string),
      (next isRawText, node .rawString),
      (next (isMark .hash), node .color),
      (next (isMark .leftParen), node .parenthesized),
      (next (isMark .leftBracket), node .array),
      (next (isMark .dollar), node .builtinCall),
      (isObject, node .valuePath),
      (next (isMark .atSign), node .objectDefinition),
      (next fun t => ["true", "false", "null"].any t.isWord, node .constant),
      (next (·.isWord "new"), node .newObject),
      (next isName, node .valuePath) ]
    (expected .expression)

/-- A value with the signs in front of it. -/
def operand : Phrase :=
  andThen trivia <|
    choose (next fun t => t.isMark .bang || t.isMark .minus) (node .unary) primary

/-- Operands with operators and comparators between them, all on one level. -/
def operation : Phrase :=
  andThen operand <|
    repeating (significant fun t => t.isOperator || t.isComparator) <|
      seq [trivia, choose (next isOperator) (take .operator) (take .comparator), operand]

/-- The arguments of a call, in parentheses. -/
def arguments : Phrase :=
  andThen (mark .leftParen) (listUpTo .rightParen (node .argument))

/-- A name in a path: a call if it looks like one. Only the second look depends on whether calls
may be written without parentheses. -/
def segment (tag : DataTag) : Phrase :=
  oneOf
    [ (isCall, node .functionCall),
      (isSpacedCall, spacedCalls (node .singleArgumentCall) (take tag)),
      (next isName, take tag) ]
    (expected .name)

/-! ## Selectors -/

/-- What follows the head of a selector, without a blank in between. -/
def selectorPart : Phrase :=
  oneOf
    [ (pair (isMark .dot) isName, seq [take .punctuation, take .className]),
      (pair (isMark .hash) isName, seq [take .punctuation, take .idName]),
      (pair (isMark .colon) isName, node .flag) ]
    (node .filter)

/-- Whether a part of a selector follows. It asks what `selectorPart` chooses by, so a round of
the loop over the parts always has a part to begin. -/
def isSelectorPart : Lookahead := fun ts =>
  pair (isMark .dot) isName ts || pair (isMark .hash) isName ts || pair (isMark .colon) isName ts ||
    next (isMark .leftBracket) ts

/-- All parts that follow the head of a selector. -/
def selectorParts : Phrase :=
  repeating isSelectorPart selectorPart

/-! ## Statements -/

/-- A semicolon, which may be left out before the end of a block. Declarations and calls do not
end with it: they ask for their semicolon. -/
def terminator : Phrase :=
  choose (significant (isMark .rightBrace)) empty (mark .semicolon)

/-- An expression in parentheses, as the statements that branch have it. -/
def condition : Phrase :=
  seq [mark .leftParen, node .expression, mark .rightParen]

/-- What is done when a loop has ended, if anything. -/
def optionalFinally : Phrase :=
  choose (significant (·.isWord "finally")) (node .finallyBranch) empty

/-- An assignment, a rule, a selector call or an expression. -/
def plainStatement : Phrase :=
  oneOf
    [ (isAssignment, node .assignment),
      (isRule, node .rule),
      (isSelectorCall, node .selectorCall) ]
    (node .expressionStatement)

/-- Any statement; its first significant token decides which. A word that only goes on with a
statement is an error of its own, which keeps the branches from being read as expressions. -/
def statement : Phrase :=
  andThen trivia <| oneOf
    [ (next fun t => ["var", "const"].any t.isWord, node .declaration),
      (next fun t => ["function", "override", "insert"].any t.isWord, node .functionDeclaration),
      (next (·.isWord "if"), node .ifStatement),
      (next (·.isWord "switch"), node .switchStatement),
      (next (·.isWord "loop"), node .loopStatement),
      (next (·.isWord "for"), node .forStatement),
      (next (·.isWord "return"), node .returnStatement),
      (next (·.isWord "repeat"), node .repeatStatement),
      (next (·.isWord "break"), node .breakStatement),
      (next (·.isWord "continue"), node .continueStatement),
      (next (·.isWord "needs"), node .needs),
      (next (·.isWord "configure"), node .configure),
      (next fun t => ["else", "case", "default", "finally"].any t.isWord, orphan),
      (next isForeign, node .foreign),
      (isObject, plainStatement),
      (next (isMark .atSign), node .objectDefinition),
      (next fun _ => true, plainStatement) ]
    (expected .statement)

/-- A keyword that is a statement of its own. -/
def bareKeyword : Phrase :=
  andThen (take .keyword) terminator

end Phrase

open Phrase Lookahead Token in
/-- The rule of each construct. A keyword or mark that the choice of the rule has already seen is
taken without a look. The rules are mutually recursive through `Phrase.node` only, which is data
here, so the definition itself is not recursive. -/
def Production.body : Production → Phrase
  | .block => seq [mark .leftBrace, statements true statement, mark .rightBrace]
  | .declaration => seq
      [ take .keyword, name .varName .variableName,
        optional .colon .punctuation type,
        optional .equals .punctuation (node .expression),
        mark .semicolon ]
  | .assignment => seq
      [ node .valuePath,
        choose (significant fun t => t.isMark .colon || t.isMark .equals)
          (seq [trivia, take .punctuation]) (expected .assignmentSign),
        node .expression, terminator ]
  | .functionDeclaration => seq
      [ choose (next fun t => ["override", "insert"].any t.isWord) (take .modifier) empty,
        keyword "function", name .functionName .functionName,
        mark .leftParen, listUpTo .rightParen (node .parameter),
        optional .colon .punctuation type,
        node .block ]
  | .parameter => seq [name .parameterName .parameterName, optional .colon .punctuation type]
  | .ifStatement => seq
      [ take .keyword, condition, node .block,
        choose (significant (·.isWord "else")) (node .elseBranch) empty ]
  | .elseBranch => seq
      [take .keyword, choose (significant (·.isWord "if")) (node .ifStatement) (node .block)]
  | .switchStatement => seq
      [ take .keyword, condition, mark .leftBrace,
        repeating (significant fun t => t.isWord "case" || t.isWord "default")
          (choose (significant (·.isWord "case")) (node .caseBranch) (node .defaultBranch)),
        choose (significant (isMark .rightBrace)) (seq [trivia, take .punctuation])
          (expected .branchOrEnd) ]
  | .caseBranch => seq [take .keyword, commaSeparated (node .expression), node .block]
  | .defaultBranch => seq [take .keyword, node .block]
  | .loopStatement => seq
      [ take .keyword, choose (significant (isMark .leftParen)) condition empty,
        node .block, optionalFinally ]
  | .forStatement => seq
      [ take .keyword, mark .leftParen, name .varName .loopVariable, keyword "in",
        node .expression, mark .rightParen, node .block, optionalFinally ]
  | .finallyBranch => seq [take .keyword, node .block]
  | .returnStatement => seq
      [ take .keyword,
        choose (significant fun t => t.isMark .semicolon || t.isMark .rightBrace) empty
          (node .expression),
        terminator ]
  | .repeatStatement => bareKeyword
  | .breakStatement => bareKeyword
  | .continueStatement => bareKeyword
  | .needs => seq
      [ take .keyword, trivia,
        choose (next fun t => t.isQuoted || t.isRawText) primary (node .valuePath),
        mark .semicolon ]
  | .configure => seq [take .keyword, name .varName .configurationName, node .block]
  | .foreign => Phrase.foreign
  | .rule => seq
      [commaSeparated (node .selectorChain), optional .colon .punctuation empty, node .block]
  | .selectorCall => seq
      [ node .selectorChain, mark .arrow, name .functionName .functionName, arguments,
        mark .semicolon ]
  | .selectorChain => andThen (node .selector) <|
      repeating (fun ts => isDescendant ts || significant isCombinator ts) <|
        andThen (choose isDescendant (node .descendant) (node .combinator)) (node .selector)
  | .combinator => take .combinator
  | .descendant => andThen (take .combinator) (repeating (next isTrivia) (take .combinator))
  | .selector => oneOf
      [ (next fun t => t.isName || t.isMark .star, andThen (take .elementName) selectorParts),
        (isObject, andThen (node .objectSelector) selectorParts),
        (isSelectorPart, selectorParts) ]
      (expected .selector)
  | .objectSelector => seq [take .punctuation, take .objectKeyword]
  | .flag => seq
      [ take .punctuation, take .flagName,
        choose (next (isMark .leftParen)) arguments empty ]
  | .filter => seq [take .punctuation, node .expression, mark .rightBracket]
  | .objectDefinition => seq
      [ take .punctuation,
        choose (significant isName) (seq [trivia, take .typeName]) empty,
        node .block ]
  | .multipleType => andThen singleType (further .pipe .operator singleType)
  | .functionType => seq
      [take .punctuation, listUpTo .rightParen type, mark .fatArrow, singleType]
  | .pointerType => seq [take .operator, singleType]
  | .objectType => seq [take .punctuation, name .typeName .typeName]
  | .mapType => seq [take .punctuation, type, mark .colon, type, mark .rightBracket]
  | .arrayType => seq [take .punctuation, type, mark .rightBracket]
  | .namedType => take .typeName
  | .expression => operation
  | .expressionStatement => seq [operation, mark .semicolon]
  | .parenthesized => seq [take .punctuation, node .expression, mark .rightParen]
  | .unary => seq [take .operator, operand]
  | .number => take .number
  | .string => quoted
      (seq [take .punctuation, node .valuePath])
      (seq [take .punctuation, take .punctuation, node .expression, mark .rightBrace])
  | .rawString => take .rawString
  | .constant => take .constant
  | .color => seq [take .punctuation, hexDigits]
  | .array => seq [take .punctuation, listUpTo .rightBracket (node .expression)]
  | .newObject => seq
      [ take .keyword, name .typeName .typeName,
        choose (next (isMark .leftParen)) arguments empty ]
  | .builtinCall => seq [take .punctuation, name .functionName .builtinName, arguments]
  | .argument => seq [optional .ellipsis .operator empty, node .expression]
  | .valuePath => andThen
      (choose isObject (node .objectSelector) (segment .varName))
      (repeating (fun ts => pair (isMark .dot) isName ts || next (isMark .leftBracket) ts)
        (choose (pair (isMark .dot) isName)
          (seq [take .punctuation, segment .propertyName]) (node .indexAccessor)))
  | .functionCall => seq [take .functionName, arguments]
  | .singleArgumentCall => seq [take .functionName, node .argument]
  | .indexAccessor => seq [take .punctuation, node .expression, mark .rightBracket]

end Heddle
