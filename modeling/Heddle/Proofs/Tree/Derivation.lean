import Mathlib.Computability.RegularExpressions
import Mathlib.Order.CompletePartialOrder
import Heddle.Tree
import Heddle.Token

/-!
# Trees that the grammar derives

The grammar of the language says of every kind of node what its children are. Here it is written
down once more, not as phrases that are read from tokens but as the books have it: a regular
expression for each kind, over the kinds of nodes and the roles of data. `Node.IsDerived` says that
the children of a node, without the trivia among them, match the expression of its kind.

Two things differ from the grammar of flawless sources. A document or block may have nodes for what
was skipped behind an error. And a placeholder of a quoted text that could not be read leaves its
sign behind, an expression if one was read, and what is left of the placeholder as invalid data.

The expressions are regular over symbols because no rule of the grammar looks into a child: what a
child is made of is the concern of the rule of its kind. So that a tree is derived is said node by
node (`Forest.IsDerived`).
-/

set_option autoImplicit false

namespace Heddle

/-- A child of a node as the grammar sees it. -/
inductive Symbol where
  | node (kind : NodeKind)
  /-- A mark in its role, which is told by its text. -/
  | sign (tag : DataTag) (text : String)
  | data (tag : DataTag)
deriving DecidableEq, Repr

namespace Symbol

/-- A piece of data as the grammar sees it: of punctuation, operators and comparators the text
counts, of everything else only the role. -/
def ofData (tag : DataTag) (text : String) : Symbol :=
  match tag with
  | .punctuation | .operator | .comparator => sign tag text
  | _ => data tag

/-- A piece of data as a child: trivia is none. -/
def ofChild (tag : DataTag) (text : String) : List Symbol :=
  if tag.isTrivia then [] else [ofData tag text]

end Symbol

/-- The children of a forest, without the trivia among them. The children of the nodes in it are
not looked at. -/
def Forest.symbols : Forest → List Symbol
  | nil => []
  | data tag text next => Symbol.ofChild tag text ++ next.symbols
  | node kind _ _ next => .node kind :: next.symbols

/-! ## Expressions -/

/-- What the children of a node may be. Mathlib's regular expressions bring their language and a
matcher that is computed. -/
abbrev Rule := RegularExpression Symbol

namespace Rule

/-- A node. -/
def node (kind : NodeKind) : Rule := .char (.node kind)

/-- A piece of data, whatever its text. -/
def data (tag : DataTag) : Rule := .char (.data tag)

/-- A mark as an operator. -/
def operator (m : Mark) : Rule := .char (.sign .operator m.spelling)

/-- A mark as a comparator. -/
def comparator (m : Mark) : Rule := .char (.sign .comparator m.spelling)

/-- A mark as punctuation. -/
def mark (m : Mark) : Rule := .char (.sign .punctuation m.spelling)

/-- One after the other. -/
def seq : List Rule → Rule
  | [] => 1
  | [r] => r
  | r :: rs => r * seq rs

/-- One of several. -/
def anyOf (rs : List Rule) : Rule := rs.foldr (· + ·) 0

/-- A node of one of several kinds. -/
def nodes (kinds : List NodeKind) : Rule := anyOf (kinds.map node)

/-- If there is one. -/
def opt (r : Rule) : Rule := 1 + r

/-- As many as there are. -/
def many (r : Rule) : Rule := .star r

/-- As many as there are, and at least one. -/
def oneOrMore (r : Rule) : Rule := r * many r

/-- One, and further ones behind a separator. -/
def separated (separator element : Rule) : Rule := element * many (separator * element)

/-- Nothing or elements with commas between them, then the closing mark. It is the shape of
arguments, parameters, elements of arrays and entries of objects. -/
def upTo (closing : Mark) (element : Rule) : Rule :=
  mark closing + separated (mark .comma) element * mark closing

/-! ## Parts that several rules share -/

def singleType : Rule :=
  nodes [.type, .functionType, .pointerType, .objectType, .arrayType, .mapType]

def type : Rule := node .multipleType + singleType

def operand : Rule :=
  nodes [.unary, .number, .string, .rawString, .color, .constant, .array, .newObject, .builtinCall,
    .objectDefinition, .expression, .valuePath]

def operators : Rule :=
  anyOf ([.plus, .minus, .star, .slash, .percent, .caret, .andAnd, .orOr, .doubleDot].map operator)

def comparators : Rule :=
  anyOf ([.equalEqual, .notEqual, .less, .lessEqual, .greater, .greaterEqual].map comparator)

/-- Operands with operators and comparators between them. How they bind is not told by the
children of a node. -/
def operation : Rule := separated (operators + comparators) operand

def arguments : Rule := mark .leftParen * upTo .rightParen (node .argument)

/-- A name in a path, in a role of its own or as a call. -/
def segment (tag : DataTag) : Rule :=
  nodes [.functionCall, .singleArgumentCall] + data tag

/-- What follows the head of a selector. -/
def selectorPart : Rule :=
  anyOf [mark .dot * data .className, mark .hash * data .idName, nodes [.flag, .filter]]

def statement : Rule :=
  nodes [.declaration, .functionDeclaration, .ifStatement, .switchStatement, .loopStatement,
    .forStatement, .returnStatement, .repeatStatement, .breakStatement, .continueStatement,
    .needs, .configure, .foreign, .objectDefinition, .assignment, .selectorCall, .rule,
    .expression]

/-- Statements, and what was skipped behind those that failed. Only documents and blocks have
statements, so only they hold what was skipped. -/
def statements : Rule := many (statement + node .invalid)

def condition : Rule := seq [mark .leftParen, node .expression, mark .rightParen]

/-- A semicolon, which may be left out before the end of a block. That it is left out nowhere else
is not said by the children of a node. -/
def terminator : Rule := opt (mark .semicolon)

def bareKeyword : Rule := data .keyword * terminator

/-- A placeholder without braces: its sign and the path, or what is left of it. -/
def namedPlaceholder : Rule :=
  mark .percent * (node .valuePath + opt (data .invalid))

/-- A placeholder in braces. The expression may be there without the closing brace, if something
else was found in the place of the brace. -/
def bracedPlaceholder : Rule :=
  seq [ mark .percent, mark .leftBrace,
    node .expression * mark .rightBrace + opt (node .expression) * opt (data .invalid) ]

def placeholder : Rule := namedPlaceholder + bracedPlaceholder

end Rule

open Rule in
/-- The children of a node of each kind. The arms stand in the order of the grammar. -/
def NodeKind.children : NodeKind → Rule
  | document => statements
  | block => seq [mark .leftBrace, statements, mark .rightBrace]
  | number => data .number
  | string => data .stringChunk * many (oneOrMore placeholder * data .stringChunk)
  | rawString => data .rawString
  | constant => data .constant
  | color => mark .hash * data .color
  | array => mark .leftBracket * upTo .rightBracket (node .expression)
  | type => data .typeName
  | functionType => seq
      [mark .leftParen, upTo .rightParen Rule.type, mark .fatArrow, singleType]
  | pointerType => operator .ampersand * singleType
  | multipleType => singleType * oneOrMore (operator .pipe * singleType)
  | objectType => mark .atSign * data .typeName
  | arrayType => seq [mark .leftBracket, Rule.type, mark .rightBracket]
  | mapType => seq
      [mark .leftBracket, Rule.type, mark .colon, Rule.type, mark .rightBracket]
  | declaration => seq
      [ data .keyword, data .varName, opt (mark .colon * Rule.type),
        opt (mark .equals * node .expression), mark .semicolon ]
  | assignment => seq
      [node .valuePath, mark .colon + mark .equals, node .expression, terminator]
  | expression => operation * terminator + condition
  | unary => (operator .bang + operator .minus) * operand
  | valuePath => (node .objectSelector + segment .varName) *
      many (mark .dot * segment .propertyName + node .indexAccessor)
  | indexAccessor => seq [mark .leftBracket, node .expression, mark .rightBracket]
  | selector =>
      (data .elementName + node .objectSelector) * many selectorPart + oneOrMore selectorPart
  | objectSelector => mark .atSign * data .objectKeyword
  | combinator => many (data .combinator)
  | filter => seq [mark .leftBracket, node .expression, mark .rightBracket]
  | flag => seq [mark .colon, data .flagName, opt arguments]
  | selectorChain => separated (node .combinator) (node .selector)
  | rule => seq
      [separated (mark .comma) (node .selectorChain), opt (mark .colon), node .block]
  | objectDefinition => seq [mark .atSign, opt (data .typeName), node .block]
  | functionDeclaration => seq
      [ opt (data .modifier), data .keyword, data .functionName, mark .leftParen,
        upTo .rightParen (node .parameter), opt (mark .colon * Rule.type), node .block ]
  | parameter => data .parameterName * opt (mark .colon * Rule.type)
  | functionCall => data .functionName * arguments
  | selectorCall => seq
      [node .selectorChain, mark .arrow, data .functionName, arguments, mark .semicolon]
  | singleArgumentCall => data .functionName * node .argument
  | builtinCall => seq [mark .dollar, data .functionName, arguments]
  | argument => opt (operator .ellipsis) * node .expression
  | ifStatement => seq [data .keyword, condition, node .block, opt (node .elseBranch)]
  | elseBranch => data .keyword * nodes [.ifStatement, .block]
  | switchStatement => seq
      [ data .keyword, condition, mark .leftBrace, many (nodes [.caseBranch, .defaultBranch]),
        mark .rightBrace ]
  | caseBranch => seq [data .keyword, separated (mark .comma) (node .expression), node .block]
  | defaultBranch => data .keyword * node .block
  | loopStatement => seq [data .keyword, opt condition, node .block, opt (node .finallyBranch)]
  | forStatement => seq
      [ data .keyword, mark .leftParen, data .varName, data .keyword, node .expression,
        mark .rightParen, node .block, opt (node .finallyBranch) ]
  | finallyBranch => data .keyword * node .block
  | returnStatement => seq [data .keyword, opt (node .expression), terminator]
  | repeatStatement => bareKeyword
  | breakStatement => bareKeyword
  | continueStatement => bareKeyword
  | newObject => seq [data .keyword, data .typeName, opt arguments]
  | needs => seq [data .keyword, nodes [.string, .rawString, .valuePath], mark .semicolon]
  | configure => seq [data .keyword, data .varName, node .block]
  | foreign => seq
      [ .char (.sign .punctuation "<"), data .language, .char (.sign .punctuation ">"),
        opt (data .foreignContent),
        .char (.sign .punctuation "</"), data .language, .char (.sign .punctuation ">") ]
  | invalid => many (data .invalid)

/-! ## Trees -/

/-- The children of the node are what its kind says. -/
def Node.IsDerived (n : Node) : Prop := n.children.symbols ∈ n.kind.children.matches'

/-- All nodes of the forest, at any depth, have the children that their kinds say. -/
def Forest.IsDerived : Forest → Prop
  | nil => True
  | data _ _ next => next.IsDerived
  | node kind _ children next =>
    children.symbols ∈ kind.children.matches' ∧ children.IsDerived ∧ next.IsDerived

namespace Forest

@[simp] theorem symbols_append (f g : Forest) : (f ++ g).symbols = f.symbols ++ g.symbols := by
  induction f with
  | nil => rfl
  | data tag text next ih => rw [data_append, symbols, ih, symbols, List.append_assoc]
  | node kind location children next _ ih => rw [node_append, symbols, ih]; rfl

@[simp] theorem isDerived_append (f g : Forest) :
    (f ++ g).IsDerived ↔ f.IsDerived ∧ g.IsDerived := by
  induction f with
  | nil => simp [IsDerived]
  | data tag text next ih => exact ih
  | node kind location children next _ ih =>
    rw [node_append, IsDerived, ih]
    simp [IsDerived, and_assoc]

/-- The nodes that can be found in a forest are those it is made of. So a statement about a forest
is one about every node found in it. -/
theorem IsDerived.of_findAll {f : Forest} (h : f.IsDerived) (kind : NodeKind) :
    ∀ n ∈ f.findAll kind, n.IsDerived := by
  induction f with
  | nil => exact nofun
  | data tag text next ih => exact ih h
  | node k location children next ihc ihn =>
    obtain ⟨hn, hc, hnext⟩ := h
    intro n hm
    rw [findAll, List.mem_append, List.mem_append] at hm
    rcases hm with (hm | hm) | hm
    · split at hm
      · rw [List.mem_singleton.1 hm]
        exact hn
      · cases hm
    · exact ihc hc n hm
    · exact ihn hnext n hm

end Forest

end Heddle
